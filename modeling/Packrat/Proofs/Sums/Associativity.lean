import Mathlib
import Packrat.Proofs.Sums.LeftRecursion

/-! # Sums nest to the side of their recursion

    The same sums are parsed with a left-recursive and with a right-recursive rule.  The first grows
    a chain of operations, which is the operands folded from the left.  The second is a plain grammar:
    it reads a number, a plus and the same again, which is the operands folded from the right.

    Both inductions are on the numbers that are still to come: what lies ahead of a position is what
    they add (`added`), and that decides which rule applies. -/

namespace Packrat.Sums

open Relation Matching Engine

variable {source : String} {text : Text} {p : Nat} {o : Option Found} {f : Found}
variable {first d : String} {others : List String} {n : CaptureNode}

/-! ## From the left -/

/-- A chain to which nothing can be added is the operands folded from the left. -/
theorem chain_folded (hothers : ∀ d ∈ others, Number d.toList) (hn : n.stop ≤ text.length)
    (hrest : rest text n.stop = added others)
    (hchain : ReflTransGen (Left.Next text n.start) (ofNode n) f)
    (hend : Left.Operand text f.stop none) :
    f = ofNode ((leaves (n.stop + 1) others).foldl plus n) ∧ f.stop = text.length := by
  induction others generalizing n with
  | nil =>
      rcases ReflTransGen.cases_head hchain with rfl | ⟨f', ⟨v, hoperand, -⟩, -⟩
      · exact ⟨rfl, eq_length hn hrest⟩
      · cases operand_missed Left.isSign_plus hrest hoperand
  | cons d others ih =>
      obtain ⟨hd, hothers⟩ := List.forall_mem_cons.mp hothers
      have hfound : ∀ {o}, Left.Operand text n.stop o → _ := fun hoperand =>
        operand_found Left.isSign_plus Left.isNumber_operand hd hrest hoperand
      rcases ReflTransGen.cases_head hchain with rfl | ⟨f', ⟨v, hoperand, rfl⟩, hchain'⟩
      · cases (hfound hend).1
      · obtain ⟨hv, hstop, hbehind⟩ := hfound hoperand
        cases hv
        rw [operation_ofNode] at hchain'
        exact ih hothers hstop hbehind hchain'

/-- The left-recursive rule finds the operands folded from the left. -/
theorem whole_folded (hnumbers : ∀ d ∈ first :: others, Number d.toList)
    (hrest : rest text 0 = first.toList ++ added others) (h : Left.Whole text 0 o) :
    o = some (ofNode ((leaves (first.length + 1) others).foldl plus (leaf 0 first))) ∧
      o.map Found.stop = some text.length := by
  obtain ⟨hfirst, hothers⟩ := List.forall_mem_cons.mp hnumbers
  rcases h with ⟨-, hnone⟩ | ⟨f, rfl, ⟨f₀, hnumber, hchain⟩, hend⟩
  · cases (Left.isNumber_number.found_leaf hfirst hrest hnone).1
  · obtain ⟨hleaf, hstop, hbehind⟩ := Left.isNumber_number.found_leaf hfirst hrest hnumber
    cases hleaf
    have hzero : (leaf 0 first).stop = first.length := Nat.zero_add _
    obtain ⟨rfl, hlength⟩ := chain_folded (n := leaf 0 first) hothers hstop hbehind hchain hend
    rw [hzero] at hlength ⊢
    exact ⟨rfl, congrArg some hlength⟩

/-! ## From the right -/

namespace Right

/-- The grammar of sums with a right-recursive rule. -/
def rightSum : Grammar :=
  { nodes := #[.ofShape (.range '0' '9'), .ofShape (.oneMore 0), .ofShape (.capture 1 (.text "num")),
      .ofShape (.token 2), .ofShape (.literal "+"), .ofShape (.token 4), .ofShape (.reference "E"),
      .ofShape (.sequence [3, 5, 13]), .ofShape (.capture 7 (.node "+")),
      .ofShape (.range '0' '9'), .ofShape (.oneMore 9), .ofShape (.capture 10 (.text "num")),
      .ofShape (.token 11), { name := some "E", shape := .choice [8, 12], flags := .rule }]
    rules := [("E", 13)]
    root := some 13
    prepared := true }

set_option maxRecDepth 10000 in
theorem rightRecursiveSum_eq : Sample.rightRecursiveSum = rightSum := by
  cbv

/-- Nothing is nullable. -/
def rightNullability : Nullability :=
  ⟨Array.replicate 14 false⟩

set_option maxRecDepth 10000 in
theorem nullability_rightSum : rightSum.nullability = .ok rightNullability := by
  cbv

/-- The whole grammar is plain. -/
theorem plain_rightSum : Plain rightSum rightNullability fun _ => True :=
  plain_of_solid nullability_rightSum (by decide) (by rintro ws ⟨⟩)

/-- The rule. -/
abbrev rule : ExprId := 13

/-- A number, a plus and the rule again. -/
abbrev sum : ExprId := 8

/-- The left operand of an operation. -/
abbrev operand : ExprId := 3

abbrev plusSign : ExprId := 5

/-- The number in which the recursion ends. -/
abbrev number : ExprId := 12

/-- The items of an operation. -/
abbrev items : List ExprId :=
  [operand, plusSign, rule]

/-- The rule is an operation, or else a number. -/
theorem rule_cases (h : PegAt rightSum text rule p o) :
    (∃ f, Each (PegAt rightSum text) items p (some f) ∧
      o = some { f with nodes := (CaptureMode.node "+").close text p f }) ∨
    Each (PegAt rightSum text) items p none ∧ PegAt rightSum text number p o := by
  have hoperation : ∀ {o}, PegAt rightSum text sum p o → ∃ o',
      Each (PegAt rightSum text) items p o' ∧
        o = o'.map fun f => { f with nodes := (CaptureMode.node "+").close text p f } := by
    rintro o ⟨s, hs, hpeg⟩
    cases hs
    cases hpeg with
    | capture _ ht hpeg =>
        cases ht
        exact ⟨_, hpeg.each, rfl⟩
  obtain ⟨s, hs, hpeg⟩ := h
  cases hs
  cases hpeg with
  | choice_here hs hpeg =>
      obtain ⟨o', heach, ho⟩ := hoperation ⟨_, hs, hpeg⟩
      obtain ⟨f, rfl, rfl⟩ := Option.map_eq_some_iff.mp ho.symm
      exact Or.inl ⟨f, heach, rfl⟩
  | choice_next hs hpeg hrest =>
      obtain ⟨o', heach, ho⟩ := hoperation ⟨_, hs, hpeg⟩
      obtain rfl : o' = none := Option.map_eq_none_iff.mp ho.symm
      refine Or.inr ⟨heach, ?_⟩
      cases hrest with
      | choice_here ht hpeg => exact ⟨_, ht, hpeg⟩
      | choice_next ht hpeg hnil =>
          cases hnil
          exact ⟨_, ht, hpeg⟩

theorem isSign_plus : IsSign rightSum plusSign '+' :=
  ⟨rfl, 4, "+", rfl, rfl, by decide⟩

theorem isNumber_operand : IsNumber rightSum operand :=
  ⟨rfl, 2, 1, 0, rfl, rfl, rfl, rfl⟩

theorem isNumber_number : IsNumber rightSum number :=
  ⟨rfl, 11, 10, 9, rfl, rfl, rfl, rfl⟩

/-- The last number is no operation. -/
theorem items_last (hfirst : Number first.toList) (hrest : rest text p = first.toList ++ added [])
    (h : Each (PegAt rightSum text) items p o) : o = none := by
  cases h with
  | fail => rfl
  | next hsome htail =>
      obtain ⟨hleaf, -, hbehind⟩ := isNumber_operand.found_leaf hfirst hrest hsome
      cases hleaf
      cases htail with
      | fail => rfl
      | next hsome =>
          obtain ⟨-, hplus⟩ := isSign_plus.met hsome
          cases hbehind.symm.trans hplus

/-- Any other number is an operand, and what the rule finds behind the sign is the other one. -/
theorem items_more (hfirst : Number first.toList)
    (hrest : rest text p = first.toList ++ added (d :: others))
    (h : Each (PegAt rightSum text) items p o) :
    rest text (p + first.length + 1) = d.toList ++ added others ∧
      ∃ o', PegAt rightSum text rule (p + first.length + 1) o' ∧
        o = o'.map fun v => { v with nodes := leaf p first :: v.nodes } := by
  cases h with
  | fail _ hnone => cases (isNumber_operand.found_leaf hfirst hrest hnone).1
  | next hsome htail =>
      obtain ⟨hleaf, -, hbehind⟩ := isNumber_operand.found_leaf hfirst hrest hsome
      cases hleaf
      refine ⟨(rest_cons hbehind).2.1, ?_⟩
      cases htail with
      | fail _ hnone => exact absurd (congrArg List.head? hbehind) (isSign_plus.missed hnone)
      | next hsome htail =>
          obtain ⟨rfl, -⟩ := isSign_plus.met hsome
          cases htail with
          | fail _ hnone => exact ⟨none, hnone, rfl⟩
          | next hsome hnil =>
              cases hnil
              refine ⟨_, hsome, ?_⟩
              simp [Found.append, Found.nothing, ofNode]

/-- The right-recursive rule finds the operands folded from the right. -/
theorem rule_folded (hnumbers : ∀ d ∈ first :: others, Number d.toList)
    (hrest : rest text p = first.toList ++ added others) (h : PegAt rightSum text rule p o) :
    o = some (ofNode (nestedRight (leaf p first) (leaves (p + first.length + 1) others))) ∧
      o.map Found.stop = some text.length := by
  induction others generalizing first p o with
  | nil =>
      have hfirst := hnumbers first (List.mem_cons_self ..)
      rcases rule_cases h with ⟨f, heach, -⟩ | ⟨-, hpeg⟩
      · cases items_last hfirst hrest heach
      · obtain ⟨rfl, hend, hbehind⟩ := isNumber_number.found_leaf hfirst hrest hpeg
        exact ⟨rfl, congrArg some (eq_length hend hbehind)⟩
  | cons second others ih =>
      obtain ⟨hfirst, hothers⟩ := List.forall_mem_cons.mp hnumbers
      rcases rule_cases h with ⟨f, heach, rfl⟩ | ⟨heach, -⟩
      · obtain ⟨hnext, o', hpeg, ho⟩ := items_more hfirst hrest heach
        obtain ⟨rfl, hend⟩ := ih hothers hnext hpeg
        cases ho
        exact ⟨rfl, hend⟩
      · obtain ⟨hnext, o', hpeg, ho⟩ := items_more hfirst hrest heach
        obtain ⟨rfl, -⟩ := ih hothers hnext hpeg
        cases ho

end Right

/-! ## Parses -/

/-- Where all of a text was found as one node, that is the tree. -/
theorem shows_ofNode {r : ParseResult} (hshows : r.Shows (.ofString source) o)
    (ho : o = some (ofNode n)) (hend : o.map Found.stop = some (Text.ofString source).length) :
    r.matched = true ∧ r.tree = .root 0 source.length [n] := by
  subst ho
  have hstop : r.stop = source.length := by
    rw [hshows.stop, hend]
    exact String.length_toList
  refine ⟨?_, ?_⟩
  · rw [hshows.matched, hend]
    exact decide_eq_true rfl
  · rw [hshows.tree, hstop]
    rfl

/-- Numbers with a plus between two of them are matched by both grammars, whatever is memoized: with
    the left-recursive rule operands are folded from the left, and with the right-recursive rule
    from the right. -/
theorem parseWith_folds (first : String) (others : List String) (config : Config)
    (hnumbers : ∀ d ∈ first :: others, Number d.toList) :
    let source := "+".intercalate (first :: others)
    let operands := leaves (first.length + 1) others
    (∀ r, (parseWith Sample.leftRecursiveSum config source).outcome = .ok r →
      r.matched = true ∧
        r.tree = .root 0 source.length [operands.foldl plus (leaf 0 first)]) ∧
    ∀ r, (parseWith Sample.rightRecursiveSum config source).outcome = .ok r →
      r.matched = true ∧
        r.tree = .root 0 source.length [nestedRight (leaf 0 first) operands] := by
  intro source operands
  have hrest : rest (.ofString source) 0 = first.toList ++ added others :=
    toList_intercalate first others
  refine ⟨fun r h => ?_, fun r h => ?_⟩
  · obtain ⟨o, hwhole, hshows⟩ := Left.parseWith_whole h
    obtain ⟨ho, hend⟩ := whole_folded hnumbers hrest hwhole
    exact shows_ofNode hshows ho hend
  · rw [Right.rightRecursiveSum_eq] at h
    have hkeeps : (Protocol.peg Right.rightSum (.ofString source)).Keeps (.initial config) :=
      Protocol.keeps_initial config trivial
    obtain ⟨o, hpeg, hshows⟩ := (invoke_peg Right.plain_rightSum config config.maxDepth).shows rfl
      hkeeps ⟨trivial, Nat.zero_le _⟩ rfl h
    obtain ⟨ho, hend⟩ := Right.rule_folded hnumbers hrest hpeg
    rw [Nat.zero_add] at ho
    exact shows_ofNode hshows ho hend

theorem parseWith_folds_three :
    (∀ d ∈ ["12", "3", "45"], Number d.toList) ∧
      (∃ r, (parseWith Sample.leftRecursiveSum { memoization := .all } "12+3+45").outcome = .ok r ∧
        r.tree = .root 0 7 [plus (plus (leaf 0 "12") (leaf 3 "3")) (leaf 5 "45")]) ∧
      ∃ r, (parseWith Sample.rightRecursiveSum { memoization := .all } "12+3+45").outcome = .ok r ∧
        r.tree = .root 0 7 [plus (leaf 0 "12") (plus (leaf 3 "3") (leaf 5 "45"))] := by
  have hnumbers : ∀ d ∈ ["12", "3", "45"], Number d.toList := by
    simp [Number, isDigit]
  obtain ⟨r, h, -⟩ := exists_of_toOption (f := ParseResult.matched) (b := true)
    (x := (parseWith Left.leftSum { memoization := .all } "12+3+45").outcome) (by decide +kernel)
  obtain ⟨r', h', -⟩ := exists_of_toOption (f := ParseResult.matched) (b := true)
    (x := (parseWith Right.rightSum { memoization := .all } "12+3+45").outcome) (by decide +kernel)
  rw [← Left.leftRecursiveSum_eq] at h
  rw [← Right.rightRecursiveSum_eq] at h'
  obtain ⟨hleft, hright⟩ := parseWith_folds "12" ["3", "45"] { memoization := .all } hnumbers
  exact ⟨hnumbers, ⟨r, h, (hleft r h).2⟩, r', h', (hright r' h').2⟩

end Packrat.Sums
