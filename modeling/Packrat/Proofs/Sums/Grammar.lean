import Mathlib
import Packrat.Proofs.Sums.Tokens
import Packrat.Sample.Grammars

/-! # The grammar of sums

    The grammar as it is prepared, node by node, with a left-associative boundary; what its tokens
    find, as far as the characters at a position go; and the trees that its captures are to make. -/

namespace Packrat.Sums

/-! ## The grammar -/

/-- The grammar of sums in parentheses. -/
def grouped : Grammar :=
  { nodes := #[.ofShape (.reference "E"), .ofShape (.literal "+"), .ofShape (.token 1),
      .ofShape (.reference "E"), .ofShape (.sequence [16, 2, 16]),
      .ofShape (.capture 4 (.node "+")), .ofShape (.literal "("), .ofShape (.token 6),
      .ofShape (.reference "E"), .ofShape (.literal ")"), .ofShape (.token 9),
      .ofShape (.sequence [7, 16, 10]), .ofShape (.range '0' '9'), .ofShape (.oneMore 12),
      .ofShape (.capture 13 (.text "num")), .ofShape (.token 14),
      { name := some "E", shape := .leftRecursive 17 true, flags := .rule },
      .ofShape (.choice [5, 11, 15])]
    rules := [("E", 16)]
    root := some 16
    prepared := true }

set_option maxRecDepth 10000 in
/-- The prepared sums, node by node. -/
theorem ambiguousSum_eq : Sample.ambiguousSum = grouped := by
  cbv

/-- Nothing is nullable. -/
def groupedNullability : Nullability :=
  ⟨Array.replicate 18 false⟩

set_option maxRecDepth 10000 in
theorem nullability_grouped : grouped.nullability = .ok groupedNullability := by
  cbv

/-- The rule. -/
@[match_pattern] abbrev boundary : ExprId := 16

@[match_pattern] abbrev alternatives : ExprId := 17

/-- An operation on the seed. -/
@[match_pattern] abbrev sum : ExprId := 5

/-- The items of an operation. -/
@[match_pattern] abbrev items : ExprId := 4

/-- The rule in parentheses. -/
@[match_pattern] abbrev parenthesized : ExprId := 11

abbrev number : ExprId := 15

/-- What an expression of the grammar is for, if it is no token and not below one. -/
inductive Role where
  | boundary
  | alternatives
  | operation
  | items
  | group
deriving DecidableEq

def role : ExprId → Option Role
  | boundary => some .boundary
  | alternatives => some .alternatives
  | sum => some .operation
  | items => some .items
  | parenthesized => some .group
  | _ => none

/-- The expression of a role. -/
def Role.expr : Role → ExprId
  | .boundary => Sums.boundary
  | .alternatives => Sums.alternatives
  | .operation => sum
  | .items => Sums.items
  | .group => parenthesized

/-- Each role is played by one node. -/
theorem id_of_role {id : ExprId} {r : Role} (h : role id = some r) : id = r.expr := by
  unfold role at h
  split at h <;> cases h <;> rfl

/-- Tokens and what is below them follow the rules. -/
theorem plain_grouped : Plain grouped groupedNullability fun id => role id = none :=
  plain_of_solid nullability_grouped (by decide) (by rintro ws ⟨⟩)

/-! ## Tokens -/

variable {text : Text} {p q : Nat} {o : Option Found} {f : Found} {c : Char}

/-- The token of a sign. -/
def sign : Char → ExprId
  | '+' => 2
  | '(' => 7
  | _ => 10

theorem isSign_sign (hc : c = '+' ∨ c = '(' ∨ c = ')') : IsSign grouped (sign c) c := by
  rcases hc with rfl | rfl | rfl
  · exact ⟨rfl, 1, "+", rfl, rfl, by decide⟩
  · exact ⟨rfl, 6, "(", rfl, rfl, by decide⟩
  · exact ⟨rfl, 9, ")", rfl, rfl, by decide⟩

/-- A sign that fails is not the next character. -/
theorem sign_missed (hc : c = '+' ∨ c = '(' ∨ c = ')') (h : PegAt grouped text (sign c) p none) :
    (rest text p).head? ≠ some c :=
  (isSign_sign hc).missed h

/-- A sign that matches is the next character, and captures nothing. -/
theorem sign_met (hc : c = '+' ∨ c = '(' ∨ c = ')') (h : PegAt grouped text (sign c) p (some f)) :
    f = .nothing (p + 1) ∧ rest text p = c :: rest text (p + 1) :=
  (isSign_sign hc).met h

theorem isNumber_number : IsNumber grouped number :=
  ⟨rfl, 14, 13, 12, rfl, rfl, rfl, rfl⟩

/-! ## Trees -/

/-- A node and what is below it. -/
inductive Contains : CaptureNode → CaptureNode → Prop where
  | self (n : CaptureNode) : Contains n n
  | inside {n child d : CaptureNode} : child ∈ n.children → Contains child d → Contains n d

/-- The node of an operation. -/
def IsPlus (n : CaptureNode) : Prop :=
  n.accessor = some "+"

/-- The node stands in parentheses. -/
def InParentheses (text : Text) (n : CaptureNode) : Prop :=
  0 < n.start ∧ text.at? (n.start - 1) = some '(' ∧ text.at? n.stop = some ')'

/-- Two operands, of which the right is no operation outside parentheses. -/
def NestsLeft (text : Text) (n : CaptureNode) : Prop :=
  ∃ l r, n.children = [l, r] ∧ (IsPlus r → InParentheses text r)

/-- Every operation below a node nests to the left. -/
def Nested (text : Text) (n : CaptureNode) : Prop :=
  ∀ d, Contains n d → IsPlus d → NestsLeft text d

/-- A node nests as its children do, if it nests to the left itself. -/
theorem nested_of_children {n : CaptureNode} (hself : IsPlus n → NestsLeft text n)
    (hchildren : ∀ child ∈ n.children, Nested text child) : Nested text n := by
  intro d hcontains hplus
  cases hcontains with
  | self => exact hself hplus
  | inside hchild hbelow => exact hchildren _ hchild d hbelow hplus

/-- One node was captured.  If it is an operation it stands in parentheses, unless it is all that
    was found and that is allowed. -/
def Single (text : Text) (p : Nat) (whole : Bool) (f : Found) : Prop :=
  ∃ n, f.nodes = [n] ∧ Nested text n ∧
    (IsPlus n → InParentheses text n ∨ whole = true ∧ n.start = p ∧ n.stop = f.stop)

/-- What is a single operand under a bar is one without it. -/
theorem Single.weaken {b b' : Bool} (h : Single text p b f) (hb : b = true → b' = true) :
    Single text p b' f := by
  obtain ⟨n, hnodes, hnested, hplus⟩ := h
  exact ⟨n, hnodes, hnested, fun hn => (hplus hn).imp_right fun hwhole => ⟨hb hwhole.1, hwhole.2⟩⟩

/-- A leaf is no operation. -/
theorem single_leaf {n : CaptureNode} (hnodes : f.nodes = [n]) (hname : n.accessor = some "num")
    (hleaf : n.children = []) : Single text p false f := by
  have hno : ¬ IsPlus n := by
    rw [IsPlus, hname]
    decide
  refine ⟨n, hnodes, nested_of_children (fun hplus => absurd hplus hno) ?_, fun h => absurd h hno⟩
  rw [hleaf]
  rintro child ⟨⟩

/-- What was found between parentheses stands in parentheses. -/
theorem Single.enclosed (h : Single text (p + 1) true f) (hopen : text.at? p = some '(')
    (hclose : text.at? f.stop = some ')') {f' : Found} (hnodes : f'.nodes = f.nodes) :
    Single text p false f' := by
  obtain ⟨n, hn, hnested, hplus⟩ := h
  refine ⟨n, hnodes.trans hn, hnested, fun hisplus => Or.inl ?_⟩
  rcases hplus hisplus with henclosed | ⟨-, hstart, hstop⟩
  · exact henclosed
  · rw [InParentheses, hstart, hstop]
    exact ⟨Nat.succ_pos p, hopen, hclose⟩

/-- An operation on what was found before and a right operand. -/
theorem single_wrapped {f f' : Found} {q : Nat} (hleft : Single text p true f)
    (hright : Single text q false f') (stop : Nat) :
    Single text p true { stop, nodes :=
      (CaptureMode.node "+").close text p { stop, nodes := f.nodes ++ f'.nodes } } := by
  obtain ⟨l, hl, hnestedl, -⟩ := hleft
  obtain ⟨r, hr, hnestedr, hplusr⟩ := hright
  refine ⟨_, rfl, nested_of_children (fun _ => ⟨l, r, by rw [hl, hr]; rfl, ?_⟩) ?_,
    fun _ => Or.inr ⟨rfl, rfl, rfl⟩⟩
  · intro hisplus
    exact (hplusr hisplus).resolve_right fun hwhole => Bool.noConfusion hwhole.1
  · rw [hl, hr]
    intro child hchild
    rcases List.mem_cons.mp hchild with rfl | hchild
    · exact hnestedl
    · rw [List.mem_singleton.mp hchild]
      exact hnestedr

end Packrat.Sums
