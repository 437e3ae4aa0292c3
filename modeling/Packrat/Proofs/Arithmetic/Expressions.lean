import Packrat.Proofs.Arithmetic.Tokens

/-! # Expressions are sums

    An expression is a number, an expression in parentheses, or two expressions with an operator
    between them, no matter which operators they are made of themselves (`Expression`).  Nothing in
    it says how operations nest.  From left to right it is an atom and then operators with an atom
    behind each (`Operations`), and this is all that the tiers see of it: a product takes the
    operations up to the first that is not of its tier, a sum the rest (`Operations.goesOn`).

    * **`Expression.atom`** — an expression and what goes on behind it, from its first atom on.
    * **`Expression.sum`** — a text that is an expression is found as a sum, all of it. -/

namespace Packrat.Arithmetic

open Sums (rest rest_add isDigit Number)
open LeftRecursive (lexer)

variable {lex : Lexer} {text : Text} {t : Tier} {f f' : Found} {op : String} {p q e : Nat}
variable {s u : List Char}

/-! ## Expressions -/

/-- The operators of both tiers. -/
def operators : List String :=
  ["+", "-", "*", "/"]

/-- Numbers, expressions in parentheses and operations, whatever their operands are. -/
inductive Expression : List Char → Prop where
  | number {x : List Char} : Lexeme.number.Spells x → Expression x
  | group {x s y : List Char} : (Lexeme.mark "(").Spells x → Expression s →
      (Lexeme.mark ")").Spells y → Expression (x ++ (s ++ y))
  | operation {op : String} {s x u : List Char} : op ∈ operators → Expression s →
      (Lexeme.mark op).Spells x → Expression u → Expression (s ++ (x ++ u))

theorem mark_of_operator (hop : op ∈ operators) : op ∈ marks := by
  have hall : ∀ op ∈ operators, op ∈ marks := by decide
  exact hall op hop

/-- Every operator is one of the two of its tier. -/
theorem tier_of_operator (hop : op ∈ operators) : ∃ t : Tier, op = t.first ∨ op = t.second := by
  simp only [operators, List.mem_cons, List.not_mem_nil, or_false] at hop
  rcases hop with rfl | rfl | rfl | rfl
  · exact ⟨.sum, .inl rfl⟩
  · exact ⟨.sum, .inr rfl⟩
  · exact ⟨.product, .inl rfl⟩
  · exact ⟨.product, .inr rfl⟩

theorem operators_of_tier (t : Tier) : t.first ∈ operators ∧ t.second ∈ operators := by
  cases t <;> decide

/-- No blank stands in front of an expression. -/
theorem Expression.notNext (h : Expression s) : NotNext isBlank (s ++ u) := by
  have hspelled : ∀ (x : Lexeme) {chars u : List Char}, x.Spells chars →
      NotNext isBlank (chars ++ u) := by
    intro x chars u hchars
    obtain ⟨c, s, rfl, -, hblank⟩ := hchars.head
    exact notNext_cons.mpr hblank
  induction h generalizing u with
  | number hx => exact hspelled _ hx
  | group hx =>
      rw [List.append_assoc]
      exact hspelled _ hx
  | operation _ _ _ _ ih =>
      rw [List.append_assoc]
      exact ih

/-- A mark may stand behind a number. -/
theorem notNext_mark (h : (Lexeme.mark op).Spells s) :
    NotNext isBlank (s ++ u) ∧ NotNext isDigit (s ++ u) := by
  obtain ⟨d, hd, -, hdigit⟩ := toList_mark h.1
  obtain ⟨c, s, rfl, hbegins, hblank⟩ := h.head
  rw [Lexeme.begins, beq_iff_eq, hd] at hbegins
  cases hbegins
  exact ⟨notNext_cons.mpr hblank, notNext_cons.mpr hdigit⟩

/-! ## Operations one after another -/

/-- Operators with an atom behind each, from a position to one where no operator is found. -/
inductive Operations (lex : Lexer) (text : Text) : Nat → Nat → Prop where
  | stop {p : Nat} : (∀ op ∈ operators, lex (.mark op) p none) → Operations lex text p p
  | next {p e : Nat} {op : String} {f f' : Found} : op ∈ operators → lex (.mark op) p (some f) →
      (∀ op' ∈ operators, op' ≠ op → lex (.mark op') p none) →
      Arith lex text .atom f.stop (some f') → Operations lex text f'.stop e →
      Operations lex text p e

/-- From whatever ends at a position, the tier grows up to another. -/
def GoesOn (lex : Lexer) (text : Text) (t : Tier) (p e : Nat) : Prop :=
  ∀ left b, left.stop = p → ∃ f, Arith lex text (.grown t left) b (some f) ∧ f.stop = e

/-- Without an operator of its own, a tier stays where it is. -/
theorem goesOn_self (hfirst : lex (.mark t.first) p none) (hsecond : lex (.mark t.second) p none) :
    GoesOn lex text t p p := by
  rintro left b rfl
  exact ⟨left, .grown (.no_operator hfirst) (.no_operator hsecond), rfl⟩

/-- A tier goes on over an operation of its own. -/
theorem GoesOn.over (h : GoesOn lex text t f'.stop e) (hop : op = t.first ∨ op = t.second)
    (hfound : lex (.mark op) p (some f))
    (hother : ∀ op' ∈ operators, op' ≠ op → lex (.mark op') p none)
    (hoperand : Arith lex text t.operand f.stop (some f')) : GoesOn lex text t p e := by
  rintro left b rfl
  obtain ⟨g, hgrown, hstop⟩ :=
    h (wrapped text op b (left.append (f.append (f'.append (.nothing f'.stop))))) b rfl
  rcases hop with rfl | rfl
  · exact ⟨g, .grown_first (.operation hfound hoperand) hgrown, hstop⟩
  · have hne : t.first ≠ t.second := by cases t <;> decide
    have hmissed := hother t.first (operators_of_tier t).1 hne
    exact ⟨g, .grown_second (.no_operator hmissed) (.operation hfound hoperand) hgrown, hstop⟩

theorem tier_of_goesOn (hoperand : Arith lex text t.operand p (some f))
    (h : GoesOn lex text t f.stop e) :
    ∃ f', Arith lex text (.tier t) p (some f') ∧ f'.stop = e := by
  obtain ⟨f', hgrown, hstop⟩ := h f p rfl
  exact ⟨f', .tier hoperand hgrown, hstop⟩

/-- A product goes on to some position, and from there a sum goes on to the end. -/
theorem Operations.goesOn (h : Operations lex text p e) :
    ∃ q, GoesOn lex text .product p q ∧ GoesOn lex text .sum q e := by
  induction h with
  | stop hnone =>
      have hself : ∀ t : Tier, GoesOn lex text t _ _ := fun t =>
        goesOn_self (hnone _ (operators_of_tier t).1) (hnone _ (operators_of_tier t).2)
      exact ⟨_, hself .product, hself .sum⟩
  | @next p e op f f' hop hfound hother hatom _ ih =>
      obtain ⟨q, hproduct, hsum⟩ := ih
      obtain ⟨t, htier⟩ := tier_of_operator hop
      cases t with
      | product => exact ⟨q, hproduct.over htier hfound hother hatom, hsum⟩
      | sum =>
          -- the product ends here, and the operand of the sum is the product that begins behind
          have hmissed : ∀ op' ∈ ["*", "/"], lex (.mark op') p none := by
            intro op' hop'
            refine hother op' ?_ ?_
            · exact List.mem_append_right ["+", "-"] hop'
            · rintro rfl
              rcases htier with rfl | rfl <;> exact absurd hop' (by decide)
          obtain ⟨f'', hoperand, rfl⟩ := tier_of_goesOn hatom hproduct
          exact ⟨p, goesOn_self (hmissed _ (by decide)) (hmissed _ (by decide)),
            hsum.over htier hfound hother hoperand⟩

/-- An atom and the operations behind it are a sum. -/
theorem Operations.sum (h : Operations lex text f.stop e)
    (hatom : Arith lex text .atom p (some f)) : ∃ f', Arith lex text (.tier .sum) p (some f') ∧ f'.stop = e := by
  obtain ⟨q, hproduct, hsum⟩ := h.goesOn
  obtain ⟨f', hoperand, rfl⟩ := tier_of_goesOn hatom hproduct
  exact tier_of_goesOn hoperand hsum

/-! ## Expressions from their first atom on -/

/-- Behind an expression that stands at a position, operations go on to an end.  Then an atom stands
    at the position, and operations go on behind it to the same end. -/
theorem Expression.atom (h : Expression s) (hblank : NotNext isBlank u) (hdigit : NotNext isDigit u)
    (hrest : rest text p = s ++ u) (hbehind : Operations (lexer text) text (p + s.length) e) :
    ∃ f, Arith (lexer text) text .atom p (some f) ∧ Operations (lexer text) text f.stop e := by
  induction h generalizing p u e with
  | number hx =>
      obtain ⟨f, hfound, hstop⟩ := lexer_found hx hblank (fun _ => hdigit) hrest
      exact ⟨f, .number hfound, hstop ▸ hbehind⟩
  | @group x s y hx hs hy ih =>
      rw [List.append_assoc, List.append_assoc] at hrest
      obtain ⟨f, hopened, hstop⟩ := lexer_found hx hs.notNext nofun hrest
      have hinner : rest text f.stop = s ++ (y ++ u) := hstop ▸ rest_add hrest
      have hclosing : rest text (f.stop + s.length) = y ++ u := rest_add hinner
      -- at the closing parenthesis there is no operator
      have hends : Operations (lexer text) text (f.stop + s.length) (f.stop + s.length) := by
        refine .stop fun op hop => lexer_other hy hclosing ?_ (mark_of_operator hop)
        rintro ⟨⟩
        exact absurd hop (by decide)
      obtain ⟨g, hatom, hoperations⟩ :=
        ih (notNext_mark hy).1 (notNext_mark hy).2 hinner hends
      obtain ⟨g', hsum, hstop'⟩ := hoperations.sum hatom
      obtain ⟨f', hclosed, hstop''⟩ := lexer_found hy hblank nofun (hstop' ▸ hclosing)
      have hnumber : lexer text .number p none := lexer_other hx hrest nofun trivial
      refine ⟨_, .atom hnumber (.parenthesized hopened hsum hclosed), ?_⟩
      have hend : f'.stop = p + (x ++ (s ++ y)).length := by
        rw [hstop'', hstop', hstop, List.length_append, List.length_append]
        omega
      exact hend ▸ hbehind
  | @operation op s x v hop _ hx hv ihs ihv =>
      rw [List.append_assoc, List.append_assoc] at hrest
      have hsign : rest text (p + s.length) = x ++ (v ++ u) := rest_add hrest
      obtain ⟨f, hfound, hstop⟩ := lexer_found hx hv.notNext nofun hsign
      have hright : rest text f.stop = v ++ u := hstop ▸ rest_add hsign
      have hend : p + (s ++ (x ++ v)).length = f.stop + v.length := by
        rw [hstop, List.length_append, List.length_append]
        omega
      obtain ⟨f', hatom, hoperations⟩ := ihv hblank hdigit hright (hend ▸ hbehind)
      have hother : ∀ op' ∈ operators, op' ≠ op → lexer text (.mark op') (p + s.length) none := by
        intro op' hop' hne
        exact lexer_other hx hsign (fun hsame => hne (Lexeme.mark.inj hsame))
          (mark_of_operator hop')
      exact ihs (notNext_mark hx).1 (notNext_mark hx).2 hrest
        (.next hop hfound hother hatom hoperations)

/-- A text that is an expression is found as a sum, all of it. -/
theorem Expression.sum {source : String} (h : Expression source.toList) :
    ∃ f, Arith (lexer (.ofString source)) (.ofString source) (.tier .sum) 0 (some f) ∧
      f.stop = (Text.ofString source).length := by
  have hrest : rest (.ofString source) 0 = source.toList ++ [] := (List.append_nil _).symm
  have hlength : (Text.ofString source).length = 0 + source.toList.length := by
    rw [Nat.zero_add]
    rfl
  have hends : Operations (lexer (.ofString source)) (.ofString source)
      (0 + source.toList.length) (0 + source.toList.length) := by
    refine .stop fun op hop => lexer_missed (mark_of_operator hop) ?_
    rw [rest_add hrest]
    exact notNext_nil
  obtain ⟨f, hatom, hoperations⟩ := h.atom notNext_nil notNext_nil hrest hends
  rw [hlength]
  exact hoperations.sum hatom

end Packrat.Arithmetic
