import Packrat.Proofs.Nullable.Search
import Packrat.Proofs.Protocol.Positions

/-! # Parsing expressions by their rules

    The big-step semantics of parsing expressions, on the graph of a grammar: which shape finds what
    at which position.  There is a rule for every way in which a plain shape can end, and none for a
    boundary, a custom expression or a name.

    The rules leave no choice: a shape finds one thing at most (`Peg.unique`).  What it finds ends in
    the text, and not where it began unless the shape is nullable (`Peg.bounds`). -/

namespace Packrat

/-- The shape finds an outcome at a position of the text. -/
inductive Peg (g : Grammar) (text : Text) : Shape ExprId → Nat → Option Found → Prop where
  -- characters
  | literal {l : String} {p : Nat} : l.toList <+: text.chars.toList.drop p →
      Peg g text (.literal l) p (some (.nothing (p + l.length)))
  | literal_fail {l : String} {p : Nat} : ¬ l.toList <+: text.chars.toList.drop p →
      Peg g text (.literal l) p none
  | any {c : Char} {p : Nat} : text.at? p = some c →
      Peg g text .any p (some (.nothing (p + 1)))
  | any_fail {p : Nat} : text.at? p = none → Peg g text .any p none
  | range {lo hi c : Char} {p : Nat} : text.at? p = some c → lo ≤ c → c ≤ hi →
      Peg g text (.range lo hi) p (some (.nothing (p + 1)))
  | range_fail {lo hi : Char} {p : Nat} : (∀ c, text.at? p = some c → ¬ (lo ≤ c ∧ c ≤ hi)) →
      Peg g text (.range lo hi) p none
  | set {members : List Char} {c : Char} {p : Nat} : text.at? p = some c → c ∈ members →
      Peg g text (.set members) p (some (.nothing (p + 1)))
  | set_fail {members : List Char} {p : Nat} : (∀ c, text.at? p = some c → c ∉ members) →
      Peg g text (.set members) p none
  -- one after the other
  | sequence_nil {p : Nat} : Peg g text (.sequence []) p (some (.nothing p))
  | sequence_fail {item : ExprId} {rest : List ExprId} {s : Shape ExprId} {p : Nat} :
      g.shape? item = some s → Peg g text s p none → Peg g text (.sequence (item :: rest)) p none
  | sequence_next {item : ExprId} {rest : List ExprId} {s : Shape ExprId} {p : Nat} {f : Found}
      {o : Option Found} : g.shape? item = some s → Peg g text s p (some f) →
      Peg g text (.sequence rest) f.stop o →
      Peg g text (.sequence (item :: rest)) p (o.map f.append)
  -- ordered choice
  | choice_nil {p : Nat} : Peg g text (.choice []) p none
  | choice_here {item : ExprId} {rest : List ExprId} {s : Shape ExprId} {p : Nat} {f : Found} :
      g.shape? item = some s → Peg g text s p (some f) →
      Peg g text (.choice (item :: rest)) p (some f)
  | choice_next {item : ExprId} {rest : List ExprId} {s : Shape ExprId} {p : Nat}
      {o : Option Found} : g.shape? item = some s → Peg g text s p none →
      Peg g text (.choice rest) p o → Peg g text (.choice (item :: rest)) p o
  -- greedy repetition
  | optional {e : ExprId} {s : Shape ExprId} {p : Nat} {o : Option Found} :
      g.shape? e = some s → Peg g text s p o →
      Peg g text (.optional e) p (some (o.getD (.nothing p)))
  | zeroMore_end {e : ExprId} {s : Shape ExprId} {p : Nat} :
      g.shape? e = some s → Peg g text s p none → Peg g text (.zeroMore e) p (some (.nothing p))
  | zeroMore_next {e : ExprId} {s : Shape ExprId} {p : Nat} {f f' : Found} :
      g.shape? e = some s → Peg g text s p (some f) →
      Peg g text (.zeroMore e) f.stop (some f') → Peg g text (.zeroMore e) p (some (f.append f'))
  | oneMore_fail {e : ExprId} {s : Shape ExprId} {p : Nat} :
      g.shape? e = some s → Peg g text s p none → Peg g text (.oneMore e) p none
  | oneMore {e : ExprId} {s : Shape ExprId} {p : Nat} {f f' : Found} :
      g.shape? e = some s → Peg g text s p (some f) →
      Peg g text (.zeroMore e) f.stop (some f') → Peg g text (.oneMore e) p (some (f.append f'))
  -- predicates
  | lookahead {e : ExprId} {s : Shape ExprId} {p : Nat} {o : Option Found} :
      g.shape? e = some s → Peg g text s p o →
      Peg g text (.lookahead e) p (o.map fun _ => .nothing p)
  | not {e : ExprId} {s : Shape ExprId} {p : Nat} :
      g.shape? e = some s → Peg g text s p none → Peg g text (.not e) p (some (.nothing p))
  | not_fail {e : ExprId} {s : Shape ExprId} {p : Nat} {f : Found} :
      g.shape? e = some s → Peg g text s p (some f) → Peg g text (.not e) p none
  -- tokens
  | token_fail {e : ExprId} {s : Shape ExprId} {p : Nat} :
      g.shape? e = some s → Peg g text s p none → Peg g text (.token e) p none
  | token_bare {e : ExprId} {s : Shape ExprId} {p : Nat} {f : Found} : g.whitespace = none →
      g.shape? e = some s → Peg g text s p (some f) → Peg g text (.token e) p (some f)
  | token {e ws : ExprId} {s t : Shape ExprId} {p : Nat} {f : Found} {o : Option Found} :
      g.whitespace = some ws → g.shape? e = some s → Peg g text s p (some f) →
      g.shape? ws = some t → Peg g text t f.stop o →
      Peg g text (.token e) p (some { f with stop := (o.map Found.stop).getD f.stop })
  -- decorations
  | capture {e : ExprId} {s : Shape ExprId} {p : Nat} {o : Option Found} (mode : CaptureMode) :
      g.shape? e = some s → Peg g text s p o →
      Peg g text (.capture e mode) p (o.map fun f => { f with nodes := mode.close text p f })
  | minPrecedence {e : ExprId} {s : Shape ExprId} {p : Nat} {o : Option Found}
      (floor : Precedence) : g.shape? e = some s → Peg g text s p o →
      Peg g text (.minPrecedence e floor) p o

/-- The expression finds an outcome at a position of the text. -/
def PegAt (g : Grammar) (text : Text) (id : ExprId) (p : Nat) (o : Option Found) : Prop :=
  ∃ s, g.shape? id = some s ∧ Peg g text s p o

variable {g : Grammar} {text : Text} {s t : Shape ExprId} {id : ExprId} {p : Nat}
variable {o o' : Option Found} {f : Found}

/-! ## One outcome -/

/-- A shape finds one thing at a position. -/
theorem Peg.unique (h : Peg g text s p o) (h' : Peg g text s p o') : o = o' := by
  have same : ∀ {i : ExprId} {s t : Shape ExprId}, g.shape? i = some s → g.shape? i = some t →
      s = t := fun hs ht => Option.some.inj (hs.symm.trans ht)
  induction h generalizing o' with
  | literal hl =>
      cases h' with
      | literal => rfl
      | literal_fail hl' => exact absurd hl hl'
  | literal_fail hl =>
      cases h' with
      | literal hl' => exact absurd hl' hl
      | literal_fail => rfl
  | any hc =>
      cases h' with
      | any => rfl
      | any_fail hc' => cases hc.symm.trans hc'
  | any_fail hc =>
      cases h' with
      | any hc' => cases hc.symm.trans hc'
      | any_fail => rfl
  | range hc hlo hhi =>
      cases h' with
      | range => rfl
      | range_fail hno => exact absurd ⟨hlo, hhi⟩ (hno _ hc)
  | range_fail hno =>
      cases h' with
      | range hc hlo hhi => exact absurd ⟨hlo, hhi⟩ (hno _ hc)
      | range_fail => rfl
  | set hc hmem =>
      cases h' with
      | set => rfl
      | set_fail hno => exact absurd hmem (hno _ hc)
  | set_fail hno =>
      cases h' with
      | set hc hmem => exact absurd hmem (hno _ hc)
      | set_fail => rfl
  | sequence_nil =>
      cases h'
      rfl
  | sequence_fail hs _ ih =>
      cases h' with
      | sequence_fail => rfl
      | sequence_next hs' h' _ =>
          obtain rfl := same hs hs'
          cases ih h'
  | sequence_next hs _ _ ih ihrest =>
      cases h' with
      | sequence_fail hs' h' =>
          obtain rfl := same hs hs'
          cases ih h'
      | sequence_next hs' h' hrest' =>
          obtain rfl := same hs hs'
          cases ih h'
          rw [ihrest hrest']
  | choice_nil =>
      cases h'
      rfl
  | choice_here hs _ ih =>
      cases h' with
      | choice_here hs' h' =>
          obtain rfl := same hs hs'
          exact ih h'
      | choice_next hs' h' _ =>
          obtain rfl := same hs hs'
          cases ih h'
  | choice_next hs _ _ ih ihrest =>
      cases h' with
      | choice_here hs' h' =>
          obtain rfl := same hs hs'
          cases ih h'
      | choice_next hs' h' hrest' => exact ihrest hrest'
  | optional hs _ ih =>
      cases h' with
      | optional hs' h' =>
          obtain rfl := same hs hs'
          rw [ih h']
  | zeroMore_end hs _ ih =>
      cases h' with
      | zeroMore_end => rfl
      | zeroMore_next hs' h' _ =>
          obtain rfl := same hs hs'
          cases ih h'
  | zeroMore_next hs _ _ ih ihrest =>
      cases h' with
      | zeroMore_end hs' h' =>
          obtain rfl := same hs hs'
          cases ih h'
      | zeroMore_next hs' h' hrest' =>
          obtain rfl := same hs hs'
          cases ih h'
          cases ihrest hrest'
          rfl
  | oneMore_fail hs _ ih =>
      cases h' with
      | oneMore_fail => rfl
      | oneMore hs' h' _ =>
          obtain rfl := same hs hs'
          cases ih h'
  | oneMore hs _ _ ih ihrest =>
      cases h' with
      | oneMore_fail hs' h' =>
          obtain rfl := same hs hs'
          cases ih h'
      | oneMore hs' h' hrest' =>
          obtain rfl := same hs hs'
          cases ih h'
          cases ihrest hrest'
          rfl
  | lookahead hs _ ih =>
      cases h' with
      | lookahead hs' h' =>
          obtain rfl := same hs hs'
          rw [ih h']
  | not hs _ ih =>
      cases h' with
      | not => rfl
      | not_fail hs' h' =>
          obtain rfl := same hs hs'
          cases ih h'
  | not_fail hs _ ih =>
      cases h' with
      | not hs' h' =>
          obtain rfl := same hs hs'
          cases ih h'
      | not_fail => rfl
  | token_fail hs _ ih =>
      cases h' with
      | token_fail => rfl
      | token_bare _ hs' h' =>
          obtain rfl := same hs hs'
          cases ih h'
      | token _ hs' h' _ _ =>
          obtain rfl := same hs hs'
          cases ih h'
  | token_bare hws hs _ ih =>
      cases h' with
      | token_fail hs' h' =>
          obtain rfl := same hs hs'
          cases ih h'
      | token_bare _ hs' h' =>
          obtain rfl := same hs hs'
          exact ih h'
      | token hws' _ _ _ _ => cases hws.symm.trans hws'
  | token hws hs _ ht _ ih ihws =>
      cases h' with
      | token_fail hs' h' =>
          obtain rfl := same hs hs'
          cases ih h'
      | token_bare hws' _ _ => cases hws.symm.trans hws'
      | token hws' hs' h' ht' hblank' =>
          obtain rfl := same hs hs'
          cases ih h'
          cases hws.symm.trans hws'
          obtain rfl := same ht ht'
          rw [ihws hblank']
  | capture mode hs _ ih =>
      cases h' with
      | capture _ hs' h' =>
          obtain rfl := same hs hs'
          rw [ih h']
  | minPrecedence floor hs _ ih =>
      cases h' with
      | minPrecedence _ hs' h' =>
          obtain rfl := same hs hs'
          exact ih h'

/-- A node has one outcome at a position: by induction on a derivation, the other is inverted. -/
theorem PegAt.unique (h : PegAt g text id p o) (h' : PegAt g text id p o') : o = o' := by
  obtain ⟨s, hs, h⟩ := h
  obtain ⟨t, ht, h'⟩ := h'
  obtain rfl : s = t := Option.some.inj (hs.symm.trans ht)
  exact h.unique h'

/-! ## Positions -/

/-- A literal that is met ends within the text. -/
theorem length_of_prefix_drop {l : String} (hp : p ≤ text.length)
    (h : l.toList <+: text.chars.toList.drop p) : p + l.length ≤ text.length := by
  have hle := h.length_le
  simp only [List.length_drop, Array.length_toList, String.length_toList] at hle
  have hsize : text.chars.size = text.length := rfl
  omega

theorem lt_length_of_at? {c : Char} (h : text.at? p = some c) : p < text.length :=
  (Array.getElem?_eq_some_iff.mp h).1

/-- What a shape finds ends in the text, and where it began only if the shape is nullable. -/
theorem Peg.bounds {nullable : ExprId → Bool} (hsolves : g.Solves nullable) (h : Peg g text s p o)
    (hp : p ≤ text.length) (ho : o = some f) :
    f.Within text p (s.strategy.holds nullable) := by
  -- what is nullable below is what its own rule says
  have below : ∀ {i : ExprId} {s : Shape ExprId}, g.shape? i = some s →
      s.strategy.holds nullable = nullable i := fun hs => (hsolves hs).symm
  have one : ∀ {c : Char} {p : Nat} {b : Bool}, text.at? p = some c →
      Found.Within text p b (.nothing (p + 1)) := by
    intro c p b hc
    have hlt := lt_length_of_at? hc
    exact ⟨Nat.le_succ p, hlt, fun heq => absurd heq (by simp)⟩
  induction h generalizing f with
  | @literal l p hl =>
      cases ho
      refine ⟨Nat.le_add_right p _, length_of_prefix_drop hp hl, ?_⟩
      intro heq
      have hempty : l = "" := by
        have hzero : l.length = 0 := by simpa using heq
        exact String.length_eq_zero_iff.mp hzero
      simp [Shape.strategy, Strategy.holds, hempty]
  | any hc =>
      cases ho
      exact one hc
  | range hc _ _ =>
      cases ho
      exact one hc
  | set hc _ =>
      cases ho
      exact one hc
  | literal_fail | any_fail | range_fail | set_fail | sequence_fail | choice_nil | oneMore_fail
  | not_fail | token_fail => cases ho
  | sequence_nil | zeroMore_end | not =>
      cases ho
      exact .nothing hp
  | sequence_next hs _ _ ih ihrest =>
      obtain ⟨f', rfl, rfl⟩ := Option.map_eq_some_iff.mp ho
      have hfirst := ih hp rfl
      rw [below hs] at hfirst
      exact hfirst.append (ihrest hfirst.stop rfl)
  | choice_here hs _ ih =>
      refine (ih hp ho).imp ?_
      intro hnullable
      rw [below hs] at hnullable
      simp only [Shape.strategy, Strategy.holds, List.any_cons, hnullable, Bool.true_or]
  | choice_next _ _ _ _ ihrest =>
      refine (ihrest hp ho).imp ?_
      intro hnullable
      simp only [Shape.strategy, Strategy.holds] at hnullable
      simp only [Shape.strategy, Strategy.holds, List.any_cons, hnullable, Bool.or_true]
  | @optional e s p o hs _ ih =>
      cases ho
      cases o with
      | none => exact .nothing hp
      | some f' => exact (ih hp rfl).imp fun _ => rfl
  | zeroMore_next _ _ _ ih ihrest =>
      cases ho
      have hfirst := ih hp rfl
      exact (hfirst.append (ihrest hfirst.stop rfl)).imp fun _ => rfl
  | oneMore hs _ _ ih ihrest =>
      cases ho
      have hfirst := ih hp rfl
      refine (hfirst.append (ihrest hfirst.stop rfl)).imp ?_
      intro hnullable
      exact (below hs).symm.trans (Bool.and_eq_true_iff.mp hnullable).1
  | lookahead =>
      obtain ⟨f', rfl, rfl⟩ := Option.map_eq_some_iff.mp ho
      exact .nothing hp
  | token_bare _ hs _ ih => exact (ih hp ho).imp (below hs).symm.trans
  | @token e ws s t p f₁ o _ hs _ _ _ ih ihws =>
      cases ho
      have hfound := (ih hp rfl).imp (below hs).symm.trans
      cases o with
      | none => exact hfound
      | some f₂ =>
          refine (Found.Within.append hfound (ihws hfound.stop rfl)).withNodes _ |>.imp ?_
          exact fun hnullable => (Bool.and_eq_true_iff.mp hnullable).1
  | capture mode hs _ ih =>
      obtain ⟨f', rfl, rfl⟩ := Option.map_eq_some_iff.mp ho
      exact ((ih hp rfl).withNodes _).imp (below hs).symm.trans
  | minPrecedence floor hs _ ih => exact (ih hp ho).imp (below hs).symm.trans

/-- A match ends within the text, and in place only if the node is nullable. -/
theorem PegAt.bounds {n : Nullability} (hn : g.nullability = .ok n)
    (h : PegAt g text id p (some f)) (hp : p ≤ text.length) :
    f.Within text p (n.isNullable id) := by
  obtain ⟨s, hs, h⟩ := h
  rw [Grammar.nullability_holds hn hs]
  exact h.bounds (Grammar.solves_nullability hn) hp rfl

end Packrat
