import Packrat.Analysis.FastPath
import Packrat.Proofs.Peg.Semantics
import Packrat.Proofs.Transparency.Invocation
import Packrat.Proofs.WalkReach

/-! # Skipping follows the rules

    Whitespace is skipped by a match of its own, which keeps positions only.  An expression of which
    every part has a fast path is skipped to where the rules say that it ends, provided that
    nothing nullable is repeated. -/

namespace Packrat

open Relation

variable {g : Grammar} {text : Text} {n : Nullability} {p : Nat}

/-! ## Characters -/

namespace Text

theorem drop_of_at?_none (h : text.at? p = none) : text.chars.toList.drop p = [] := by
  have hle : text.chars.size ≤ p := by simpa [at?] using h
  exact List.drop_eq_nil_of_le hle

theorem drop_of_at?_some {c : Char} (h : text.at? p = some c) :
    text.chars.toList.drop p = c :: text.chars.toList.drop (p + 1) := by
  obtain ⟨hlt, rfl⟩ := Array.getElem?_eq_some_iff.mp h
  exact List.drop_eq_getElem_cons hlt

/-- A slice holds the characters between its ends. -/
theorem toList_slice (text : Text) (start stop : Nat) :
    (text.slice start stop).toList = (text.chars.toList.take stop).drop start := by
  rw [slice, String.toList_ofList, Array.toList_extract, List.extract_eq_take_drop,
    List.drop_take]

/-- A literal is met where the rest of the text begins with it. -/
theorem matchChars_eq (text : Text) (cs : List Char) (p : Nat) :
    text.matchChars cs p =
      if cs <+: text.chars.toList.drop p then some (p + cs.length) else none := by
  induction cs generalizing p with
  | nil => simp [matchChars]
  | cons c cs ih =>
      rw [matchChars, ih (p + 1)]
      cases hc : text.at? p with
      | none => simp [drop_of_at?_none hc]
      | some d =>
          rw [drop_of_at?_some hc]
          by_cases hd : d = c
          · have hlength : p + 1 + cs.length = p + (cs.length + 1) := by omega
            simp [hd, List.cons_prefix_cons, hlength]
          · simp [hd, Ne.symm hd, List.cons_prefix_cons]

end Text

/-- A literal found by the text. -/
theorem peg_literal (g : Grammar) (text : Text) (l : String) (p : Nat) :
    Peg g text (.literal l) p ((text.matchLiteral p l).map Found.nothing) := by
  rw [Text.matchLiteral, Text.matchChars_eq]
  split
  · rename_i h
    rw [String.length_toList]
    exact .literal h
  · rename_i h
    exact .literal_fail h

/-- Any character is matched by the semantics as by the text. -/
theorem peg_any (g : Grammar) (text : Text) (p : Nat) :
    Peg g text .any p ((text.matchOne p fun _ => true).map Found.nothing) := by
  rw [Text.matchOne]
  cases hc : text.at? p with
  | none => exact .any_fail hc
  | some c => exact .any hc

/-- So is a range. -/
theorem peg_range (g : Grammar) (text : Text) (lo hi : Char) (p : Nat) :
    Peg g text (.range lo hi) p
      ((text.matchOne p fun c => lo ≤ c && c ≤ hi).map Found.nothing) := by
  rw [Text.matchOne]
  cases hc : text.at? p with
  | none =>
      refine .range_fail ?_
      intro c hc'
      cases hc.symm.trans hc'
  | some c =>
      by_cases hin : lo ≤ c ∧ c ≤ hi
      · simp only [hin, decide_true, Bool.and_self, if_true]
        exact .range hc hin.1 hin.2
      · have hout : (decide (lo ≤ c) && decide (c ≤ hi)) = false := by simpa using hin
        simp only [hout]
        refine .range_fail ?_
        rintro c' hc'
        cases hc.symm.trans hc'
        exact hin

/-- So is a set. -/
theorem peg_set (g : Grammar) (text : Text) (members : List Char) (p : Nat) :
    Peg g text (.set members) p ((text.matchOne p members.contains).map Found.nothing) := by
  rw [Text.matchOne]
  cases hc : text.at? p with
  | none =>
      refine .set_fail ?_
      intro c hc'
      cases hc.symm.trans hc'
  | some c =>
      by_cases hin : c ∈ members
      · simp only [List.contains_iff_mem.mpr hin, if_true]
        exact .set hc hin
      · have hout : members.contains c = false := by simpa using hin
        simp only [hout]
        refine .set_fail ?_
        rintro c' hc'
        cases hc.symm.trans hc'
        exact hin

/-! ## Forms -/

/-- The expression may be skipped: it and all that is below has a fast path, and repeats nothing
    nullable. -/
structure Skippable (g : Grammar) (n : Nullability) (within : ExprId → Prop) : Prop where
  shape : ∀ id, within id → ∃ s, g.shape? id = some s ∧ s.hasFastPath = true
  children : ∀ id s, within id → g.shape? id = some s → ∀ child ∈ s.children, within child
  solid : ∀ id s operand, within id → g.shape? id = some s →
    s = .zeroMore operand ∨ s = .oneMore operand → n.isNullable operand = false

/-- Any number of characters out of a set may be skipped. -/
theorem skippable_set {ws e : ExprId} {members : List Char} (hws : g.shape? ws = some (.zeroMore e))
    (he : g.shape? e = some (.set members)) (hsolid : n.isNullable e = false) :
    Skippable g n fun id => id = ws ∨ id = e := by
  refine ⟨?_, ?_, ?_⟩
  · rintro id (rfl | rfl)
    · exact ⟨_, hws, rfl⟩
    · exact ⟨_, he, rfl⟩
  · rintro id s (rfl | rfl) hs child hchild
    · cases hws.symm.trans hs
      exact .inr (List.mem_singleton.mp hchild)
    · cases he.symm.trans hs
      cases hchild
  · rintro id s operand (rfl | rfl) hs hrepeats
    · cases hws.symm.trans hs
      rcases hrepeats with h | h <;> cases h
      exact hsolid
    · cases he.symm.trans hs
      rcases hrepeats with h | h <;> cases h

/-- The step finds, where it ends, what the rules say. -/
def SkipsTo (g : Grammar) (text : Text) (within : ExprId → Prop)
    (step : ExprId → Nat → Except Fault (Option Nat)) : Prop :=
  ∀ id p r, within id → p ≤ text.length → step id p = .ok r →
    ∃ o, PegAt g text id p o ∧ o.map Found.stop = r

variable {within : ExprId → Prop} {step : ExprId → Nat → Except Fault (Option Nat)}

/-- Items skipped in order are a match of the sequence of them. -/
theorem inOrder_peg (hn : g.nullability = .ok n) (hstep : SkipsTo g text within step)
    (items : List ExprId) (hitems : ∀ i ∈ items, within i) (hp : p ≤ text.length)
    {r : Option Nat} (h : FastPath.inOrder step items p = .ok r) :
    ∃ o, Peg g text (.sequence items) p o ∧ o.map Found.stop = r := by
  induction items generalizing p with
  | nil =>
      cases h
      exact ⟨_, .sequence_nil, rfl⟩
  | cons item rest ih =>
      obtain ⟨hitem, hrest⟩ := List.forall_mem_cons.mp hitems
      obtain ⟨found, hrun, h⟩ := ok_of_bind h
      obtain ⟨o, ⟨s, hs, hpeg⟩, rfl⟩ := hstep item p found hitem hp hrun
      cases o with
      | none =>
          cases h
          exact ⟨none, .sequence_fail hs hpeg, rfl⟩
      | some f =>
          have hwithin := PegAt.bounds hn ⟨s, hs, hpeg⟩ hp
          obtain ⟨o, hpeg', rfl⟩ := ih hrest hwithin.stop h
          refine ⟨_, .sequence_next hs hpeg hpeg', ?_⟩
          cases o <;> rfl

/-- The first alternative that skips is the first that matches. -/
theorem firstOf_peg (hstep : SkipsTo g text within step) (items : List ExprId)
    (hitems : ∀ i ∈ items, within i) (hp : p ≤ text.length) {r : Option Nat}
    (h : FastPath.firstOf step items p = .ok r) :
    ∃ o, Peg g text (.choice items) p o ∧ o.map Found.stop = r := by
  induction items with
  | nil =>
      cases h
      exact ⟨_, .choice_nil, rfl⟩
  | cons item rest ih =>
      obtain ⟨hitem, hrest⟩ := List.forall_mem_cons.mp hitems
      obtain ⟨found, hrun, h⟩ := ok_of_bind h
      obtain ⟨o, ⟨s, hs, hpeg⟩, rfl⟩ := hstep item p found hitem hp hrun
      cases o with
      | some f =>
          cases h
          exact ⟨some f, .choice_here hs hpeg, rfl⟩
      | none =>
          obtain ⟨o, hpeg', ho⟩ := ih hrest h
          exact ⟨o, .choice_next hs hpeg hpeg', ho⟩

/-- A repetition of something solid ends where it fails. -/
theorem repeated_peg (hn : g.nullability = .ok n) (hstep : SkipsTo g text within step) {e : ExprId}
    (he : within e) (hsolid : n.isNullable e = false) {rounds stop : Nat} (hp : p ≤ text.length)
    (henough : text.length - p < rounds) (h : FastPath.repeated (step e) rounds p = .ok stop) :
    ∃ f, Peg g text (.zeroMore e) p (some f) ∧ f.stop = stop := by
  induction rounds generalizing p with
  | zero => omega
  | succ rounds ih =>
      obtain ⟨found, hrun, h⟩ := ok_of_bind h
      obtain ⟨o, ⟨s, hs, hpeg⟩, rfl⟩ := hstep e p found he hp hrun
      cases o with
      | none =>
          cases h
          exact ⟨_, .zeroMore_end hs hpeg, rfl⟩
      | some f =>
          have hwithin := PegAt.bounds hn ⟨s, hs, hpeg⟩ hp
          have hmoves : f.stop ≠ p := by
            intro hstay
            rw [hwithin.nullable hstay] at hsolid
            cases hsolid
          have hforward := hwithin.forward
          have hstop := hwithin.stop
          have hrest : FastPath.repeated (step e) rounds f.stop = .ok stop :=
            (if_neg hmoves).symm.trans h
          obtain ⟨f', hpeg', rfl⟩ := ih hstop (by omega) hrest
          exact ⟨_, .zeroMore_next hs hpeg hpeg', rfl⟩

/-- A form over one operand: what the operand finds is made into what the form finds. -/
theorem operand_peg (hstep : SkipsTo g text within step) {e : ExprId} (he : within e)
    (hp : p ≤ text.length) {r : Option Nat} {k : Option Nat → Except Fault (Option Nat)}
    (h : (step e p >>= k) = .ok r) :
    ∃ s o, g.shape? e = some s ∧ Peg g text s p o ∧ k (o.map Found.stop) = .ok r := by
  obtain ⟨found, hrun, h⟩ := ok_of_bind h
  obtain ⟨o, ⟨s, hs, hpeg⟩, rfl⟩ := hstep e p found he hp hrun
  exact ⟨s, o, hs, hpeg, h⟩

/-- Every shape of the fast path is matched by it as the semantics has it. -/
theorem matchShape_peg (hn : g.nullability = .ok n) (hskippable : Skippable g n within)
    (hstep : SkipsTo g text within step) {id : ExprId} {s : Shape ExprId} (hid : within id)
    (hs : g.shape? id = some s) (hp : p ≤ text.length) {r : Option Nat}
    (h : FastPath.matchShape text step s p = .ok r) :
    ∃ o, Peg g text s p o ∧ o.map Found.stop = r := by
  have hchildren := hskippable.children id s hid hs
  have hterminal : ∀ {stop : Option Nat}, (.ok stop : Except Fault (Option Nat)) = .ok r →
      (stop.map Found.nothing).map Found.stop = r := by
    intro stop hstop
    cases hstop
    cases r <;> rfl
  have hoperand : ∀ operand, s.children = [operand] → within operand := by
    intro operand honly
    exact hchildren operand (honly ▸ List.mem_singleton_self operand)
  obtain ⟨s', hs', hfast⟩ := hskippable.shape id hid
  obtain rfl : s = s' := Option.some.inj (hs.symm.trans hs')
  cases s with
  | literal l => exact ⟨_, peg_literal g text l p, hterminal h⟩
  | any => exact ⟨_, peg_any g text p, hterminal h⟩
  | range lo hi => exact ⟨_, peg_range g text lo hi p, hterminal h⟩
  | set members => exact ⟨_, peg_set g text members p, hterminal h⟩
  | sequence items => exact inOrder_peg hn hstep items hchildren hp h
  | choice items => exact firstOf_peg hstep items hchildren hp h
  | optional e =>
      obtain ⟨t, o, ht, hpeg, hk⟩ := operand_peg hstep (hoperand e rfl) hp h
      cases hk
      refine ⟨_, .optional ht hpeg, ?_⟩
      cases o <;> rfl
  | zeroMore e =>
      have hsolid := hskippable.solid id _ e hid hs (Or.inl rfl)
      obtain ⟨stop, hrun, hk⟩ := ok_of_bind h
      cases hk
      obtain ⟨f, hpeg, rfl⟩ :=
        repeated_peg hn hstep (hoperand e rfl) hsolid hp (Nat.lt_succ_self _) hrun
      exact ⟨_, hpeg, rfl⟩
  | oneMore e =>
      have hsolid := hskippable.solid id _ e hid hs (Or.inr rfl)
      obtain ⟨t, o, ht, hpeg, hk⟩ := operand_peg hstep (hoperand e rfl) hp h
      cases o with
      | none =>
          cases hk
          exact ⟨none, .oneMore_fail ht hpeg, rfl⟩
      | some f =>
          have hstop := (PegAt.bounds hn ⟨t, ht, hpeg⟩ hp).stop
          obtain ⟨stop, hrun, hk⟩ := ok_of_bind hk
          cases hk
          obtain ⟨f', hpeg', rfl⟩ :=
            repeated_peg hn hstep (hoperand e rfl) hsolid hstop (Nat.lt_succ_self _) hrun
          exact ⟨_, .oneMore ht hpeg hpeg', rfl⟩
  | lookahead e =>
      obtain ⟨t, o, ht, hpeg, hk⟩ := operand_peg hstep (hoperand e rfl) hp h
      cases hk
      refine ⟨_, .lookahead ht hpeg, ?_⟩
      cases o <;> rfl
  | not e =>
      obtain ⟨t, o, ht, hpeg, hk⟩ := operand_peg hstep (hoperand e rfl) hp h
      cases o with
      | none =>
          cases hk
          exact ⟨_, .not ht hpeg, rfl⟩
      | some f =>
          cases hk
          exact ⟨_, .not_fail ht hpeg, rfl⟩
  | capture e mode =>
      obtain ⟨o, ⟨t, ht, hpeg⟩, rfl⟩ := hstep e p r (hoperand e rfl) hp h
      refine ⟨_, .capture mode ht hpeg, ?_⟩
      cases o <;> rfl
  | minPrecedence e floor =>
      obtain ⟨o, ⟨t, ht, hpeg⟩, rfl⟩ := hstep e p r (hoperand e rfl) hp h
      exact ⟨_, .minPrecedence floor ht hpeg, rfl⟩
  | token | leftRecursive | cluster | reference | custom => cases hfast

/-! ## Expressions -/

/-- The fast path finds what the semantics does, by induction on the nesting. -/
theorem skipWithin_peg (hn : g.nullability = .ok n) (hskippable : Skippable g n within)
    (nesting : Nat) : SkipsTo g text within (g.skipWithin text nesting) := by
  induction nesting with
  | zero =>
      intro id p r _ _ h
      cases h
  | succ nesting ih =>
      intro id p r hid hp h
      obtain ⟨s, hs, -⟩ := hskippable.shape id hid
      rw [Grammar.skipWithin, hs] at h
      obtain ⟨o, hpeg, ho⟩ := matchShape_peg hn hskippable ih hid hs hp h
      exact ⟨o, ⟨s, hs, hpeg⟩, ho⟩

/-- What is skipped is what the rules say. -/
theorem skip_peg (hn : g.nullability = .ok n) (hskippable : Skippable g n within) {id : ExprId}
    (hid : within id) (hp : p ≤ text.length) {r : Option Nat} (h : g.skip text id p = .ok r) :
    ∃ o, PegAt g text id p o ∧ o.map Found.stop = r :=
  skipWithin_peg hn hskippable _ id p r hid hp h

/-! ## Whitespace with a fast path -/

namespace Grammar

theorem edge_of_child {u v : ExprId} (h : g.Child u v) : Walk.Edge g.children? u v := by
  obtain ⟨s, hs, hmem⟩ := h
  exact ⟨s.children, by rw [children?, hs]; rfl, hmem⟩

/-- What is reached over children is reached by a walk. -/
theorem walk_of_reach {u v : ExprId} (h : ReflTransGen g.Child u v) :
    ReflTransGen (Walk.Edge g.children?) u v :=
  ReflTransGen.mono (fun _ _ => edge_of_child) _ _ h

/-- Where no expression is without a fast path, all that can be reached has one. -/
theorem fastPath_of_culprit {ws id : ExprId} (hculprit : g.fastPathCulprit ws = .ok none)
    (hreach : ReflTransGen g.Child ws id) : ∃ s, g.shape? id = some s ∧ s.hasFastPath = true := by
  obtain ⟨events, hwalk, hnone⟩ := ok_of_bind hculprit
  have hfind := List.find?_eq_none.mp (Except.ok.inj hnone)
  obtain ⟨hentered, -⟩ := walk_reaches hwalk (List.mem_singleton_self ws) (walk_of_reach hreach)
  have hfast : g.hasFastPath id = true := by simpa using hfind id hentered
  cases hs : g.shape? id with
  | none =>
      rw [hasFastPath, hs] at hfast
      cases hfast
  | some s =>
      rw [hasFastPath, hs] at hfast
      exact ⟨s, rfl, hfast⟩

/-- Below a whitespace with a fast path, everything may be skipped. -/
theorem skippable_of_culprit {ws : ExprId} (hculprit : g.fastPathCulprit ws = .ok none)
    (hsolid : ∀ id s operand, ReflTransGen g.Child ws id → g.shape? id = some s →
      s = .zeroMore operand ∨ s = .oneMore operand → n.isNullable operand = false) :
    Skippable g n (ReflTransGen g.Child ws) := by
  refine ⟨fun id => fastPath_of_culprit hculprit, ?_, hsolid⟩
  intro id s hreach hs child hchild
  exact hreach.tail ⟨s, hs, hchild⟩

end Grammar

end Packrat
