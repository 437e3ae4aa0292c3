import Packrat.Proofs.Peg.Renaming
import Packrat.Proofs.Peg.Skipping
import Packrat.Proofs.Relabeling.Shapes

/-! # Skipping under other ids

    Skipping looks at ids only to find shapes, so it finds under other ids what it finds under the
    old ones, also with more nesting allowed.  Behind the end of the text it finds what it finds at
    the end, that many positions on; so where it is known to answer in the text, it answers
    everywhere, and what it answers does not depend on the ids (`skip_renamed`). -/

namespace Packrat

variable {g g' : Grammar} {f : ExprId → ExprId} {part : ExprId → Prop} {text : Text}

/-- A grammar renames itself by the identity. -/
theorem Grammar.renames_self (g : Grammar) : g.Renames g id fun _ => True where
  shape id s _ hs := by rw [Shape.map_id]; exact hs
  children _ _ _ _ _ _ := trivial
  whitespace := (Option.map_id_fun' ▸ rfl : g.whitespace = g.whitespace.map id)
  blank _ _ := trivial

/-! ## At the end of the text -/

/-- Going `d` positions on makes no difference at the positions of `Q`, and where a character stands
    the next position is another one. -/
structure Text.Shifts (text : Text) (d : Nat) (Q : Nat → Prop) : Prop where
  at? : ∀ {p}, Q p → text.at? (p + d) = text.at? p
  left : ∀ {p}, Q p → text.length - (p + d) = text.length - p
  next : ∀ {p c}, Q p → text.at? p = some c → Q (p + 1)

/-- Going `d` positions on makes no difference at `p`: they are none, or the text ends there. -/
def Text.Still (text : Text) (d p : Nat) : Prop :=
  d = 0 ∨ p = text.length

variable {d p : Nat} {Q : Nat → Prop}

namespace Text

/-- At the end of the text every distance makes no difference, and elsewhere none does. -/
theorem shifts_still (text : Text) (d : Nat) : text.Shifts d (text.Still d) where
  at? := by
    rintro p (rfl | rfl)
    · rfl
    · simp [Text.at?, Text.length]
  left := by
    rintro p (rfl | rfl) <;> omega
  next := by
    rintro p c (hd | rfl) hc
    · exact .inl hd
    · simp [Text.at?, Text.length] at hc

/-- Going no position on makes no difference in what is left of the text, or behind it where nothing
    is left. -/
theorem shifts_left (text : Text) (first : Nat) :
    text.Shifts 0 fun p => first ≤ p ∧ p ≤ max first text.length where
  at? := fun _ => rfl
  left := fun _ => rfl
  next := by
    rintro p c ⟨hfirst, -⟩ hc
    obtain ⟨hlt, -⟩ := Array.getElem?_eq_some_iff.mp hc
    exact ⟨hfirst.trans (Nat.le_succ p), (Nat.succ_le_of_lt hlt).trans (le_max_right _ _)⟩

variable (hshifts : text.Shifts d Q)
include hshifts

/-- A literal is met `d` positions on if it is met here, and then ends `d` positions on. -/
theorem matchChars_shifts (expected : List Char) (h : Q p) :
    text.matchChars expected (p + d) = (text.matchChars expected p).map (· + d) ∧
      ∀ stop, text.matchChars expected p = some stop → Q stop := by
  induction expected generalizing p with
  | nil =>
      refine ⟨rfl, ?_⟩
      rintro _ ⟨⟩
      exact h
  | cons c rest ih =>
      rw [matchChars, matchChars, hshifts.at? h]
      by_cases hc : text.at? p = some c
      · rw [if_pos hc, if_pos hc, Nat.add_right_comm]
        exact ih (hshifts.next h hc)
      · rw [if_neg hc, if_neg hc]
        exact ⟨rfl, by rintro _ ⟨⟩⟩

/-- So is a single character. -/
theorem matchOne_shifts (accepts : Char → Bool) (h : Q p) :
    text.matchOne (p + d) accepts = (text.matchOne p accepts).map (· + d) ∧
      ∀ stop, text.matchOne p accepts = some stop → Q stop := by
  rw [matchOne, matchOne, hshifts.at? h]
  cases hc : text.at? p with
  | none => exact ⟨rfl, by rintro _ ⟨⟩⟩
  | some c =>
      dsimp only
      split
      · refine ⟨by rw [Nat.add_right_comm]; rfl, ?_⟩
        rintro _ ⟨⟩
        exact hshifts.next h hc
      · exact ⟨rfl, by rintro _ ⟨⟩⟩

end Text

namespace FastPath

variable {step step' : ExprId → Nat → Except Fault (Option Nat)} {s : Shape ExprId} {e : ExprId}
variable {r : Option Nat} {stop : Nat}

/-- What the first step finds at a position of `Q`, the second finds `d` positions on; and it is in
    `Q` again. -/
def Carried (d : Nat) (Q : Nat → Prop) (x y : Nat → Except Fault (Option Nat)) : Prop :=
  ∀ p r, Q p → x p = .ok r → y (p + d) = .ok (r.map (· + d)) ∧ ∀ stop, r = some stop → Q stop

/-- Items in order are carried if each one is. -/
theorem inOrder_carried (items : List ExprId)
    (hitems : ∀ i ∈ items, Carried d Q (step i) (step' (f i))) :
    Carried d Q (inOrder step items) (inOrder step' (items.map f)) := by
  induction items with
  | nil =>
      rintro p r hp ⟨⟩
      refine ⟨rfl, ?_⟩
      rintro _ ⟨⟩
      exact hp
  | cons item rest ih =>
      obtain ⟨hitem, hrest⟩ := List.forall_mem_cons.mp hitems
      intro p r hp h
      obtain ⟨found, hrun, h⟩ := ok_of_bind h
      obtain ⟨hrun', hstill⟩ := hitem p found hp hrun
      simp only [List.map_cons, inOrder, hrun']
      cases found with
      | none =>
          cases h
          exact ⟨rfl, by rintro _ ⟨⟩⟩
      | some stop => exact ih hrest stop r (hstill stop rfl) h

/-- So are alternatives. -/
theorem firstOf_carried (items : List ExprId)
    (hitems : ∀ i ∈ items, Carried d Q (step i) (step' (f i))) :
    Carried d Q (firstOf step items) (firstOf step' (items.map f)) := by
  induction items with
  | nil =>
      rintro p r - ⟨⟩
      exact ⟨rfl, by rintro _ ⟨⟩⟩
  | cons item rest ih =>
      obtain ⟨hitem, hrest⟩ := List.forall_mem_cons.mp hitems
      intro p r hp h
      obtain ⟨found, hrun, h⟩ := ok_of_bind h
      obtain ⟨hrun', hstill⟩ := hitem p found hp hrun
      simp only [List.map_cons, firstOf, hrun']
      cases found with
      | none => exact ih hrest p r hp h
      | some stop =>
          cases h
          exact ⟨rfl, hstill⟩

/-- Rounds that end by themselves in one text end in the other. -/
theorem repeated_carried {x y : Nat → Except Fault (Option Nat)} (hxy : Carried d Q x y)
    (rounds : Nat) (hp : Q p) (h : repeated x rounds p = .ok stop) :
    repeated y rounds (p + d) = .ok (stop + d) ∧ Q stop := by
  induction rounds generalizing p with
  | zero =>
      cases h
      exact ⟨rfl, hp⟩
  | succ rounds ih =>
      obtain ⟨found, hrun, h⟩ := ok_of_bind h
      obtain ⟨hrun', hstill⟩ := hxy p found hp hrun
      simp only [repeated, hrun']
      cases found with
      | none =>
          cases h
          exact ⟨rfl, hp⟩
      | some next =>
          by_cases hstay : next = p
          · cases (if_pos hstay).symm.trans h
            exact ⟨if_pos (congrArg (· + d) hstay), hp⟩
          · have hstay' : ¬ next + d = p + d := fun heq => hstay (Nat.add_right_cancel heq)
            obtain ⟨hrun, hstop⟩ := ih (hstill next rfl) ((if_neg hstay).symm.trans h)
            exact ⟨(if_neg hstay').trans hrun, hstop⟩

variable (hshifts : text.Shifts d Q)
include hshifts

theorem matchOne_carried (accepts : Char → Bool) :
    Carried d Q (fun p => .ok (text.matchOne p accepts))
      fun p => .ok (text.matchOne p accepts) := by
  rintro p _ hp ⟨⟩
  obtain ⟨hsame, hstill⟩ := Text.matchOne_shifts hshifts accepts hp
  exact ⟨congrArg _ hsame, hstill⟩

/-- Shapes over other ids are matched alike if their children are. -/
theorem matchShape_carried
    (hchildren : ∀ i ∈ s.children, Carried d Q (step i) (step' (f i))) :
    Carried d Q (matchShape text step s) (matchShape text step' (s.map f)) := by
  intro p r hp h
  cases s with
  | literal l =>
      cases h
      obtain ⟨hsame, hstill⟩ := Text.matchChars_shifts hshifts l.toList hp
      exact ⟨congrArg _ hsame, hstill⟩
  | any => exact matchOne_carried hshifts (fun _ => true) p r hp h
  | range lo hi => exact matchOne_carried hshifts (fun c => lo ≤ c && c ≤ hi) p r hp h
  | set members => exact matchOne_carried hshifts members.contains p r hp h
  | sequence items => exact inOrder_carried items hchildren p r hp h
  | choice items => exact firstOf_carried items hchildren p r hp h
  | optional e =>
      obtain ⟨found, hrun, hk⟩ := ok_of_bind h
      obtain ⟨hrun', hstill⟩ := hchildren e (List.mem_singleton_self e) p found hp hrun
      cases hk
      simp only [Shape.map, matchShape, hrun']
      cases found with
      | none => exact ⟨rfl, by rintro _ ⟨⟩; exact hp⟩
      | some stop => exact ⟨rfl, by rintro _ ⟨⟩; exact hstill stop rfl⟩
  | zeroMore e =>
      obtain ⟨stop, hrun, hk⟩ := ok_of_bind h
      obtain ⟨hrun', hstop⟩ := repeated_carried (hchildren e (List.mem_singleton_self e)) _ hp hrun
      cases hk
      simp only [Shape.map, matchShape, hshifts.left hp, hrun']
      exact ⟨rfl, by rintro _ ⟨⟩; exact hstop⟩
  | oneMore e =>
      obtain ⟨found, hrun, hk⟩ := ok_of_bind h
      have he := hchildren e (List.mem_singleton_self e)
      obtain ⟨hrun', hstill⟩ := he p found hp hrun
      simp only [Shape.map, matchShape, hrun']
      cases found with
      | none =>
          cases hk
          exact ⟨rfl, by rintro _ ⟨⟩⟩
      | some first =>
          have hfirst := hstill first rfl
          obtain ⟨stop, hrun, hk⟩ := ok_of_bind hk
          obtain ⟨hrun', hstop⟩ := repeated_carried he _ hfirst hrun
          cases hk
          rw [← hshifts.left hfirst] at hrun'
          exact ⟨congrArg (some <$> ·) hrun', by rintro _ ⟨⟩; exact hstop⟩
  | lookahead e =>
      obtain ⟨found, hrun, hk⟩ := ok_of_bind h
      obtain ⟨hrun', -⟩ := hchildren e (List.mem_singleton_self e) p found hp hrun
      cases hk
      simp only [Shape.map, matchShape, hrun']
      cases found with
      | none => exact ⟨rfl, by rintro _ ⟨⟩⟩
      | some stop => exact ⟨rfl, by rintro _ ⟨⟩; exact hp⟩
  | not e =>
      obtain ⟨found, hrun, hk⟩ := ok_of_bind h
      obtain ⟨hrun', -⟩ := hchildren e (List.mem_singleton_self e) p found hp hrun
      cases hk
      simp only [Shape.map, matchShape, hrun']
      cases found with
      | none => exact ⟨rfl, by rintro _ ⟨⟩; exact hp⟩
      | some stop => exact ⟨rfl, by rintro _ ⟨⟩⟩
  | capture e mode => exact hchildren e (List.mem_singleton_self e) p r hp h
  | minPrecedence e floor => exact hchildren e (List.mem_singleton_self e) p r hp h
  | token | leftRecursive | cluster | reference | custom =>
      cases h
      exact ⟨rfl, by rintro _ ⟨⟩⟩

end FastPath

namespace Grammar

variable {nesting nesting' : Nat} {ws : ExprId}

/-- A fast path is carried along a renaming and a shift, by induction on the nesting; more nesting
    does no harm. -/
theorem skipWithin_carried (hrenames : g.Renames g' f part) (hshifts : text.Shifts d Q)
    (hle : nesting ≤ nesting') {id : ExprId} (hid : part id) :
    FastPath.Carried d Q (g.skipWithin text nesting id)
      (g'.skipWithin text nesting' (f id)) := by
  induction nesting generalizing nesting' id with
  | zero =>
      intro p r _ h
      cases h
  | succ nesting ih =>
      obtain ⟨nesting', rfl⟩ : ∃ k, nesting' = k + 1 := ⟨nesting' - 1, by omega⟩
      intro p r hp h
      cases hs : g.shape? id with
      | none =>
          rw [skipWithin, hs] at h
          cases h
      | some s =>
          rw [skipWithin, hs] at h
          rw [skipWithin, hrenames.shape id s hid hs]
          refine FastPath.matchShape_carried hshifts (fun i hi => ?_) p r hp h
          exact ih (by omega) (hrenames.children id s hid hs i hi)

/-- With more nesting, skipping finds the same. -/
theorem skipWithin_mono {id : ExprId} {p : Nat} {r : Option Nat} (hle : nesting ≤ nesting')
    (h : g.skipWithin text nesting id p = .ok r) : g.skipWithin text nesting' id p = .ok r := by
  have hrun := (skipWithin_carried g.renames_self (text.shifts_still 0) hle trivial p r (.inl rfl)
    h).1
  rw [show (r.map (· + 0)) = r from Option.map_id' ..] at hrun
  exact hrun

/-- With as much nesting, skipping finds the same under the other id. -/
theorem skip_carried (hrenames : g.Renames g' f part) (hws : part ws) (hsize : g.size ≤ g'.size)
    {p : Nat} {r : Option Nat} (h : g.skip text ws p = .ok r) : g'.skip text (f ws) p = .ok r := by
  have hle := Nat.mul_le_mul_left (text.length - p + 1) hsize
  have hrun := (skipWithin_carried hrenames (text.shifts_still 0) (Nat.succ_le_succ hle) hws p r
    (.inl rfl) h).1
  rw [show (r.map (· + 0)) = r from Option.map_id' ..] at hrun
  exact hrun

/-- Where skipping answers in the text under both ids, it answers the same everywhere. -/
theorem skip_renamed (hrenames : g.Renames g' f part) (hws : part ws)
    (hends : ∀ p ≤ text.length, ∃ r, g.skip text ws p = .ok r)
    (hends' : ∀ p ≤ text.length, ∃ r, g'.skip text (f ws) p = .ok r) (p : Nat) :
    g'.skip text (f ws) p = g.skip text ws p := by
  -- `p` lies `d` positions behind a position in the text
  obtain ⟨q, d, rfl, hq, hstill⟩ : ∃ q d, p = q + d ∧ q ≤ text.length ∧ text.Still d q := by
    rcases le_total p text.length with hle | hle
    · exact ⟨p, 0, rfl, hle, .inl rfl⟩
    · exact ⟨text.length, p - text.length, by omega, le_rfl, .inr rfl⟩
  obtain ⟨r, hr⟩ := hends q hq
  obtain ⟨r', hr'⟩ := hends' q hq
  have hbehind : g.skip text ws (q + d) = .ok (r.map (· + d)) := by
    rw [skip, (text.shifts_still d).left hstill]
    exact (skipWithin_carried g.renames_self (text.shifts_still d) le_rfl trivial q r hstill hr).1
  have hbehind' : g'.skip text (f ws) (q + d) = .ok (r'.map (· + d)) := by
    rw [skip, (text.shifts_still d).left hstill]
    exact
      (skipWithin_carried g'.renames_self (text.shifts_still d) le_rfl trivial q r' hstill hr').1
  -- with the greater nesting of the two, both answers are those of one run
  obtain ⟨nesting, hle, hle'⟩ : ∃ nesting, (text.length - q + 1) * g.size + 1 ≤ nesting ∧
      (text.length - q + 1) * g'.size + 1 ≤ nesting := ⟨_, le_max_left .., le_max_right ..⟩
  have hrun := (skipWithin_carried hrenames (text.shifts_still 0) hle hws q r (.inl rfl) hr).1
  have hrun' := skipWithin_mono hle' hr'
  obtain rfl : r' = r := by
    simpa using Except.ok.inj (hrun'.symm.trans hrun)
  rw [hbehind, hbehind']

end Grammar

end Packrat
