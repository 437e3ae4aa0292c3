import Packrat.Proofs.Rollback

/-! # Slots are told apart by their prints

    A slot is sound if its print tells what it holds, and if its counter is within range.  The
    transitions keep slots sound.  Two settled and sound slots with the same print are equal, so for
    sound slots a fingerprint tells all.

    A transition does nothing to settled slots when nothing was added. -/

namespace Packrat

/-- Nothing is added to a slot. -/
def Changes.Bare (c : Changes) : Prop :=
  ∀ d ∈ c.slots, d = none

/-! ## One slot -/

namespace Slot

variable {a b c : Slot}

/-- The print of the slot tells what it holds, and a counter is within range. -/
def Sound : Slot → Prop
  | .names quiet _ _ => quiet = false
  | .counter committed pending => committed ≤ limit ∧ pending ≤ limit

/-- What a counter holds that is not committed is within range. -/
def Ranged : Slot → Prop
  | .names _ _ _ => True
  | .counter _ pending => pending ≤ limit

theorem Sound.ranged (h : a.Sound) : a.Ranged := by
  cases a with
  | names => trivial
  | counter => exact h.2

/-- A settled slot is told apart by its print.  A quiet slot is not, which is why sound slots
    exclude it. -/
theorem eq_of_print (ha : a.Sound) (hb : b.Sound) (ha' : a.Settled) (hb' : b.Settled)
    (h : a.print = b.print) : a = b := by
  cases a with
  | names quiet committed entries =>
      obtain rfl : quiet = false := ha
      obtain rfl : committed = entries.length := ha'
      cases b with
      | names quiet' committed' entries' =>
          obtain rfl : quiet' = false := hb
          obtain rfl : committed' = entries'.length := hb'
          cases h
          rfl
      | counter => cases h
  | counter committed pending =>
      obtain rfl : pending = 0 := ha'
      cases b with
      | names quiet' committed' entries' =>
          obtain rfl : quiet' = false := hb
          cases h
      | counter committed' pending' =>
          obtain rfl : pending' = 0 := hb'
          cases h
          rfl

/-- A settled counter is in range, so it can be committed. -/
theorem Sound.fits (h : a.Sound) (ha : a.Settled) : a.fits = true := by
  cases a with
  | names => rfl
  | counter committed pending =>
      obtain rfl : pending = 0 := ha
      exact decide_eq_true h.1

theorem Sound.commit? (h : a.Sound) (hb : a.commit? = some b) : b.Sound := by
  cases a with
  | names =>
      cases hb
      exact h
  | counter committed pending =>
      simp only [Slot.commit?, Option.ite_none_right_eq_some, Option.some.injEq] at hb
      obtain ⟨hle, rfl⟩ := hb
      exact ⟨hle, Nat.zero_le _⟩

theorem Sound.discard (h : a.Sound) : a.discard.Sound := by
  cases a with
  | names => exact h
  | counter => exact ⟨h.1, Nat.zero_le _⟩

theorem Sound.restore? (h : a.Sound) (hb : b.Sound) (hc : a.restore? b.mark = some c) :
    c.Sound := by
  cases a with
  | names =>
      cases b with
      | names =>
          cases hc
          exact h
      | counter => cases hc
  | counter =>
      cases b with
      | names => cases hc
      | counter =>
          cases hc
          exact hb

theorem Sound.uncommit? (h : a.Sound) {mark : SlotMark} (hc : a.uncommit? mark = some c) :
    c.Sound := by
  cases a with
  | names =>
      cases mark with
      | names =>
          cases hc
          exact h
      | counter => cases hc
  | counter committed pending =>
      cases mark with
      | names => cases hc
      | counter earlier =>
          simp only [Slot.uncommit?, Option.ite_none_right_eq_some, Option.some.injEq] at hc
          obtain ⟨⟨hearlier, hle⟩, rfl⟩ := hc
          exact ⟨hearlier.trans h.1, hle⟩

/-- A slot that was not refused its own mark is as it was. -/
theorem eq_of_uncommit?_mark (h : a.uncommit? a.mark = some b) : b = a := by
  cases a with
  | names =>
      cases h
      rfl
  | counter committed pending =>
      simp only [Slot.uncommit?, mark, Option.ite_none_right_eq_some, Option.some.injEq] at h
      obtain ⟨-, rfl⟩ := h
      simp

/-- A settled slot that was not refused a commit is as it was. -/
theorem eq_of_commit? (ha : a.Settled) (h : a.commit? = some b) : b = a := by
  cases a with
  | names quiet committed entries =>
      obtain rfl : committed = entries.length := ha
      cases h
      rfl
  | counter committed pending =>
      obtain rfl : pending = 0 := ha
      simp only [Slot.commit?, Option.ite_none_right_eq_some, Option.some.injEq] at h
      exact h.2.symm

/-- What was added to a settled slot leads from it to the slot that it became. -/
theorem Kept.merge?_extract (h : Kept a b) (ha : a.Settled) (hb : b.Ranged) :
    (match b.extract with
      | some d => a.merge? d
      | none => some a) = some b := by
  cases h with
  | @names quiet committed entries entries' hentries =>
      obtain rfl : committed = entries.length := ha
      obtain ⟨more, rfl⟩ := hentries
      cases more with
      | nil => simp [extract]
      | cons name rest => simp [extract, Slot.merge?]
  | counter committed pending pending' =>
      obtain rfl : pending = 0 := ha
      by_cases hzero : pending' = 0
      · simp [extract, hzero]
      · have hle : pending' ≤ limit := hb
        simp only [extract, if_neg hzero, Slot.merge?, Nat.zero_add, if_pos hle]

/-- What was added to a settled slot is what was added again once it is appended to it. -/
theorem Kept.extract_merge? {c : Slot} {d : SlotDelta} (h : Kept a b) (ha : a.Settled)
    (hd : b.extract = some d) (hc : a.merge? d = some c) : c.extract = some d := by
  cases h with
  | @names quiet committed entries entries' hentries =>
      obtain rfl : committed = entries.length := ha
      obtain ⟨more, rfl⟩ := hentries
      cases more with
      | nil => simp [extract] at hd
      | cons name rest =>
          obtain rfl : SlotDelta.names (name :: rest) = d := by simpa [extract] using hd
          cases hc
          simp [extract]
  | counter committed pending pending' =>
      obtain rfl : pending = 0 := ha
      by_cases hzero : pending' = 0
      · simp [extract, hzero] at hd
      · obtain rfl : SlotDelta.counter pending' = d := by simpa [extract, hzero] using hd
        simp only [Slot.merge?, Nat.zero_add, Option.ite_none_right_eq_some, Option.some.injEq] at hc
        rw [← hc.2, extract, if_neg hzero]

end Slot

/-! ## Lists of slots -/

namespace Slots

variable {a b : List Slot}

/-- Every slot is sound. -/
def Sound (slots : List Slot) : Prop :=
  ∀ slot ∈ slots, slot.Sound

/-- What counters hold that is not committed is within range. -/
def Ranged (slots : List Slot) : Prop :=
  ∀ slot ∈ slots, slot.Ranged

theorem Sound.ranged (h : Sound a) : Ranged a :=
  fun slot hslot => (h slot hslot).ranged

/-- Nothing was added to any slot since its commit point. -/
def Settled (slots : List Slot) : Prop :=
  ∀ slot ∈ slots, slot.Settled

/-- Slots start out sound if none of them is quiet. -/
theorem sound_ofKind {kinds : List SlotKind} (h : .quietNames ∉ kinds) :
    Sound (kinds.map Slot.ofKind) := by
  intro slot hslot
  obtain ⟨kind, hkind, rfl⟩ := List.mem_map.mp hslot
  cases kind with
  | names => rfl
  | quietNames => exact absurd hkind h
  | counter => exact ⟨Nat.zero_le _, Nat.zero_le _⟩

/-- Settled slots are told apart by their prints. -/
theorem eq_of_prints (ha : Sound a) (hb : Sound b) (ha' : Settled a) (hb' : Settled b)
    (h : a.map Slot.print = b.map Slot.print) : a = b := by
  induction a generalizing b with
  | nil => exact (List.map_eq_nil_iff.mp h.symm).symm
  | cons slot rest ih =>
      obtain ⟨slot', rest', rfl, hprint, hprints⟩ := List.map_eq_cons_iff.mp h.symm
      obtain ⟨hslot, hrest⟩ := List.forall_mem_cons.mp ha
      obtain ⟨hslot', hrest'⟩ := List.forall_mem_cons.mp hb
      obtain ⟨hsettled, hsettleds⟩ := List.forall_mem_cons.mp ha'
      obtain ⟨hsettled', hsettleds'⟩ := List.forall_mem_cons.mp hb'
      rw [Slot.eq_of_print hslot hslot' hsettled hsettled' hprint.symm,
        ih hrest hrest' hsettleds hsettleds' hprints.symm]

/-- Settled slots can all be committed. -/
theorem Sound.fit (h : Sound a) (ha : Settled a) : fit a = true := by
  rw [Slots.fit, List.all_eq_true]
  exact fun slot hslot => (h slot hslot).fits (ha slot hslot)

theorem Sound.commit (h : Sound a) : Sound (commit a) := by
  induction a with
  | nil => exact h
  | cons slot rest ih =>
      obtain ⟨hslot, hrest⟩ := List.forall_mem_cons.mp h
      rw [Slots.commit]
      split
      · exact List.forall_mem_cons.mpr ⟨hslot.commit? ‹_›, ih hrest⟩
      · exact h

theorem Sound.discard (h : Sound a) : Sound (a.map Slot.discard) := by
  intro slot hslot
  obtain ⟨slot', hslot', rfl⟩ := List.mem_map.mp hslot
  exact (h slot' hslot').discard

theorem Sound.restore (h : Sound a) (hb : Sound b) : Sound (restore a (b.map Slot.mark)) := by
  induction a generalizing b with
  | nil => exact h
  | cons slot rest ih =>
      obtain ⟨hslot, hrest⟩ := List.forall_mem_cons.mp h
      cases b with
      | nil => exact h
      | cons slot' rest' =>
          obtain ⟨hslot', hrest'⟩ := List.forall_mem_cons.mp hb
          rw [Slots.restore, List.map_cons, withMarks]
          split
          · exact List.forall_mem_cons.mpr ⟨hslot.restore? hslot' ‹_›, ih hrest hrest'⟩
          · exact h

theorem Sound.uncommit (h : Sound a) (marks : List SlotMark) : Sound (uncommit a marks) := by
  induction a generalizing marks with
  | nil => exact h
  | cons slot rest ih =>
      obtain ⟨hslot, hrest⟩ := List.forall_mem_cons.mp h
      cases marks with
      | nil => exact h
      | cons mark marks =>
          rw [Slots.uncommit, withMarks]
          split
          · exact List.forall_mem_cons.mpr ⟨hslot.uncommit? ‹_›, ih hrest marks⟩
          · exact h

/-- A slot replaced by a sound one. -/
theorem Sound.set (h : Sound a) {slot : Slot} (hslot : slot.Sound) (i : Nat) :
    Sound (a.set i slot) := by
  intro slot' hslot'
  rcases List.mem_or_eq_of_mem_set hslot' with hmem | rfl
  · exact h slot' hmem
  · exact hslot

/-! ## Slots that stay -/

/-- Going back to a mark just taken changes nothing. -/
theorem restore_self (a : List Slot) : restore a (a.map Slot.mark) = a :=
  restore_mark (grown_refl a)

theorem uncommit_self (a : List Slot) : uncommit a (a.map Slot.mark) = a := by
  induction a with
  | nil => rfl
  | cons slot rest ih =>
      rw [uncommit, List.map_cons, withMarks]
      split
      · rename_i slot' hslot
        rw [Slot.eq_of_uncommit?_mark hslot]
        exact congrArg _ ih
      · rfl

theorem Settled.commit (h : Settled a) : commit a = a := by
  induction a with
  | nil => rfl
  | cons slot rest ih =>
      obtain ⟨hslot, hrest⟩ := List.forall_mem_cons.mp h
      rw [Slots.commit]
      split
      · rename_i slot' hcommit
        rw [Slot.eq_of_commit? hslot hcommit, ih hrest]
      · rfl

theorem Settled.discard (h : Settled a) : a.map Slot.discard = a :=
  discard_of_kept (kept_refl a) h

/-- Settled slots have nothing to extract. -/
theorem Settled.bare (h : Settled a) : ∀ d ∈ a.map Slot.extract, d = none := by
  intro d hd
  obtain ⟨slot, hslot, rfl⟩ := List.mem_map.mp hd
  exact Slot.extract_of_settled (h slot hslot)

/-- Changes that write no slot fit every list of slots. -/
theorem deltasFit_bare {deltas : List (Option SlotDelta)} (h : ∀ d ∈ deltas, d = none) :
    deltasFit a deltas = true := by
  induction deltas generalizing a with
  | nil => cases a <;> rfl
  | cons d deltas ih =>
      obtain ⟨rfl, hrest⟩ := List.forall_mem_cons.mp h
      cases a with
      | nil => exact List.all_eq_true.mpr fun d hd => by rw [h d hd]; rfl
      | cons slot rest => exact ih hrest

/-- What was added to settled slots is what was added again once it is appended to them. -/
theorem extract_merge (h : List.Forall₂ Slot.Kept a b) (ha : Settled a)
    (hfit : deltasFit a (b.map Slot.extract) = true) :
    (merge a (b.map Slot.extract)).map Slot.extract = b.map Slot.extract := by
  induction h with
  | nil => rfl
  | @cons x y as bs hxy _ ih =>
      obtain ⟨hx, has⟩ := List.forall_mem_cons.mp ha
      rw [List.map_cons] at hfit ⊢
      cases hextract : y.extract with
      | none =>
          rw [hextract] at hfit
          rw [merge, List.map_cons, ih has hfit, Slot.extract_of_settled hx]
      | some d =>
          rw [hextract, deltasFit, Bool.and_eq_true, Option.isSome_iff_exists] at hfit
          obtain ⟨⟨z, hz⟩, hrest⟩ := hfit
          rw [merge, hz]
          dsimp only
          rw [List.map_cons, ih has hrest, hxy.extract_merge? hx hextract hz]

/-- What was added to settled slots leads from them to the slots that they became. -/
theorem merge_extract (h : List.Forall₂ Slot.Kept a b) (ha : Settled a) (hb : Ranged b) :
    deltasFit a (b.map Slot.extract) = true ∧ merge a (b.map Slot.extract) = b := by
  induction h with
  | nil => exact ⟨rfl, rfl⟩
  | @cons x y as bs hxy _ ih =>
      obtain ⟨hx, has⟩ := List.forall_mem_cons.mp ha
      obtain ⟨hy, hbs⟩ := List.forall_mem_cons.mp hb
      obtain ⟨hfit, hmerge⟩ := ih has hbs
      have hback := hxy.merge?_extract hx hy
      rw [List.map_cons]
      cases hextract : y.extract with
      | none =>
          rw [hextract] at hback
          refine ⟨hfit, ?_⟩
          rw [merge, hmerge, Option.some.inj hback]
      | some d =>
          rw [hextract] at hback
          have hxd : x.merge? d = some y := hback
          refine ⟨?_, ?_⟩
          · rw [deltasFit, hxd]
            exact hfit
          · rw [merge, hxd]
            exact congrArg _ hmerge

end Slots

end Packrat
