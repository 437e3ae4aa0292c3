import Packrat.Proofs.SlotContents

/-! # Extracted changes replay exactly

    From a settled state any transitions lead on (`ParseState.Transacts`): moves, commits, discards,
    replayed changes, captures closed over nodes that came later, and ways back to snapshots that
    were taken on the way.  However these are nested, all that the state held is still there, and no
    commit point lies before the end of it (`ParseState.Beyond`).

    So all that was done since is what a move of the commit points back leaves uncommitted.  It can
    be extracted, undone and replayed, and nothing tells the state from the one before
    (`ParseState.Transacts.replays`).  A list of names tells the two views apart by a length and a
    counter by two amounts; for a counter the move back adds the committed amount to the pending one,
    which is all that can be refused. -/

namespace Packrat

/-! ## One slot -/

namespace Slot

variable {a b c : Slot}

/-- The second slot still holds what the first did, and has committed no less than that. -/
inductive Beyond : Slot → Slot → Prop where
  | names {quiet : Bool} {c c' : Nat} {entries entries' : List String} :
      entries <+: entries' → entries.length ≤ c' →
      Beyond (.names quiet c entries) (.names quiet c' entries')
  | counter {c c' : Nat} (p p' : Nat) : c ≤ c' → Beyond (.counter c p) (.counter c' p')

/-- The mark leads to a slot that still holds what the slot does. -/
inductive Marked : Slot → SlotMark → Prop where
  | names {quiet : Bool} {c c' length : Nat} {entries : List String} :
      entries.length ≤ c' → entries.length ≤ length →
      Marked (.names quiet c entries) (.names c' length)
  | counter {c c' : Nat} (p p' : Nat) : c ≤ c' → Marked (.counter c p) (.counter c' p')

/-- What the second slot committed since the first is within range once it is pending again. -/
def AddsUp : Slot → Slot → Prop
  | .counter earlier _, .counter committed pending => pending + (committed - earlier) ≤ limit
  | _, _ => True

theorem Settled.beyond (h : a.Settled) : a.Beyond a := by
  cases a with
  | names quiet c entries =>
      have hc : c = entries.length := h
      exact .names (List.prefix_refl _) hc.ge
  | counter c p => exact .counter p p le_rfl

namespace Beyond

theorem grown (h : a.Beyond b) : a.Grown b := by
  cases h with
  | names hbefore => exact .names hbefore
  | counter => exact .counter _ _ _ _

/-- The mark of a slot past `a` leads to one that still holds what `a` does. -/
theorem marked (h : a.Beyond b) : a.Marked b.mark := by
  cases h with
  | names hbefore hc => exact .names hc hbefore.length_le
  | counter _ _ hc => exact .counter _ _ hc

/-- A commit moves further past the start. -/
theorem commit? (h : a.Beyond b) (hc : b.commit? = some c) : a.Beyond c := by
  cases h with
  | names hbefore =>
      cases hc
      exact .names hbefore hbefore.length_le
  | counter p p' hle =>
      simp only [Slot.commit?, Option.ite_none_right_eq_some, Option.some.injEq] at hc
      obtain ⟨-, rfl⟩ := hc
      exact .counter _ _ (by omega)

theorem discard (h : a.Beyond b) : a.Beyond b.discard := by
  cases h with
  | names hbefore hc => exact .names (List.prefix_take_iff.mpr ⟨hbefore, hc⟩) hc
  | counter _ _ hc => exact .counter _ _ hc

/-- A merge moves further past the start. -/
theorem merge? {d : SlotDelta} (h : a.Beyond b) (hc : b.merge? d = some c) : a.Beyond c := by
  cases h with
  | names hbefore hle =>
      cases d with
      | names more =>
          cases hc
          exact .names (hbefore.trans (List.prefix_append _ more)) hle
      | counter => cases hc
  | counter _ _ hle =>
      cases d with
      | names => cases hc
      | counter more =>
          simp only [Slot.merge?, Option.ite_none_right_eq_some, Option.some.injEq] at hc
          obtain ⟨-, rfl⟩ := hc
          exact .counter _ _ hle

/-- Going back to a mark taken past the start does not go before it. -/
theorem restore? {m : SlotMark} (h : a.Beyond b) (hm : a.Marked m) (hc : b.restore? m = some c) :
    a.Beyond c := by
  cases h with
  | names hbefore =>
      cases hm with
      | names hcommitted hlength =>
          cases hc
          exact .names (List.prefix_take_iff.mpr ⟨hbefore, hlength⟩) hcommitted
  | counter =>
      cases hm with
      | counter _ _ hle =>
          cases hc
          exact .counter _ _ hle

/-- Uncommitting to a mark taken past the start does not go before it either. -/
theorem uncommit? {m : SlotMark} (h : a.Beyond b) (hm : a.Marked m)
    (hc : b.uncommit? m = some c) : a.Beyond c := by
  cases h with
  | names hbefore =>
      cases hm with
      | names hcommitted =>
          cases hc
          exact .names hbefore hcommitted
  | counter =>
      cases hm with
      | counter _ _ hle =>
          simp only [Slot.uncommit?, Option.ite_none_right_eq_some, Option.some.injEq] at hc
          obtain ⟨-, rfl⟩ := hc
          exact .counter _ _ hle

/-- Only a pending amount out of range keeps the commit point from moving back. -/
theorem isSome_uncommit?_mark (h : a.Beyond b) : (b.uncommit? a.mark).isSome ↔ a.AddsUp b := by
  cases h with
  | names => simp [mark, Slot.uncommit?, AddsUp]
  | counter _ _ hle => simp [mark, Slot.uncommit?, AddsUp, hle]

end Beyond

/-- A counter that is uncommitted without a fault is in range. -/
theorem ranged_uncommit? {m : SlotMark} (hc : b.uncommit? m = some c) : c.Ranged := by
  cases b with
  | names =>
      cases m with
      | names =>
          cases hc
          trivial
      | counter => cases hc
  | counter =>
      cases m with
      | names => cases hc
      | counter =>
          simp only [Slot.uncommit?, Option.ite_none_right_eq_some, Option.some.injEq] at hc
          obtain ⟨⟨-, hle⟩, rfl⟩ := hc
          exact hle

end Slot

/-! ## Lists of slots

    A slot that refuses a transition stays as it is, and so do the slots behind it. -/

namespace Slots

variable {a b : List Slot}

/-- What a transition by marks keeps of each slot. -/
theorem beyond_withMarks {step : Slot → SlotMark → Option Slot} {marks : List SlotMark}
    (hstep : ∀ {x y z m}, Slot.Beyond x y → x.Marked m → step y m = some z → x.Beyond z)
    (h : List.Forall₂ Slot.Beyond a b) (hmarks : List.Forall₂ Slot.Marked a marks) :
    List.Forall₂ Slot.Beyond a (withMarks step b marks) := by
  induction h generalizing marks with
  | nil =>
      cases hmarks
      exact .nil
  | @cons x y as bs hxy hrest ih =>
      cases hmarks with
      | @cons _ m _ ms hm hms =>
          cases hy : step y m with
          | none =>
              simp only [withMarks, hy]
              exact .cons hxy hrest
          | some z =>
              simp only [withMarks, hy]
              exact .cons (hstep hxy hm hy) (ih hms)

theorem beyond_commit (h : List.Forall₂ Slot.Beyond a b) :
    List.Forall₂ Slot.Beyond a (commit b) := by
  induction h with
  | nil => exact .nil
  | @cons x y as bs hxy hrest ih =>
      cases hy : y.commit? with
      | none =>
          simp only [commit, hy]
          exact .cons hxy hrest
      | some z =>
          simp only [commit, hy]
          exact .cons (hxy.commit? hy) ih

theorem beyond_merge (h : List.Forall₂ Slot.Beyond a b) (deltas : List (Option SlotDelta)) :
    List.Forall₂ Slot.Beyond a (merge b deltas) := by
  induction h generalizing deltas with
  | nil => cases deltas <;> exact .nil
  | @cons x y as bs hxy hrest ih =>
      cases deltas with
      | nil => exact .cons hxy hrest
      | cons d deltas =>
          cases d with
          | none => exact .cons hxy (ih deltas)
          | some d =>
              cases hy : y.merge? d with
              | none =>
                  simp only [merge, hy]
                  exact .cons hxy hrest
              | some z =>
                  simp only [merge, hy]
                  exact .cons (hxy.merge? hy) (ih deltas)

/-- Uncommitting succeeds exactly if no counter adds up to more than it can hold. -/
theorem marksFit_uncommit_iff (h : List.Forall₂ Slot.Beyond a b) :
    marksFit Slot.uncommit? b (a.map Slot.mark) = true ↔ List.Forall₂ Slot.AddsUp a b := by
  induction h with
  | nil => exact ⟨fun _ => .nil, fun _ => rfl⟩
  | @cons x y as bs hxy _ ih =>
      rw [List.map_cons, marksFit, Bool.and_eq_true, hxy.isSome_uncommit?_mark, ih,
        List.forall₂_cons]

/-- A list of slots can always be restored to a mark taken before. -/
theorem marksFit_restore_mark (h : List.Forall₂ Slot.Grown a b) :
    marksFit Slot.restore? b (a.map Slot.mark) = true := by
  induction h with
  | nil => rfl
  | @cons x y as bs hxy _ ih =>
      rw [List.map_cons, marksFit, hxy.restore?, ih]
      rfl

/-- Moving back the commit points, what is pending is in range wherever it was not refused. -/
theorem ranged_uncommit {marks : List SlotMark} (hlength : b.length ≤ marks.length)
    (hfit : marksFit Slot.uncommit? b marks = true) : Ranged (uncommit b marks) := by
  induction b generalizing marks with
  | nil => exact fun slot hslot => nomatch hslot
  | cons y bs ih =>
      cases marks with
      | nil => cases hlength
      | cons m ms =>
          rw [marksFit, Bool.and_eq_true, Option.isSome_iff_exists] at hfit
          obtain ⟨⟨z, hz⟩, hrest⟩ := hfit
          simp only [uncommit, withMarks, hz]
          refine List.forall_mem_cons.mpr ⟨Slot.ranged_uncommit? hz, ih ?_ hrest⟩
          exact Nat.le_of_succ_le_succ hlength

end Slots

/-! ## Whole states -/

namespace ParseState

variable {s t : ParseState} {marks : List Snapshot}

/-- States that transitions lead to from `s`, with the snapshots that were taken on the way.  A
    transition that a slot refuses leads on as well, to the state that it leaves. -/
inductive Transacts (s : ParseState) : List Snapshot → ParseState → Prop where
  | begun : Transacts s [] s
  | moved {marks : List Snapshot} {t : ParseState} (stop : Nat) :
      Transacts s marks t → Transacts s marks (t.moveTo stop)
  | committed {marks : List Snapshot} {t : ParseState} :
      Transacts s marks t → Transacts s marks t.commit
  | discarded {marks : List Snapshot} {t : ParseState} :
      Transacts s marks t → Transacts s marks t.discard
  | merged {marks : List Snapshot} {t : ParseState} (c : Changes) :
      Transacts s marks t → Transacts s marks (t.merge c)
  | closed {marks : List Snapshot} {t : ParseState} {base : Nat} (mode : CaptureMode)
      (start stop : Nat) (text : Option String) :
      Transacts s marks t → s.captures.length ≤ base →
      Transacts s marks { t with captures := t.captures.close base mode start stop text }
  | marked {marks : List Snapshot} {t : ParseState} :
      Transacts s marks t → Transacts s (t.snapshot :: marks) t
  | restored {marks : List Snapshot} {t : ParseState} {mark : Snapshot} :
      Transacts s marks t → mark ∈ marks → Transacts s marks (t.restore mark)
  | uncommitted {marks : List Snapshot} {t : ParseState} {mark : Snapshot} :
      Transacts s marks t → mark ∈ marks → Transacts s marks (t.uncommit mark)

/-- `t` still holds what `s` did, and no commit point of `t` lies before the end of that. -/
structure Beyond (s t : ParseState) : Prop where
  scope : t.scope = s.scope
  nodes : s.captures.nodes <+: t.captures.nodes
  committed : s.captures.length ≤ t.captures.committed
  slots : List.Forall₂ Slot.Beyond s.slots t.slots

/-- The snapshot leads to a state that still holds what `s` did. -/
structure Marked (s : ParseState) (mark : Snapshot) : Prop where
  committed : s.captures.length ≤ mark.captures.committed
  length : s.captures.length ≤ mark.captures.length
  slots : List.Forall₂ Slot.Marked s.slots mark.slots

theorem Settled.beyond (hs : s.Settled) : s.Beyond s :=
  ⟨rfl, List.prefix_refl _, hs.captures.ge,
    List.forall₂_same.mpr fun slot hslot => (hs.slots slot hslot).beyond⟩

namespace Beyond

theorem grown (h : s.Beyond t) : s.Grown t :=
  ⟨h.scope, h.nodes, h.slots.imp fun _ _ hab => hab.grown⟩

/-- The snapshot of a state past `s` leads to one that still holds what `s` did. -/
theorem marked (h : s.Beyond t) : s.Marked t.snapshot :=
  ⟨h.committed, h.nodes.length_le,
    List.forall₂_map_right_iff.mpr (h.slots.imp fun _ _ hab => hab.marked)⟩

theorem commit (h : s.Beyond t) : s.Beyond t.commit :=
  ⟨h.scope, h.nodes, h.nodes.length_le, Slots.beyond_commit h.slots⟩

theorem discard (h : s.Beyond t) : s.Beyond t.discard :=
  ⟨h.scope, List.prefix_take_iff.mpr ⟨h.nodes, h.committed⟩, h.committed,
    List.forall₂_map_right_iff.mpr (h.slots.imp fun _ _ hab => hab.discard)⟩

theorem merge (h : s.Beyond t) (c : Changes) : s.Beyond (t.merge c) :=
  ⟨h.scope, h.nodes.trans (List.prefix_append _ _), h.committed,
    Slots.beyond_merge h.slots c.slots⟩

/-- Nodes before the base of a capture stay. -/
theorem close {base : Nat} (h : s.Beyond t) (hbase : s.captures.length ≤ base) (mode : CaptureMode)
    (start stop : Nat) (text : Option String) :
    s.Beyond { t with captures := t.captures.close base mode start stop text } := by
  have htake : s.captures.nodes <+: t.captures.nodes.take base :=
    List.prefix_take_iff.mpr ⟨h.nodes, hbase⟩
  refine ⟨h.scope, ?_, ?_, h.slots⟩
  · simp only [CaptureBuffer.close]
    split <;> exact htake.trans (List.prefix_append _ _)
  · simp only [CaptureBuffer.close]
    split <;> exact h.committed

theorem restore {mark : Snapshot} (h : s.Beyond t) (hmark : s.Marked mark) :
    s.Beyond (t.restore mark) :=
  ⟨h.scope, List.prefix_take_iff.mpr ⟨h.nodes, hmark.length⟩, hmark.committed,
    Slots.beyond_withMarks Slot.Beyond.restore? h.slots hmark.slots⟩

theorem uncommit {mark : Snapshot} (h : s.Beyond t) (hmark : s.Marked mark) :
    s.Beyond (t.uncommit mark) :=
  ⟨h.scope, h.nodes, hmark.committed,
    Slots.beyond_withMarks Slot.Beyond.uncommit? h.slots hmark.slots⟩

end Beyond

/-- Transitions stay beyond a settled state, and so do the snapshots that are taken. -/
theorem Transacts.beyond (hs : s.Settled) (h : s.Transacts marks t) :
    s.Beyond t ∧ ∀ mark ∈ marks, s.Marked mark := by
  induction h with
  | begun => exact ⟨hs.beyond, by simp⟩
  | moved stop _ ih => exact ⟨⟨ih.1.scope, ih.1.nodes, ih.1.committed, ih.1.slots⟩, ih.2⟩
  | committed _ ih => exact ⟨ih.1.commit, ih.2⟩
  | discarded _ ih => exact ⟨ih.1.discard, ih.2⟩
  | merged c _ ih => exact ⟨ih.1.merge c, ih.2⟩
  | closed mode start stop text _ hbase ih =>
      exact ⟨ih.1.close hbase mode start stop text, ih.2⟩
  | marked _ ih => exact ⟨ih.1, List.forall_mem_cons.mpr ⟨ih.1.marked, ih.2⟩⟩
  | restored _ hmark ih => exact ⟨ih.1.restore (ih.2 _ hmark), ih.2⟩
  | uncommitted _ hmark ih => exact ⟨ih.1.uncommit (ih.2 _ hmark), ih.2⟩

/-- What was added to a settled state, replayed on top of it, leads back to where it was added. -/
theorem Kept.merge_extract (h : s.Kept t) (hs : s.Settled) (hranged : Slots.Ranged t.slots) :
    s.canMerge t.extract = true ∧ s.merge t.extract = t := by
  obtain ⟨hfit, hslots⟩ := Slots.merge_extract h.slots hs.slots hranged
  refine ⟨hfit, ?_⟩
  have hnodes : s.captures.nodes ++ t.captures.nodes.drop t.captures.committed
      = t.captures.nodes := by
    obtain ⟨added, hadded⟩ := h.nodes
    rw [h.committed, hs.captures, CaptureBuffer.length, ← hadded, List.drop_left]
  obtain ⟨hseeds, hfloors, hrecording⟩ := eq_of_scope h.scope
  have hstart := h.start
  have hcommitted := h.committed
  obtain ⟨start, stop, recording, ⟨nodes, committed⟩, seeds, floors, slots⟩ := t
  dsimp only at hstart hcommitted hseeds hfloors hrecording hnodes
  subst hstart hcommitted hseeds hfloors hrecording
  simp only [ParseState.merge, extract, CaptureBuffer.merge, CaptureBuffer.extract, hnodes, hslots]

/-- Whatever led here from a settled state, the commit points move back to it unless an amount that
    is pending then would be out of range.  What is uncommitted then can be extracted, undone and
    replayed, and the state is as it was. -/
theorem Transacts.replays (h : s.Transacts marks t) (hs : s.Settled) :
    (t.canUncommit s.snapshot = true ↔ List.Forall₂ Slot.AddsUp s.slots t.slots) ∧
      (t.canUncommit s.snapshot = true →
        (t.uncommit s.snapshot).canRestore s.snapshot = true ∧
        ((t.uncommit s.snapshot).restore s.snapshot).canMerge
          (t.uncommit s.snapshot).extract = true ∧
        ((t.uncommit s.snapshot).restore s.snapshot).merge (t.uncommit s.snapshot).extract
          = t.uncommit s.snapshot) := by
  obtain ⟨hbeyond, -⟩ := h.beyond hs
  refine ⟨Slots.marksFit_uncommit_iff hbeyond.slots, fun hfit => ?_⟩
  have hkept : s.Kept (t.uncommit s.snapshot) := hbeyond.grown.uncommit hfit
  have hranged : Slots.Ranged (t.uncommit s.snapshot).slots := by
    refine Slots.ranged_uncommit ?_ hfit
    exact (hbeyond.slots.length_eq.symm.trans (List.length_map ..).symm).le
  obtain ⟨hmerge, hsame⟩ := hkept.merge_extract hs hranged
  refine ⟨Slots.marksFit_restore_mark hkept.grown.slots, ?_⟩
  rw [hkept.grown.restore]
  exact ⟨hmerge, hsame⟩

/-- A word and an amount are taken over; what follows is undone once, then kept with a capture around
    all of it, and its commit point moved back. -/
def tallied : ParseState :=
  let word : Changes := { stop := 2, captures := [{ start := 0, stop := 2 }]
                          slots := [some (.names ["ab"]), some (.counter 2)] }
  let more : Changes := { stop := 5, captures := [{ start := 3, stop := 5 }]
                          slots := [some (.names ["cd"]), some (.counter 3)] }
  let begun := ((initial [.names, .counter]).merge word).commit
  let undone := ((begun.moveTo 3).merge more).commit.restore begun.snapshot
  let kept := ((undone.moveTo 3).merge more).commit
  ({ kept with captures := kept.captures.close 0 (.node "pair") 0 5 none }).uncommit begun.snapshot

/-- A history that counts and names: all that `replays` asks for holds of it. -/
theorem Transacts.replays_tallied :
    let s := initial [.names, .counter]
    (∃ marks, s.Transacts marks tallied) ∧ s.Settled ∧
      tallied.canUncommit s.snapshot = true ∧
      (tallied.uncommit s.snapshot).slots = [.names false 0 ["ab", "cd"], .counter 0 5] ∧
      ((tallied.uncommit s.snapshot).restore s.snapshot).slots
        = [.names false 0 [], .counter 0 0] ∧
      ((tallied.uncommit s.snapshot).restore s.snapshot).merge (tallied.uncommit s.snapshot).extract
        = tallied.uncommit s.snapshot := by
  intro s
  have hhistory : ∃ marks, s.Transacts marks tallied := by
    refine ⟨_, .uncommitted (.closed (.node "pair") 0 5 none (.committed (.merged _ (.moved 3
      (.restored (.committed (.merged _ (.moved 3 (.marked (.committed (.merged _ .begun))))))
        (List.mem_singleton_self _))))) le_rfl) (List.mem_singleton_self _)⟩
  obtain ⟨marks, h⟩ := hhistory
  have hs : s.Settled := settled_initial _
  have hfit : tallied.canUncommit s.snapshot = true := rfl
  exact ⟨⟨marks, h⟩, hs, hfit, rfl, rfl, ((h.replays hs).2 hfit).2.2⟩

end ParseState

end Packrat
