import Packrat.Proofs.SeedContents
import Packrat.State.Basic

/-!
# Rollback: what the transitions of the parse state keep

A match starts in a settled state: nothing is uncommitted. Two relations say what may have happened
since. A state is *grown* from an earlier one if it still holds all of it, wherever the commit
points are now; then the snapshot of the earlier state leads back to it. It is *kept* if moreover
the commit points are where they were; then dropping the uncommitted view leads back.

Seeds, floors and the recording flag are not undone by snapshots. They form the scope of a state, and
both relations ask that it is the same.

* **`ParseState.Settled`**, **`ParseState.Grown`**, **`ParseState.Kept`** — the notions.
* **`Grown.restore`**, **`Grown.uncommit`**, **`Kept.discard`** — the ways back.
* **`Kept.merge`**, **`Kept.close`**, **`Grown.commit`** — additions keep what was there.
-/

namespace Packrat

/-! ## One slot -/

namespace Slot

/-- Nothing was added since the commit point. -/
def Settled : Slot → Prop
  | .names _ committed entries => committed = entries.length
  | .counter _ pending => pending = 0

/-- The second slot holds what the first did, and perhaps more. -/
inductive Grown : Slot → Slot → Prop where
  | names {quiet : Bool} {c c' : Nat} {entries entries' : List String} :
      entries <+: entries' → Grown (.names quiet c entries) (.names quiet c' entries')
  | counter (c p c' p' : Nat) : Grown (.counter c p) (.counter c' p')

/-- The second slot holds what the first did, with the same commit point. -/
inductive Kept : Slot → Slot → Prop where
  | names {quiet : Bool} {c : Nat} {entries entries' : List String} :
      entries <+: entries' → Kept (.names quiet c entries) (.names quiet c entries')
  | counter (c p p' : Nat) : Kept (.counter c p) (.counter c p')

theorem Grown.refl (a : Slot) : Grown a a := by
  cases a with
  | names => exact .names (List.prefix_refl _)
  | counter => exact .counter _ _ _ _

theorem Kept.refl (a : Slot) : Kept a a := by
  cases a with
  | names => exact .names (List.prefix_refl _)
  | counter => exact .counter _ _ _

theorem Kept.grown {a b : Slot} (h : Kept a b) : Grown a b := by
  cases h with
  | names h => exact .names h
  | counter => exact .counter _ _ _ _

theorem Grown.trans {a b c : Slot} (hab : Grown a b) (hbc : Grown b c) : Grown a c := by
  cases hab with
  | names h =>
      cases hbc with
      | names h' => exact .names (h.trans h')
  | counter =>
      cases hbc with
      | counter => exact .counter _ _ _ _

theorem Kept.trans {a b c : Slot} (hab : Kept a b) (hbc : Kept b c) : Kept a c := by
  cases hab with
  | names h =>
      cases hbc with
      | names h' => exact .names (h.trans h')
  | counter =>
      cases hbc with
      | counter => exact .counter _ _ _

/-- A slot that has only grown is restored to what it was when it was marked. -/
theorem Grown.restore? {a b : Slot} (h : Grown a b) : b.restore? a.mark = some a := by
  cases h with
  | names h => simp [Slot.restore?, mark, List.prefix_iff_eq_take.mp h |>.symm]
  | counter => rfl

/-- Uncommitting keeps what was committed before the mark and forgets the rest. -/
theorem Grown.uncommit? {a b c : Slot} (h : Grown a b) (hc : b.uncommit? a.mark = some c) :
    Kept a c := by
  cases h with
  | names h =>
      cases hc
      exact .names h
  | counter =>
      simp only [Slot.uncommit?, mark, Option.ite_none_right_eq_some, Option.some.injEq] at hc
      rw [← hc.2]
      exact .counter _ _ _

/-- Discarding what is pending leaves a settled slot as it was. -/
theorem Kept.discard {a b : Slot} (h : Kept a b) (ha : a.Settled) : b.discard = a := by
  cases h with
  | names h =>
      have hc : _ = _ := ha
      simp only [Slot.discard, hc, ← List.prefix_iff_eq_take.mp h]
  | counter =>
      have hp : _ = 0 := ha
      rw [Slot.discard, hp]

/-- A commit adds what is pending to what is committed, and nothing is left pending. -/
theorem commit?_spec {a b : Slot} (h : a.commit? = some b) : Grown a b ∧ b.Settled := by
  cases a with
  | names quiet c entries =>
      cases h
      exact ⟨.names (List.prefix_refl _), rfl⟩
  | counter c p =>
      simp only [Slot.commit?, Option.ite_none_right_eq_some, Option.some.injEq] at h
      rw [← h.2]
      exact ⟨.counter _ _ _ _, rfl⟩

/-- A counter that fits can be committed. -/
theorem isSome_commit? {a : Slot} (h : a.fits) : ∃ b, a.commit? = some b := by
  cases a with
  | names quiet c entries => exact ⟨_, rfl⟩
  | counter c p =>
      have hle : c + p ≤ limit := by simpa [fits] using h
      exact ⟨_, by rw [commit?, if_pos hle]⟩

/-- A merge adds to what is pending alone. -/
theorem merge?_kept {a b : Slot} {d : SlotDelta} (h : a.merge? d = some b) : Kept a b := by
  cases a with
  | names quiet c entries =>
      cases d with
      | names more =>
          cases h
          exact .names (List.prefix_append entries more)
      | counter more => cases h
  | counter c p =>
      cases d with
      | names more => cases h
      | counter more =>
          simp only [Slot.merge?, Option.ite_none_right_eq_some, Option.some.injEq] at h
          rw [← h.2]
          exact .counter _ _ _

/-- A settled slot has nothing to extract. -/
theorem extract_of_settled {a : Slot} (h : a.Settled) : a.extract = none := by
  cases a with
  | names quiet c entries =>
      have hc : c = entries.length := h
      simp [Slot.extract, hc]
  | counter c p =>
      have hp : p = 0 := h
      simp [Slot.extract, hp]

end Slot

/-! ## Lists of slots -/

namespace Slots

variable {a b : List Slot}

theorem grown_refl (a : List Slot) : List.Forall₂ Slot.Grown a a :=
  List.forall₂_same.mpr fun slot _ => .refl slot

theorem kept_refl (a : List Slot) : List.Forall₂ Slot.Kept a a :=
  List.forall₂_same.mpr fun slot _ => .refl slot

theorem grown_trans {c : List Slot} (hab : List.Forall₂ Slot.Grown a b)
    (hbc : List.Forall₂ Slot.Grown b c) : List.Forall₂ Slot.Grown a c := by
  induction hab generalizing c with
  | nil => exact hbc
  | cons h _ ih =>
      cases hbc with
      | cons h' rest => exact .cons (h.trans h') (ih rest)

theorem kept_trans {c : List Slot} (hab : List.Forall₂ Slot.Kept a b)
    (hbc : List.Forall₂ Slot.Kept b c) : List.Forall₂ Slot.Kept a c := by
  induction hab generalizing c with
  | nil => exact hbc
  | cons h _ ih =>
      cases hbc with
      | cons h' rest => exact .cons (h.trans h') (ih rest)

theorem grown_set {i : Nat} {x y : Slot} (hi : a[i]? = some x) (hxy : x.Grown y) :
    List.Forall₂ Slot.Grown a (a.set i y) := by
  induction a generalizing i with
  | nil => exact .nil
  | cons z rest ih =>
      cases i with
      | zero =>
          cases hi
          exact .cons hxy (grown_refl rest)
      | succ i => exact .cons (.refl z) (ih hi)

/-- Slots that have only grown are restored to what they were when they were marked. -/
theorem restore_mark (h : List.Forall₂ Slot.Grown a b) : restore b (a.map Slot.mark) = a := by
  induction h with
  | nil => rfl
  | cons h _ ih =>
      simp only [restore, List.map_cons, withMarks, h.restore?] at ih ⊢
      rw [ih]

/-- Where no counter overflows, uncommitting keeps what was committed at the mark. -/
theorem kept_uncommit (h : List.Forall₂ Slot.Grown a b)
    (hfit : marksFit Slot.uncommit? b (a.map Slot.mark)) :
    List.Forall₂ Slot.Kept a (uncommit b (a.map Slot.mark)) := by
  induction h with
  | nil => exact .nil
  | @cons x y as bs h _ ih =>
      simp only [List.map_cons, marksFit, Bool.and_eq_true, Option.isSome_iff_exists] at hfit
      obtain ⟨⟨z, hz⟩, hrest⟩ := hfit
      simp only [uncommit, List.map_cons, withMarks, hz]
      exact .cons (h.uncommit? hz) (ih hrest)

/-- Discarding what was added to settled slots gives them back. -/
theorem discard_of_kept (h : List.Forall₂ Slot.Kept a b) (ha : ∀ slot ∈ a, slot.Settled) :
    b.map Slot.discard = a := by
  induction h with
  | nil => rfl
  | @cons x y as bs h _ ih =>
      have hx : x.Settled := ha x (List.mem_cons_self ..)
      have has : ∀ slot ∈ as, slot.Settled := fun slot hs => ha slot (List.mem_cons_of_mem x hs)
      rw [List.map_cons, h.discard hx, ih has]

/-- A commit grows every slot and settles all of them. -/
theorem commit_spec (h : fit b) :
    List.Forall₂ Slot.Grown b (commit b) ∧ ∀ slot ∈ commit b, slot.Settled := by
  induction b with
  | nil => exact ⟨.nil, by simp [commit]⟩
  | cons x rest ih =>
      simp only [fit, List.all_cons, Bool.and_eq_true] at h
      obtain ⟨y, hy⟩ := Slot.isSome_commit? h.1
      obtain ⟨hgrown, hsettled⟩ := Slot.commit?_spec hy
      obtain ⟨ihg, ihs⟩ := ih h.2
      simp only [commit, hy]
      exact ⟨.cons hgrown ihg, List.forall_mem_cons.mpr ⟨hsettled, ihs⟩⟩

/-- A merge leaves what is committed alone. -/
theorem kept_merge {deltas : List (Option SlotDelta)} (h : deltasFit b deltas) :
    List.Forall₂ Slot.Kept b (merge b deltas) := by
  induction b generalizing deltas with
  | nil =>
      cases deltas <;> exact .nil
  | cons x rest ih =>
      cases deltas with
      | nil => exact kept_refl _
      | cons d deltas =>
          cases d with
          | none => exact .cons (.refl x) (ih h)
          | some d =>
              simp only [deltasFit, Bool.and_eq_true, Option.isSome_iff_exists] at h
              obtain ⟨⟨y, hy⟩, hrest⟩ := h
              simp only [merge, hy]
              exact .cons (Slot.merge?_kept hy) (ih hrest)

theorem merge_none {deltas : List (Option SlotDelta)} (h : ∀ d ∈ deltas, d = none) :
    merge b deltas = b := by
  induction b generalizing deltas with
  | nil => cases deltas <;> rfl
  | cons x rest ih =>
      cases deltas with
      | nil => rfl
      | cons d deltas =>
          obtain ⟨rfl, hrest⟩ := List.forall_mem_cons.mp h
          rw [merge, ih hrest]

end Slots

/-- Changes that do nothing at a position. -/
structure Changes.Idle (c : Changes) (position : Nat) : Prop where
  stop : c.stop = position
  captures : c.captures = []
  slots : ∀ d ∈ c.slots, d = none

/-! ## Scopes -/

/-- The part of a parse state that snapshots leave alone. -/
structure Scope where
  seeds : Seeds ExactDigest
  floors : Floors
  recording : Bool

/-- Seeds and floors that are determined by their contents. -/
structure Scope.Canonical (c : Scope) : Prop where
  seeds : c.seeds.Canonical
  floors : c.floors.Canonical

namespace ParseState

variable {s t u : ParseState}

/-- Seeds, floors and the recording flag. -/
def scope (s : ParseState) : Scope :=
  { seeds := s.seeds, floors := s.floors, recording := s.recording }

/-- The state with another scope. -/
def withScope (s : ParseState) (c : Scope) : ParseState :=
  { s with seeds := c.seeds, floors := c.floors, recording := c.recording }

/-- A state that took over seeds, floors and flag from `s`. -/
theorem eq_withScope {s : ParseState} (t : ParseState) {seeds : Seeds ExactDigest}
    {floors : Floors} {recording : Bool} (hseeds : seeds = s.seeds) (hfloors : floors = s.floors)
    (hrecording : recording = s.recording) :
    ({ t with seeds, floors, recording } : ParseState) = t.withScope s.scope := by
  subst hseeds hfloors hrecording
  rfl

/-! ## Whole states -/

/-- The uncommitted view is empty. -/
structure Settled (s : ParseState) : Prop where
  positions : s.start = s.stop
  captures : s.captures.committed = s.captures.length
  slots : ∀ slot ∈ s.slots, slot.Settled

/-- `t` still holds what `s` did, wherever its commit points are. -/
structure Grown (s t : ParseState) : Prop where
  scope : t.scope = s.scope
  nodes : s.captures.nodes <+: t.captures.nodes
  slots : List.Forall₂ Slot.Grown s.slots t.slots

/-- `t` still holds what `s` did, with the same commit points. -/
structure Kept (s t : ParseState) : Prop where
  scope : t.scope = s.scope
  start : t.start = s.start
  committed : t.captures.committed = s.captures.committed
  nodes : s.captures.nodes <+: t.captures.nodes
  slots : List.Forall₂ Slot.Kept s.slots t.slots

theorem Grown.refl (s : ParseState) : s.Grown s :=
  ⟨rfl, List.prefix_refl _, Slots.grown_refl _⟩

theorem Kept.refl (s : ParseState) : s.Kept s :=
  ⟨rfl, rfl, rfl, List.prefix_refl _, Slots.kept_refl _⟩

theorem Kept.grown (h : s.Kept t) : s.Grown t :=
  ⟨h.scope, h.nodes, h.slots.imp fun _ _ hab => hab.grown⟩

theorem Grown.trans (hst : s.Grown t) (htu : t.Grown u) : s.Grown u :=
  ⟨htu.scope.trans hst.scope, hst.nodes.trans htu.nodes, Slots.grown_trans hst.slots htu.slots⟩

theorem Settled.withScope (h : s.Settled) (c : Scope) : (s.withScope c).Settled :=
  ⟨h.positions, h.captures, h.slots⟩

/-- What happened under another scope is kept once the scope is put back. -/
theorem Kept.withScope {c : Scope} (h : (s.withScope c).Kept t) : s.Kept (t.withScope s.scope) :=
  ⟨rfl, h.start, h.committed, h.nodes, h.slots⟩

/-- The scope of a state can be read off the parts. -/
theorem eq_of_scope (h : t.scope = s.scope) :
    t.seeds = s.seeds ∧ t.floors = s.floors ∧ t.recording = s.recording := by
  simp only [ParseState.scope, Scope.mk.injEq] at h
  exact h

/-- The snapshot of a state leads back to it from wherever it has grown. -/
theorem Grown.restore (h : s.Grown t) : t.restore s.snapshot = s := by
  obtain ⟨hseeds, hfloors, hrecording⟩ := eq_of_scope h.scope
  have hnodes : t.captures.nodes.take s.captures.length = s.captures.nodes :=
    (List.prefix_iff_eq_take.mp h.nodes).symm
  have hslots : Slots.restore t.slots (s.slots.map Slot.mark) = s.slots :=
    Slots.restore_mark h.slots
  simp only [ParseState.restore, snapshot, CaptureBuffer.restore, CaptureBuffer.mark, hnodes,
    hslots, hseeds, hfloors, hrecording]

/-- Moving the commit points back to a snapshot keeps the state it was taken of. -/
theorem Grown.uncommit (h : s.Grown t) (hfit : t.canUncommit s.snapshot) :
    s.Kept (t.uncommit s.snapshot) :=
  ⟨h.scope, rfl, rfl, h.nodes, Slots.kept_uncommit h.slots hfit⟩

/-- Dropping the uncommitted view leads back to a settled state. -/
theorem Kept.discard (h : s.Kept t) (hs : s.Settled) : t.discard = s := by
  obtain ⟨hseeds, hfloors, hrecording⟩ := eq_of_scope h.scope
  have hnodes : t.captures.nodes.take s.captures.committed = s.captures.nodes := by
    rw [hs.captures]
    exact (List.prefix_iff_eq_take.mp h.nodes).symm
  have hslots : t.slots.map Slot.discard = s.slots := Slots.discard_of_kept h.slots hs.slots
  have hstart := h.start
  have hcommitted := h.committed
  obtain ⟨start, stop, recording, captures, seeds, floors, slots⟩ := s
  obtain rfl : start = stop := hs.positions
  simp only [ParseState.discard, CaptureBuffer.discard, hcommitted, hnodes, hslots, hstart,
    hseeds, hfloors, hrecording]

/-- A commit grows the state, provided that no counter overflows. -/
theorem Grown.commit (h : s.Grown t) (hfit : t.countersFit) : s.Grown t.commit :=
  ⟨h.scope, h.nodes, Slots.grown_trans h.slots (Slots.commit_spec hfit).1⟩

/-- Nothing is uncommitted after a commit. -/
theorem settled_commit (hfit : t.countersFit) : t.commit.Settled :=
  ⟨rfl, rfl, (Slots.commit_spec hfit).2⟩

theorem Grown.moveTo (h : s.Grown t) (stop : Nat) : s.Grown (t.moveTo stop) :=
  ⟨h.scope, h.nodes, h.slots⟩

/-- A slot replaced by one grown from it. -/
theorem Grown.setSlot (h : s.Grown t) {i : Nat} {a b : Slot} (hi : t.slots[i]? = some a)
    (hab : a.Grown b) : s.Grown { t with slots := t.slots.set i b } := by
  refine ⟨h.scope, h.nodes, Slots.grown_trans h.slots ?_⟩
  exact Slots.grown_set hi hab

/-- Replayed changes keep what was there. -/
theorem Kept.merge {c : Changes} (h : s.Kept t) (hfit : t.canMerge c) : s.Kept (t.merge c) :=
  ⟨h.scope, h.start, h.committed, h.nodes.trans (List.prefix_append _ _),
    Slots.kept_trans h.slots (Slots.kept_merge hfit)⟩

theorem Kept.moveTo (h : s.Kept t) (stop : Nat) : s.Kept (t.moveTo stop) :=
  ⟨h.scope, h.start, h.committed, h.nodes, h.slots⟩

/-- Closing a capture that was opened in `s` keeps what was there. -/
theorem Kept.close (h : s.Kept t) (mode : CaptureMode) (start stop : Nat) (text : Option String) :
    s.Kept { t with captures := t.captures.close s.captures.length mode start stop text } := by
  refine ⟨h.scope, h.start, ?_, ?_, h.slots⟩
  · rw [← h.committed]
    simp only [CaptureBuffer.close]
    split <;> rfl
  · have htake : t.captures.nodes.take s.captures.length = s.captures.nodes :=
      (List.prefix_iff_eq_take.mp h.nodes).symm
    simp only [CaptureBuffer.close]
    split
    · rw [htake]
      exact List.prefix_append _ _
    · rw [htake]
      exact List.prefix_append _ _

/-- The changes of a settled state do nothing where it stands. -/
theorem idle_extract (h : s.Settled) : s.extract.Idle s.stop := by
  refine ⟨rfl, ?_, ?_⟩
  · simp only [extract, CaptureBuffer.extract, h.captures, CaptureBuffer.length]
    exact List.drop_length
  · intro d hd
    obtain ⟨slot, hslot, rfl⟩ := List.mem_map.mp hd
    exact Slot.extract_of_settled (h.slots slot hslot)

/-- Changes that write nothing and stay in place are merged without a trace. -/
theorem merge_idle {c : Changes} (h : c.Idle s.stop) : s.merge c = s := by
  simp only [merge, h.stop, CaptureBuffer.merge, h.captures, List.append_nil,
    Slots.merge_none h.slots]

end ParseState

/-- A parse starts with nothing pending. -/
theorem settled_initial (kinds : List SlotKind) : (ParseState.initial kinds).Settled := by
  refine ⟨rfl, rfl, ?_⟩
  intro slot hslot
  obtain ⟨kind, -, rfl⟩ := List.mem_map.mp hslot
  cases kind <;> rfl

end Packrat
