import Packrat.Proofs.Contract.Invocation
import Packrat.Proofs.SlotContents

/-! # Parse states that match alike

    Two parse states are alike if the next match does the same in both, as far as positions go:
    they stand at the same place, with the same floors and blocked boundaries, and their seeds are
    installed under the same keys and reach equally far.  Of the captures nothing is asked, unless
    the states are to be alike *exactly*; then the captures are the same, those of the seeds
    included.  The second state has no slots, or the states are *slotted*: the slots are the same and
    sound, and the seeds add nothing to them.

    Every transition of the parse state takes states that are alike to such states.  A fingerprint
    decides likeness unless it is to be exact: it sees how far a seed reaches, and neither what the
    seed captured nor what it adds to slots. -/

namespace Packrat

variable {slotted : Bool} {exact : Prop}

/-! ## Options related member by member -/

section Rel

variable {α β : Type} {r r' : α → β → Prop} {x x' : Option α} {y : Option β}

theorem rel_imp (h : Option.Rel r x y) (himp : ∀ a b, r a b → r' a b) : Option.Rel r' x y := by
  cases h with
  | some h => exact .some (himp _ _ h)
  | none => exact .none

theorem rel_map_eq {γ : Type} {f : α → γ} {g : β → γ} (h : Option.Rel r x y)
    (hfg : ∀ a b, r a b → f a = g b) : x.map f = y.map g := by
  cases h with
  | some h => exact congrArg some (hfg _ _ h)
  | none => rfl

/-- A relation of members is carried to new members that show the same. -/
theorem rel_of_map_eq {γ : Type} {f : α → γ} {r'' : α → β → Prop} {y' : Option β}
    (hx : x'.map f = x.map f) (h : Option.Rel r x y) (h' : Option.Rel r' x' y')
    (himp : ∀ a a' b b', f a' = f a → r a b → r' a' b' → r'' a' b) : Option.Rel r'' x' y := by
  cases h with
  | some h =>
      cases h' with
      | some h' => exact .some (himp _ _ _ _ (Option.some.inj hx) h h')
      | none => cases hx
  | none =>
      cases h' with
      | some => cases hx
      | none => exact .none

end Rel

/-! ## Changes -/

namespace Changes

/-- The changes without those of slots. -/
def plain (c : Changes) : Changes :=
  { c with slots := [] }

/-- Both changes add nothing to slots, or the second has none. -/
def SlotsAlike : Bool → Changes → Changes → Prop
  | true, c, d => c.Bare ∧ d.Bare
  | false, _, d => d.slots = []

/-- Changes that reach equally far. -/
structure Alike (slotted : Bool) (exact : Prop) (c d : Changes) : Prop where
  stop : c.stop = d.stop
  slots : SlotsAlike slotted c d
  captures : exact → c.captures = d.captures

/-- Exactness may be given up. -/
theorem Alike.mono {exact' : Prop} {c d : Changes} (h : c.Alike slotted exact d)
    (he : exact' → exact) : c.Alike slotted exact' d :=
  ⟨h.stop, h.slots, fun hexact => h.captures (he hexact)⟩

/-- The second of exactly alike changes is the first without slots. -/
theorem Alike.plain_eq {c d : Changes} (h : c.Alike false exact d) (hexact : exact) :
    c.plain = d := by
  obtain ⟨stop, captures, slots⟩ := d
  obtain rfl : slots = [] := h.slots
  have hstop := h.stop
  have hcaptures := h.captures hexact
  simp_all [Changes.plain]

/-- Changes that reach equally far are alike to the same changes. -/
theorem Alike.of_stop_eq {exact' : Prop} {c d c' d' : Changes} (h : c.Alike slotted exact d)
    (h' : c'.Alike slotted exact' d') (hstop : c'.stop = c.stop) : c'.Alike slotted False d := by
  refine ⟨hstop.trans h.stop, ?_, False.elim⟩
  have hslots := h.slots
  have hslots' := h'.slots
  cases slotted with
  | true => exact ⟨hslots'.1, hslots.2⟩
  | false => exact hslots

theorem Alike.bare {c d : Changes} (h : c.Alike slotted exact d) : d.Bare := by
  cases slotted with
  | true => exact h.slots.2
  | false =>
      have hnone : d.slots = [] := h.slots
      intro delta hdelta
      rw [hnone] at hdelta
      cases hdelta

end Changes

/-- Seeds that reach equally far; a failing seed is alike only to a failing one. -/
abbrev SeedAlike (slotted : Bool) (exact : Prop) : Option Changes → Option Changes → Prop :=
  Option.Rel (Changes.Alike slotted exact)

/-- A failing seed. -/
theorem seedAlike_none : SeedAlike slotted exact none none :=
  .none

theorem SeedAlike.mono {exact' : Prop} {c d : Option Changes} (h : SeedAlike slotted exact c d)
    (he : exact' → exact) : SeedAlike slotted exact' c d :=
  rel_imp h fun _ _ h => h.mono he

/-- Alike seeds end at the same position. -/
theorem SeedAlike.stop_eq {c d : Option Changes} (h : SeedAlike slotted exact c d) :
    c.map Changes.stop = d.map Changes.stop :=
  rel_map_eq h fun _ _ h => h.stop

/-- Seeds of one end stand for each other where captures are not compared. -/
theorem SeedAlike.of_stop_eq {exact' : Prop} {c d c' d' : Option Changes}
    (h : SeedAlike slotted exact c d) (h' : SeedAlike slotted exact' c' d')
    (hstop : c'.map Changes.stop = c.map Changes.stop) : SeedAlike slotted False c' d :=
  rel_of_map_eq hstop h h' fun _ _ _ _ hstop h h' => h.of_stop_eq h' hstop

/-! ## Seeds -/

namespace Seeds

variable {a b : Seeds ExactDigest}

/-- Alike seeds under the same keys, and the same boundaries blocked. -/
structure Alike (slotted : Bool) (exact : Prop) (a b : Seeds ExactDigest) : Prop where
  left : a.Canonical
  right : b.Canonical
  get? : ∀ key, Option.Rel (SeedAlike slotted exact) (a.get? key) (b.get? key)
  blocked : a.blocked = b.blocked

theorem Alike.mono {exact' : Prop} (h : a.Alike slotted exact b) (he : exact' → exact) :
    a.Alike slotted exact' b :=
  ⟨h.left, h.right, fun key => rel_imp (h.get? key) fun _ _ h => h.mono he, h.blocked⟩

theorem Alike.isBlocked (h : a.Alike slotted exact b) (id : ExprId) :
    a.isBlocked id = b.isBlocked id := by
  rw [Seeds.isBlocked, Seeds.isBlocked, h.blocked]

/-- Installing alike seeds keeps seeds alike. -/
theorem Alike.insert (h : a.Alike slotted exact b) (key : SeedKey) {c d : Option Changes}
    (hcd : SeedAlike slotted exact c d) : (a.insert key c).Alike slotted exact (b.insert key d) := by
  refine ⟨h.left.insert key c, h.right.insert key d, ?_, h.blocked⟩
  intro j
  rw [get?_insert, get?_insert]
  split
  · exact .some hcd
  · exact h.get? j

theorem Alike.remove (h : a.Alike slotted exact b) (key : SeedKey) :
    (a.remove key).Alike slotted exact (b.remove key) := by
  refine ⟨h.left.remove key, h.right.remove key, ?_, ?_⟩
  · intro j
    rw [h.left.get?_remove, h.right.get?_remove]
    split
    · exact .none
    · exact h.get? j
  · rw [blocked_remove, blocked_remove, h.blocked]

theorem Alike.setBlocked (h : a.Alike slotted exact b) (id : ExprId) (v : Bool) :
    (a.setBlocked id v).Alike slotted exact (b.setBlocked id v) := by
  refine ⟨h.left.setBlocked id v, h.right.setBlocked id v, ?_, ?_⟩
  · intro j
    rw [get?_setBlocked, get?_setBlocked]
    exact h.get? j
  · refine (h.left.setBlocked id v).blocked.ext (h.right.setBlocked id v).blocked ?_
    intro i
    rw [h.left.mem_setBlocked, h.right.mem_setBlocked, h.blocked]

theorem Alike.unblockAll (h : a.Alike slotted exact b) :
    a.unblockAll.Alike slotted exact b.unblockAll :=
  ⟨h.left.unblockAll, h.right.unblockAll, h.get?, rfl⟩

/-- Blocked nodes are the same on both sides, and are put back alike. -/
theorem Alike.restoreBlocked (h : a.Alike slotted exact b) {ids : List ExprId}
    (hids : Ordered.Increasing ids) :
    (a.restoreBlocked ids).Alike slotted exact (b.restoreBlocked ids) :=
  ⟨h.left.restoreBlocked hids, h.right.restoreBlocked hids, h.get?, rfl⟩

/-- The digest sees how far each seed reaches. -/
theorem get?_stop_of_digest (ha : a.Canonical) (hb : b.Canonical) (h : a.digest = b.digest)
    (key : SeedKey) :
    (a.get? key).map (Option.map Changes.stop) = (b.get? key).map (Option.map Changes.stop) := by
  have hmem : ∀ stop, (∃ c, a.get? key = some c ∧ c.map Changes.stop = stop) ↔
      ∃ c, b.get? key = some c ∧ c.map Changes.stop = stop := by
    intro stop
    rw [← ha.mem_seed, ← hb.mem_seed, h]
  cases hget : a.get? key with
  | some c =>
      obtain ⟨d, hd, hstop⟩ := (hmem _).mp ⟨c, hget, rfl⟩
      rw [hd, Option.map_some, Option.map_some, hstop]
  | none =>
      cases hget' : b.get? key with
      | none => rfl
      | some d =>
          obtain ⟨c, hc, -⟩ := (hmem _).mpr ⟨d, hget', rfl⟩
          rw [hget] at hc
          cases hc

/-- A digest tells which nodes are blocked. -/
theorem blocked_of_digest (ha : a.Canonical) (hb : b.Canonical) (h : a.digest = b.digest) :
    a.blocked = b.blocked := by
  refine ha.blocked.ext hb.blocked ?_
  intro i
  rw [← ha.mem_blocked, ← hb.mem_blocked, h]

/-- Seeds with the same digest are alike to the same seeds. -/
theorem Alike.of_digest {a' b' : Seeds ExactDigest} {exact' : Prop} (h : a.Alike slotted exact b)
    (h' : a'.Alike slotted exact' b') (hdigest : a'.digest = a.digest) :
    a'.Alike slotted False b := by
  refine ⟨h'.left, h.right, ?_, (blocked_of_digest h'.left h.left hdigest).trans h.blocked⟩
  intro key
  exact rel_of_map_eq (get?_stop_of_digest h'.left h.left hdigest key) (h.get? key) (h'.get? key)
    fun _ _ _ _ hstop h h' => h.of_stop_eq h' hstop

/-- The seeds of the second parse write no slot. -/
theorem Alike.bare (h : a.Alike slotted exact b) {key : SeedKey} {d : Changes}
    (hget : b.get? key = some (some d)) : d.Bare := by
  have hkey := h.get? key
  rw [hget] at hkey
  generalize a.get? key = found at hkey
  cases hkey with
  | some hseed =>
      cases hseed with
      | some hcd => exact hcd.bare

/-- Alike seeds have the same digest. -/
theorem Alike.digest_eq (h : a.Alike slotted exact b) : a.digest = b.digest := by
  apply ExactDigest.ext_atoms
  refine h.left.increasing_atoms.ext h.right.increasing_atoms ?_
  intro atom
  cases atom with
  | seed key stop =>
      rw [h.left.mem_seed, h.right.mem_seed]
      have hstop := rel_map_eq (h.get? key) fun _ _ h => h.stop_eq
      have hsome : ∀ x : Option (Option Changes), (∃ c, x = some c ∧ c.map Changes.stop = stop) ↔
          x.map (Option.map Changes.stop) = some stop := by
        intro x
        rw [Option.map_eq_some_iff]
      rw [hsome, hsome, hstop]
  | blocked id => rw [h.left.mem_blocked, h.right.mem_blocked, h.blocked]

end Seeds

/-! ## Slots -/

namespace Slots

variable {a b a' b' : List Slot}

/-- The second slots are the first, which are sound, or there are none. -/
def Alike : Bool → List Slot → List Slot → Prop
  | true, a, b => b = a ∧ Sound a
  | false, _, b => b = []

theorem Alike.commit (h : Alike slotted a b) : Alike slotted (commit a) (commit b) := by
  cases slotted with
  | true =>
      obtain ⟨rfl, hsound⟩ := h
      exact ⟨rfl, hsound.commit⟩
  | false =>
      obtain rfl : b = [] := h
      rfl

theorem Alike.discard (h : Alike slotted a b) :
    Alike slotted (a.map Slot.discard) (b.map Slot.discard) := by
  cases slotted with
  | true =>
      obtain ⟨rfl, hsound⟩ := h
      exact ⟨rfl, hsound.discard⟩
  | false =>
      obtain rfl : b = [] := h
      rfl

theorem Alike.restore (h : Alike slotted a b) (h' : Alike slotted a' b') :
    Alike slotted (restore a (a'.map Slot.mark)) (restore b (b'.map Slot.mark)) := by
  cases slotted with
  | true =>
      obtain ⟨rfl, hsound⟩ := h
      obtain ⟨rfl, hsound'⟩ := h'
      exact ⟨rfl, hsound.restore hsound'⟩
  | false =>
      obtain rfl : b = [] := h
      rfl

/-- Going back to marks of alike slots leaves alike slots. -/
theorem Alike.uncommit (h : Alike slotted a b) (h' : Alike slotted a' b') :
    Alike slotted (uncommit a (a'.map Slot.mark)) (uncommit b (b'.map Slot.mark)) := by
  cases slotted with
  | true =>
      obtain ⟨rfl, hsound⟩ := h
      obtain ⟨rfl, -⟩ := h'
      exact ⟨rfl, hsound.uncommit _⟩
  | false =>
      obtain rfl : b = [] := h
      rfl

/-- Alike changes are merged into alike slots. -/
theorem Alike.merge (h : Alike slotted a b) {c d : Changes} (hcd : Changes.SlotsAlike slotted c d) :
    Alike slotted (merge a c.slots) (merge b d.slots) := by
  cases slotted with
  | true =>
      obtain ⟨rfl, hsound⟩ := h
      rw [merge_none hcd.1, merge_none hcd.2]
      exact ⟨rfl, hsound⟩
  | false =>
      obtain rfl : b = [] := h
      rfl

/-- Settled slots with the prints of others are alike to the same slots. -/
theorem Alike.of_prints (h : Alike slotted a b) (h' : Alike slotted a' b')
    (hprints : a'.map Slot.print = a.map Slot.print) (ha : Settled a) (ha' : Settled a') :
    Alike slotted a' b := by
  cases slotted with
  | true =>
      obtain ⟨rfl, hsound⟩ := h
      obtain ⟨-, hsound'⟩ := h'
      exact ⟨(eq_of_prints hsound' hsound ha' ha hprints).symm, hsound'⟩
  | false => exact h

/-- What was added to settled slots, added to others with their prints. -/
theorem Alike.merge_extract {a₁ b₁ : List Slot} (h₁ : Alike slotted a₁ b₁) (h : Alike slotted a b)
    (h' : Alike slotted a' b') (hprints : a'.map Slot.print = a.map Slot.print) (ha : Settled a)
    (ha' : Settled a') (hkept : List.Forall₂ Slot.Kept a a₁) :
    Alike slotted (Slots.merge a' (a₁.map Slot.extract)) b₁ := by
  cases slotted with
  | true =>
      obtain ⟨rfl, hsound₁⟩ := h₁
      obtain rfl := eq_of_prints h'.2 h.2 ha' ha hprints
      rw [(Slots.merge_extract hkept ha hsound₁.ranged).2]
      exact ⟨rfl, hsound₁⟩
  | false => exact h₁

end Slots

/-! ## States -/

namespace ParseState

variable {s t s₀ t₀ : ParseState}

/-- States in which the next match does the same, as far as positions go. -/
structure Alike (slotted : Bool) (exact : Prop) (s t : ParseState) : Prop where
  start : s.start = t.start
  stop : s.stop = t.stop
  recording : s.recording = t.recording
  floors : s.floors = t.floors
  seeds : s.seeds.Alike slotted exact t.seeds
  slots : Slots.Alike slotted s.slots t.slots
  captures : exact → s.captures = t.captures

namespace Alike

theorem mono {exact' : Prop} (h : s.Alike slotted exact t) (he : exact' → exact) :
    s.Alike slotted exact' t :=
  ⟨h.start, h.stop, h.recording, h.floors, h.seeds.mono he, h.slots, fun hx => h.captures (he hx)⟩

/-- Alike states are alike exactly wherever exactness can be shown. -/
theorem of_exact (h : s.Alike slotted False t) (hexact : exact → s.Alike slotted True t) :
    s.Alike slotted exact t := by
  by_cases he : exact
  · exact (hexact he).mono fun _ => trivial
  · exact h.mono he

theorem moveTo (h : s.Alike slotted exact t) (stop : Nat) :
    (s.moveTo stop).Alike slotted exact (t.moveTo stop) :=
  ⟨h.start, rfl, h.recording, h.floors, h.seeds, h.slots, h.captures⟩

theorem commit (h : s.Alike slotted exact t) : s.commit.Alike slotted exact t.commit := by
  refine ⟨h.stop, h.stop, h.recording, h.floors, h.seeds, h.slots.commit, ?_⟩
  intro hexact
  simp only [ParseState.commit, h.captures hexact]

theorem discard (h : s.Alike slotted exact t) : s.discard.Alike slotted exact t.discard := by
  refine ⟨h.start, h.start, h.recording, h.floors, h.seeds, h.slots.discard, ?_⟩
  intro hexact
  simp only [ParseState.discard, h.captures hexact]

/-- Going back to where two states were alike. -/
theorem restore (h : s.Alike slotted exact t) (h₀ : s₀.Alike slotted exact t₀) :
    (s.restore s₀.snapshot).Alike slotted exact (t.restore t₀.snapshot) := by
  refine ⟨h₀.start, h₀.stop, h.recording, h.floors, h.seeds, h.slots.restore h₀.slots, ?_⟩
  intro hexact
  simp only [ParseState.restore, snapshot, h.captures hexact, h₀.captures hexact]

theorem uncommit (h : s.Alike slotted exact t) (h₀ : s₀.Alike slotted exact t₀) :
    (s.uncommit s₀.snapshot).Alike slotted exact (t.uncommit t₀.snapshot) := by
  refine ⟨h₀.start, h.stop, h.recording, h.floors, h.seeds, h.slots.uncommit h₀.slots, ?_⟩
  intro hexact
  simp only [ParseState.uncommit, snapshot, h.captures hexact, h₀.captures hexact]

theorem merge (h : s.Alike slotted exact t) {c d : Changes} (hcd : c.Alike slotted exact d) :
    (s.merge c).Alike slotted exact (t.merge d) := by
  refine ⟨h.start, hcd.stop, h.recording, h.floors, h.seeds, h.slots.merge hcd.slots, ?_⟩
  intro hexact
  simp only [ParseState.merge, h.captures hexact, hcd.captures hexact]

/-- What was done where slots have not changed. -/
theorem extract (h : s.Alike slotted exact t) (hsettled : slotted = true → Slots.Settled s.slots) :
    s.extract.Alike slotted exact t.extract := by
  refine ⟨h.stop, ?_, ?_⟩
  · cases slotted with
    | true =>
        have hsame : t.slots = s.slots := h.slots.1
        have hbare : s.extract.Bare := (hsettled rfl).bare
        refine ⟨hbare, ?_⟩
        show ∀ d ∈ t.slots.map Slot.extract, d = none
        rw [hsame]
        exact hbare
    | false =>
        have hnone : t.slots = [] := h.slots
        show t.slots.map Slot.extract = []
        rw [hnone, List.map_nil]
  · intro hexact
    simp only [ParseState.extract, h.captures hexact]

/-- A capture that is closed over what was matched since two states were alike. -/
theorem close (h : s.Alike slotted exact t) (h₀ : s₀.Alike slotted exact t₀) (mode : CaptureMode)
    (start stop : Nat) (text : Option String) :
    ({ s with captures := s.captures.close s₀.captures.length mode start stop text } :
      ParseState).Alike slotted exact
      { t with captures := t.captures.close t₀.captures.length mode start stop text } := by
  refine ⟨h.start, h.stop, h.recording, h.floors, h.seeds, h.slots, ?_⟩
  intro hexact
  show s.captures.close _ _ _ _ _ = t.captures.close _ _ _ _ _
  rw [h.captures hexact, h₀.captures hexact]

theorem withRecording (h : s.Alike slotted exact t) (recording : Bool) :
    ({ s with recording } : ParseState).Alike slotted exact { t with recording } :=
  ⟨h.start, h.stop, rfl, h.floors, h.seeds, h.slots, h.captures⟩

theorem withFloors (h : s.Alike slotted exact t) {a b : Floors} (hab : a = b) :
    ({ s with floors := a } : ParseState).Alike slotted exact { t with floors := b } :=
  ⟨h.start, h.stop, h.recording, hab, h.seeds, h.slots, h.captures⟩

theorem withSeeds (h : s.Alike slotted exact t) {a b : Seeds ExactDigest}
    (hab : a.Alike slotted exact b) :
    ({ s with seeds := a } : ParseState).Alike slotted exact { t with seeds := b } :=
  ⟨h.start, h.stop, h.recording, h.floors, hab, h.slots, h.captures⟩

/-- The second state refuses no more than the first. -/
theorem countersFit (h : s.Alike slotted exact t) (hfit : s.countersFit = true) :
    t.countersFit = true := by
  cases slotted with
  | true =>
      have hsame : t.slots = s.slots := h.slots.1
      rw [ParseState.countersFit, hsame]
      exact hfit
  | false =>
      have hnone : t.slots = [] := h.slots
      rw [ParseState.countersFit, hnone]
      rfl

/-- An uncommit that the first parse survives does not fault in the second. -/
theorem canUncommit (h : s.Alike slotted exact t) (h₀ : s₀.Alike slotted exact t₀)
    (hcan : s.canUncommit s₀.snapshot = true) : t.canUncommit t₀.snapshot = true := by
  cases slotted with
  | true =>
      have hsame : t.slots = s.slots := h.slots.1
      have hsame₀ : t₀.slots = s₀.slots := h₀.slots.1
      simp only [ParseState.canUncommit, snapshot, hsame, hsame₀] at hcan ⊢
      exact hcan
  | false =>
      have hnone : t.slots = [] := h.slots
      rw [ParseState.canUncommit, hnone]
      rfl

/-- A merge never faults in the second parse, whose changes write no slot. -/
theorem canMerge {c d : Changes} (hcd : c.Alike slotted exact d) : t.canMerge d = true :=
  Slots.deltasFit_bare hcd.bare

/-- Settled slots of the first state are settled in the second, and fit. -/
theorem settled_slots (h : s.Alike slotted exact t) (hs : Slots.Settled s.slots) :
    Slots.Settled t.slots ∧ t.countersFit = true := by
  cases slotted with
  | true =>
      obtain ⟨hsame, hsound⟩ : t.slots = s.slots ∧ Slots.Sound s.slots := h.slots
      rw [ParseState.countersFit, hsame]
      exact ⟨hs, hsound.fit hs⟩
  | false =>
      have hnone : t.slots = [] := h.slots
      rw [ParseState.countersFit, hnone]
      exact ⟨by rintro slot ⟨⟩, rfl⟩

/-- The second state is settled with the first if they are exactly alike. -/
theorem settled (h : s.Alike slotted exact t) (hexact : exact) (hs : s.Settled) : t.Settled := by
  refine ⟨?_, ?_, (h.settled_slots hs.slots).1⟩
  · rw [← h.start, ← h.stop, hs.positions]
  · rw [← h.captures hexact, hs.captures]

/-- A key decides likeness. -/
theorem of_key {s' t' : ParseState} {exact' : Prop} {id : ExprId} (h : s.Alike slotted exact t)
    (h' : s'.Alike slotted exact' t') (hkey : Engine.keyAt s' id = Engine.keyAt s id)
    (hs : s.Settled) (hs' : s'.Settled) : s'.Alike slotted False t := by
  have hstop : s'.stop = s.stop := congrArg MemoKey.position hkey
  have hprint := congrArg MemoKey.print hkey
  have hdigest : s'.seeds.digest = s.seeds.digest := congrArg Fingerprint.seeds hprint
  have hfloors : s'.floors = s.floors := congrArg Fingerprint.floors hprint
  have hrecording : s'.recording = s.recording := congrArg Fingerprint.recording hprint
  have hprints : s'.slots.map Slot.print = s.slots.map Slot.print :=
    congrArg Fingerprint.slots hprint
  refine ⟨?_, hstop.trans h.stop, hrecording.trans h.recording, hfloors.trans h.floors,
    h.seeds.of_digest h'.seeds hdigest, ?_, False.elim⟩
  · rw [hs'.positions, hstop, ← hs.positions, h.start]
  · exact h.slots.of_prints h'.slots hprints hs.slots hs'.slots

end Alike

end ParseState

/-! ## Keys -/

/-- The key without what it tells about slots. -/
def MemoKey.plain (key : MemoKey Fingerprint) : MemoKey Fingerprint :=
  { key with print := { key.print with slots := [] } }

/-- Alike states have the same key but for slots. -/
theorem ParseState.Alike.keyAt_eq {s t : ParseState} (h : s.Alike false exact t) (id : ExprId) :
    Engine.keyAt t id = (Engine.keyAt s id).plain := by
  have hnone : t.slots = [] := h.slots
  simp only [Engine.keyAt, MemoKey.plain, ParseState.fingerprint, h.stop, h.floors, h.recording,
    hnone, h.seeds.digest_eq, List.map_nil]

end Packrat
