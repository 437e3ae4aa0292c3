import Packrat.Proofs.Lockstep.Machines
import Packrat.Proofs.Relabeling.Tables

/-! # Machines and programs under other ids

    Two machines are the same under other ids if all that mentions ids does so under the other ids
    and the rest is equal; the logs may be any.  Two programs keep in STEP if from such machines
    they end alike: with the same fault, or with related values and machines that are again the same
    (`InStep`).  That is a `Lockstep`, with all that mentions ids under other ids on the second
    machine (`Relabeling.lockstep`). -/

namespace Packrat

/-- A machine that has kept nothing, in a given state. -/
def Machine.fresh (c : Config) (s : ParseState) : Machine :=
  { Machine.initial c with state := s }

namespace Relabeling

open Matching

variable {ρ : Relabeling ExprId}

/-! ## Failures -/

/-- The same failures, under the new ids. -/
inductive CarriesFailures (ρ : Relabeling ExprId) : Failures → Failures → Prop where
  | farthest (position : Option Nat) {failed : List ExprId} (hpart : ∀ id ∈ failed, ρ.part id) :
      CarriesFailures ρ (.farthest { position, failed })
        (.farthest { position, failed := failed.map ρ.image })
  | unset : CarriesFailures ρ (.first none) (.first none)
  | first {id : ExprId} (position : Nat) (hpart : ρ.part id) :
      CarriesFailures ρ (.first (some (id, position))) (.first (some (ρ.image id, position)))
  | silent : CarriesFailures ρ .silent .silent

theorem carriesFailures_initial (policy : FailurePolicy) :
    ρ.CarriesFailures (.initial policy) (.initial policy) := by
  cases policy with
  | farthest | farthestLogged => exact .farthest none (List.forall_mem_nil _)
  | first => exact .unset
  | silent => exact .silent

theorem contains_map_image {ids : List ExprId} (hids : ∀ i ∈ ids, ρ.part i) {id : ExprId}
    (hid : ρ.part id) : (ids.map ρ.image).contains (ρ.image id) = ids.contains id := by
  rw [Bool.eq_iff_iff, List.contains_iff_mem, List.contains_iff_mem, List.mem_map]
  constructor
  · rintro ⟨i, hi, heq⟩
    exact ρ.injective i id (hids i hi) hid heq ▸ hi
  · exact fun h => ⟨id, h, rfl⟩

theorem CarriesFailures.record {f f' : Failures} (h : ρ.CarriesFailures f f') {id : ExprId}
    (hid : ρ.part id) (position : Nat) :
    ρ.CarriesFailures (f.record id position) (f'.record (ρ.image id) position) := by
  have hone : ∀ i ∈ [id], ρ.part i := List.forall_mem_singleton.mpr hid
  cases h with
  | unset => exact .first position hid
  | first other hpart => exact .first other hpart
  | silent => exact .silent
  | @farthest best failed hpart =>
      simp only [Failures.record, Farthest.record]
      cases best with
      | none => exact .farthest (some position) hone
      | some best =>
          dsimp only
          rw [contains_map_image hpart hid]
          split
          · exact .farthest (some best) hpart
          · split
            · split
              · exact .farthest (some best) hpart
              · rw [← List.map_singleton, ← List.map_append]
                exact .farthest (some best) (List.forall_mem_append.mpr ⟨hpart, hone⟩)
            · exact .farthest (some position) hone

/-! ## Machines -/

/-- The same state, with seeds and floors under the new ids. -/
inductive CarriesState (ρ : Relabeling ExprId) (s : ParseState) : ParseState → Prop where
  | intro {seeds : Seeds ExactDigest} {floors : Floors} (hseeds : ρ.CarriesSeeds s.seeds seeds)
      (hfloors : ρ.CarriesFloors s.floors floors) : CarriesState ρ s { s with seeds, floors }

/-- The fingerprints are the same under the new ids. -/
theorem CarriesState.print {s s' : ParseState} (h : ρ.CarriesState s s') :
    ρ.CarriesPrint s.fingerprint s'.fingerprint := by
  obtain ⟨hseeds, hfloors⟩ := h
  exact ⟨hseeds.left.increasing_atoms, hseeds.right.increasing_atoms, hseeds.digest, hfloors, rfl,
    rfl⟩

/-- The same machine under the new ids, but for the log. -/
structure CarriesMachine (ρ : Relabeling ExprId) (m m' : Machine) : Prop where
  state : ρ.CarriesState m.state m'.state
  memo : ρ.CarriesTable m.memo m'.memo
  failures : ρ.CarriesFailures m.failures m'.failures
  tally : m'.tally = m.tally

/-- A state without seeds and floors in a machine that has kept nothing mentions no ids. -/
theorem carriesMachine_fresh (c : Config) {s : ParseState} (hseeds : s.seeds = .empty)
    (hfloors : s.floors.explicit = []) : ρ.CarriesMachine (.fresh c s) (.fresh c s) where
  state := by
    obtain ⟨start, stop, recording, captures, seeds, ⟨explicit, fallback⟩, slots⟩ := s
    obtain rfl : seeds = .empty := hseeds
    obtain rfl : explicit = [] := hfloors
    exact ⟨carriesSeeds_empty, .uniform fallback⟩
  memo := carriesTable_withBits 6
  failures := carriesFailures_initial c.failures
  tally := rfl

/-! ## Programs -/

variable {α β : Type} {Q : α → β → Prop}

/-- The same fault, or related values and the same machine under the new ids. -/
inductive Ends (ρ : Relabeling ExprId) (Q : α → β → Prop) :
    EStateM.Result Fault Machine α → EStateM.Result Fault Machine β → Prop where
  | ok {a : α} {b : β} {m m' : Machine} (hvalue : Q a b) (hmachine : ρ.CarriesMachine m m') :
      Ends ρ Q (.ok a m) (.ok b m')
  | error (e : Fault) (m m' : Machine) : Ends ρ Q (.error e m) (.error e m')

/-- From machines that are the same under the new ids the two programs end alike. -/
def InStep (ρ : Relabeling ExprId) (Q : α → β → Prop) (x : Matching α) (y : Matching β) : Prop :=
  ∀ m m', ρ.CarriesMachine m m' → ρ.Ends Q (x m) (y m')

/-! ## In lockstep -/

/-- Matching next to the same expressions under other ids. -/
def lockstep (ρ : Relabeling ExprId) : Lockstep where
  part := ρ.part
  image := ρ.image
  seeds := ρ.CarriesSeeds
  floors := ρ.CarriesFloors
  memo := ρ.CarriesTable
  failures := ρ.CarriesFailures
  log _ _ := True
  fault := Eq
  get? h hk := h.seeds.answer _ hk
  isBlocked h hid := h.isBlocked hid
  insert seed h hk := h.insert hk seed
  remove h hk := h.remove hk
  setBlocked blocked h hid := h.setBlocked hid blocked
  unblockAll h := h.unblockAll
  restoreBlocked h h' := h.restoreBlocked h'
  reset hf hh hid := by
    rw [hf.explicit.answer _ hid]
    exact hh.reset hid _
  record position h hid := h.record hid position
  recordLog _ _ _ := trivial
  sameFault _ := rfl

theorem carriesState_iff {s s' : ParseState} : ρ.CarriesState s s' ↔ ρ.lockstep.State s s' := by
  constructor
  · rintro ⟨hseeds, hfloors⟩
    exact ⟨hseeds, hfloors⟩
  · rintro ⟨hseeds, hfloors⟩
    exact ⟨hseeds, hfloors⟩

/-- What does not depend on seeds and floors is equal. -/
theorem CarriesState.reads {s s' : ParseState} (h : ρ.CarriesState s s') {γ : Type}
    {f : ParseState → γ} (hf : ∀ s seeds floors, f { s with seeds, floors } = f s) : f s' = f s :=
  (carriesState_iff.mp h).reads hf

theorem carriesMachine_iff {m m' : Machine} :
    ρ.CarriesMachine m m' ↔ ρ.lockstep.Machines m m' := by
  constructor
  · rintro ⟨hstate, hmemo, hfailures, htally⟩
    exact ⟨carriesState_iff.mp hstate, hmemo, hfailures, htally, trivial⟩
  · rintro ⟨hstate, hmemo, hfailures, htally, -⟩
    exact ⟨carriesState_iff.mpr hstate, hmemo, hfailures, htally⟩

/-- Programs that keep in lockstep end alike from machines that are the same under the new ids. -/
theorem inStep_of_lockstep {x : Matching α} {y : Matching β} (h : ρ.lockstep.InStep Q x y) :
    ρ.InStep Q x y := by
  intro m m' hm
  have hends := h m m' (carriesMachine_iff.mp hm)
  generalize x m = r at hends ⊢
  generalize y m' = r' at hends ⊢
  cases hends with
  | ok hvalue hmachine => exact .ok hvalue (carriesMachine_iff.mpr hmachine)
  | error hfault hmachine =>
      cases hfault
      exact .error ..

end Relabeling

end Packrat
