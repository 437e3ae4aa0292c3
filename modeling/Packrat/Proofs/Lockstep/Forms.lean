import Mathlib.Data.List.Forall2
import Mathlib.Data.Option.Basic
import Packrat.Engine.Combinators
import Packrat.Engine.Growth
import Packrat.Proofs.Lockstep.Machines

/-! # Forms in lockstep

    A form looks at ids only to match its children, and to find the seed, the block and the floor of
    the boundary that it is.  So it keeps in step with the form of the corresponding expression, once
    its caller matches every child in step with the child that corresponds to it.

    Of the floors that correspond nothing is known but what a `Lockstep` tells.  A cluster needs
    more: the groups that its floor admits correspond too, and so do the floors that they set. -/

namespace Packrat.Lockstep

open Matching

/-- The callers match in step what is in the part. -/
def Callers (L : Lockstep) (call call' : Caller) : Prop :=
  ∀ id, L.part id → L.InStep Eq (call id) (call' (L.image id))

variable {L : Lockstep} {call call' : Caller} {operand id : ExprId}

/-! ## Plain forms -/

section Plain

open Combinators

theorem terminal_inStep (stop : Option Nat) : L.InStep Eq (terminal stop) (terminal stop) := by
  cases stop with
  | none => exact .value false
  | some stop => exact (InStep.moveTo stop).andThen (.value true)

variable (hcall : L.Callers call call')
include hcall

/-- Each item is matched in step with the item that corresponds to it. -/
theorem matchAll_inStep (items : List ExprId) (hitems : ∀ i ∈ items, L.part i) :
    L.InStep Eq (matchAll call items) (matchAll call' (items.map L.image)) := by
  induction items with
  | nil => exact .value true
  | cons item rest ih =>
      obtain ⟨hitem, hrest⟩ := List.forall_mem_cons.mp hitems
      refine (hcall item hitem).bindEq ?_
      intro matched
      cases matched with
      | true => exact InStep.commit.andThen (ih hrest)
      | false => exact .value false

/-- A sequence uncommits or goes back to the same snapshot on either side. -/
theorem sequence_inStep (items : List ExprId) (hitems : ∀ i ∈ items, L.part i) :
    L.InStep Eq (sequence call items) (sequence call' (items.map L.image)) := by
  refine InStep.state.bind fun s s' hs => ?_
  obtain ⟨-, -⟩ := hs
  refine (matchAll_inStep hcall items hitems).bindEq ?_
  intro matched
  cases matched with
  | true => exact (InStep.uncommit _).andThen (.value true)
  | false => exact (InStep.restore _).andThen (.value false)

/-- A choice ends with the same alternative, counted from the first. -/
theorem choice_inStep (items : List ExprId) (hitems : ∀ i ∈ items, L.part i) :
    L.InStep Eq (choice call items) (choice call' (items.map L.image)) := by
  induction items with
  | nil => exact .value false
  | cons item rest ih =>
      obtain ⟨hitem, hrest⟩ := List.forall_mem_cons.mp hitems
      refine (hcall item hitem).bindEq ?_
      intro matched
      cases matched with
      | true => exact .value true
      | false => exact ih hrest

variable (hoperand : L.part operand)
include hoperand

theorem optional_inStep :
    L.InStep Eq (optional call operand) (optional call' (L.image operand)) :=
  (hcall operand hoperand).bindEq fun _ => .value true

/-- A repetition ends in the same round: whether a round stays in place is seen from positions. -/
theorem matchMany_inStep (rounds count : Nat) :
    L.InStep Eq (matchMany call operand rounds count)
      (matchMany call' (L.image operand) rounds count) := by
  induction rounds generalizing count with
  | zero => exact .value count
  | succ rounds ih =>
      refine InStep.state.bind fun before _ hbefore => ?_
      obtain ⟨-, -⟩ := hbefore
      refine (hcall operand hoperand).bindEq ?_
      intro matched
      cases matched with
      | false => exact .value count
      | true =>
          refine InStep.state.bind fun s _ hs => ?_
          obtain ⟨-, -⟩ := hs
          by_cases hstay : s.stop = before.stop
          · simp only [if_pos hstay]
            exact InStep.discard.andThen (.value count)
          · simp only [if_neg hstay]
            exact InStep.commit.andThen (ih (count + 1))

/-- Rounds are counted alike, so they are enough on both sides or on neither. -/
theorem repetition_inStep (text : Text) (least : Nat) :
    L.InStep Eq (repetition call text least operand)
      (repetition call' text least (L.image operand)) := by
  refine InStep.state.bind fun begun _ hbegun => ?_
  obtain ⟨-, -⟩ := hbegun
  refine (matchMany_inStep hcall hoperand _ 0).bindEq ?_
  intro count
  by_cases hfew : count < least
  · simp only [if_pos hfew]
    exact (InStep.restore _).andThen (.value false)
  · simp only [if_neg hfew]
    exact (InStep.uncommit _).andThen (.value true)

theorem lookahead_inStep :
    L.InStep Eq (lookahead call operand) (lookahead call' (L.image operand)) := by
  refine (hcall operand hoperand).bindEq ?_
  intro matched
  cases matched with
  | true => exact InStep.discard.andThen (.value true)
  | false => exact .value false

/-- Recording is turned off and on again, whatever the operand does. -/
theorem negation_inStep :
    L.InStep Eq (negation call operand) (negation call' (L.image operand)) := by
  refine InStep.state.bind fun begun _ hbegun => ?_
  obtain ⟨-, -⟩ := hbegun
  have hrecording : ∀ recording s s', L.State s s' →
      L.State { s with recording } { s' with recording } :=
    fun recording _ _ hs => hs.frame (u := ({ · with recording })) fun _ _ _ => rfl
  refine (InStep.onState (hrecording false)).andThen ?_
  refine ((hcall operand hoperand).thenAlways (hrecording begun.recording)).bindEq ?_
  intro matched
  cases matched with
  | true => exact InStep.discard.andThen (.value false)
  | false => exact .value true

/-- What is skipped after a token is skipped in step. -/
theorem token_inStep {setting setting' : Setting}
    (hskip : Option.Rel (fun ws ws' => ∀ p,
        L.Answers (setting.grammar.skip setting.text ws p)
          (setting'.grammar.skip setting'.text ws' p))
      setting.grammar.whitespace setting'.grammar.whitespace) :
    L.InStep Eq (token call setting operand) (token call' setting' (L.image operand)) := by
  refine (hcall operand hoperand).bindEq ?_
  intro matched
  cases matched with
  | false => exact .value false
  | true =>
      simp only [if_true]
      generalize setting.grammar.whitespace = blank at hskip ⊢
      generalize setting'.grammar.whitespace = blank' at hskip ⊢
      cases hskip with
      | none => exact .value true
      | some hskip =>
          refine InStep.state.bind fun s _ hs => ?_
          obtain ⟨-, -⟩ := hs
          refine (InStep.lift (hskip s.stop)).bindEq ?_
          intro stop
          cases stop with
          | none => exact (InStep.value ()).bindEq fun _ => .value true
          | some stop => exact (InStep.moveTo stop).andThen (.value true)

/-- A capture node is made of the captures and positions of both sides, which are the same. -/
theorem capture_inStep (text : Text) (mode : CaptureMode) :
    L.InStep Eq (capture call text operand mode) (capture call' text (L.image operand) mode) := by
  refine InStep.state.bind fun begun _ hbegun => ?_
  obtain ⟨-, -⟩ := hbegun
  refine (hcall operand hoperand).bindEq ?_
  intro matched
  cases matched with
  | false => exact .value false
  | true =>
      refine InStep.state.bind fun s _ hs => ?_
      obtain ⟨-, -⟩ := hs
      exact (InStep.frame fun _ _ _ => rfl).andThen (.value true)

end Plain

/-! ## Growing seeds -/

section Growing

open Growth

/-- A seed holds no ids, so it is merged as it is. -/
theorem replay_inStep (seed : Option Changes) : L.InStep Eq (replay seed) (replay seed) := by
  cases seed with
  | none => exact .value false
  | some changes => exact (InStep.merge changes).andThen (.value true)

variable {key : SeedKey} (hkey : L.part key.expr)
include hkey

/-- What was found becomes the seed at the key, and at the renamed key on the other side. -/
theorem install_inStep (mark : Snapshot) :
    L.InStep Eq (install key mark) (install (key.rename L.image) mark) := by
  refine InStep.state.bind fun s _ hs => ?_
  obtain ⟨-, -⟩ := hs
  refine (InStep.restore mark).andThen ?_
  refine (InStep.onTally _).andThen ?_
  exact (InStep.onSeeds fun _ _ h => L.insert _ h hkey).andThen (.value _)

variable (hcall : L.Callers call call')
include hcall

/-- A boundary grows the same seeds, under keys that correspond. -/
theorem grow_inStep (hoperand : L.part operand) (mark : Snapshot) (runs : Nat)
    (best : Option Changes) :
    L.InStep Eq (grow call key operand mark runs best)
      (grow call' (key.rename L.image) (L.image operand) mark runs best) := by
  induction runs generalizing best with
  | zero => exact .value best
  | succ runs ih =>
      refine (hcall operand hoperand).bindEq ?_
      intro matched
      cases matched with
      | false => exact .value best
      | true =>
          refine InStep.state.bind fun s _ hs => ?_
          obtain ⟨-, -⟩ := hs
          by_cases hadvances : advances s.stop best = true
          · simp only [if_pos hadvances]
            exact (install_inStep hkey mark).bindEq fun changes => ih (some changes)
          · simp only [if_neg hadvances]
            exact (InStep.restore mark).andThen (.value best)

/-- Alternatives are tried in the same order until one surpasses the seed. -/
theorem climbOnce_inStep (mark : Snapshot) (best : Option Changes) (alternatives : List ExprId)
    (halternatives : ∀ i ∈ alternatives, L.part i) :
    L.InStep Eq (climbOnce call key mark best alternatives)
      (climbOnce call' (key.rename L.image) mark best (alternatives.map L.image)) := by
  induction alternatives with
  | nil => exact .value none
  | cons alternative rest ih =>
      obtain ⟨halternative, hrest⟩ := List.forall_mem_cons.mp halternatives
      refine (hcall alternative halternative).bindEq ?_
      intro matched
      cases matched with
      | false => exact ih hrest
      | true =>
          refine InStep.state.bind fun s _ hs => ?_
          obtain ⟨-, -⟩ := hs
          by_cases hadvances : advances s.stop best = true
          · simp only [if_pos hadvances]
            exact (install_inStep hkey mark).bindEq fun changes => .value (some changes)
          · simp only [if_neg hadvances]
            exact (InStep.restore mark).andThen (ih hrest)

/-- A group and one that corresponds to it take the same seed to the same seed. -/
theorem climb_inStep {group group' : Group ExprId} (hkind : group'.kind = group.kind)
    (halternatives : group'.alternatives = group.alternatives.map L.image)
    (hpart : ∀ i ∈ group.alternatives, L.part i) (mark : Snapshot) (rounds : Nat)
    (best : Option Changes) :
    L.InStep Eq (climb call key group mark rounds best)
      (climb call' (key.rename L.image) group' mark rounds best) := by
  induction rounds generalizing best with
  | zero => exact .value best
  | succ rounds ih =>
      simp only [climb, hkind, halternatives]
      refine (climbOnce_inStep hkey hcall mark best group.alternatives hpart).bindEq ?_
      intro grown
      cases grown with
      | none => exact .value best
      | some changes =>
          by_cases hgrows : group.kind.grows = true
          · simp only [if_pos hgrows]
            exact ih (some changes)
          · simp only [if_neg hgrows]
            exact .value (some changes)

/-- Groups that correspond: the same alternatives, tried alike, under floors that correspond. -/
structure Level (L : Lockstep) (id : ExprId) (group group' : Group ExprId) : Prop where
  kind : group'.kind = group.kind
  alternatives : group'.alternatives = group.alternatives.map L.image
  part : ∀ i ∈ group.alternatives, L.part i
  floors : ∀ f f', L.floors f f' →
    L.floors (f.set id (levelFloor group)) (f'.set (L.image id) (levelFloor group'))

/-- Groups that correspond one by one hand the same seed on, under floors that correspond. -/
theorem climbAll_inStep (text : Text) {groups groups' : List (Group ExprId)}
    (hgroups : List.Forall₂ (L.Level key.expr) groups groups') (best : Option Changes) :
    L.InStep Eq (climbAll call text key groups best)
      (climbAll call' text (key.rename L.image) groups' best) := by
  induction hgroups generalizing best with
  | nil => exact .value best
  | cons hlevel _ ih =>
      refine (InStep.onState fun _ _ hs => ?_).andThen ?_
      · exact hs.withFloors hlevel.floors
      · refine InStep.state.bind fun s _ hs => ?_
        obtain ⟨-, -⟩ := hs
        exact (climb_inStep hkey hcall hlevel.kind hlevel.alternatives hlevel.part _ _ best).bindEq ih

end Growing

/-! ## Boundaries -/

section Boundaries

open Growth

/-- Whatever the floors are, as long as they correspond, the groups that they admit correspond. -/
def Clusters (L : Lockstep) (id : ExprId) (groups groups' : List (Group ExprId)) : Prop :=
  ∀ f f', L.floors f f' → List.Forall₂ (L.Level id)
    (groups.takeWhile fun group => f.floor id ≤ group.precedence)
    (groups'.takeWhile fun group => f'.floor (L.image id) ≤ group.precedence)

variable (hcall : L.Callers call call') (hid : L.part id)
include hcall

include hid in
/-- A boundary and its image find the same seed and the same block, and grow alike if there is none.
    -/
theorem leftRecursive_inStep (hoperand : L.part operand) (text : Text) (assoc : Bool) :
    L.InStep Eq (leftRecursive call text id operand assoc)
      (leftRecursive call' text (L.image id) (L.image operand) assoc) := by
  refine InStep.state.bind fun begun _ hbegun => ?_
  obtain ⟨hseeds, -⟩ := hbegun
  dsimp only
  have hkey : L.part (SeedKey.mk id begun.stop).expr := hid
  have hget := L.get? hseeds hkey
  simp only [SeedKey.rename] at hget
  rw [hget, L.isBlocked hseeds hid]
  split
  · exact replay_inStep _
  · split
    · refine (InStep.onSeeds fun _ _ h => L.setBlocked false (L.insert none h hkey) hid).andThen ?_
      refine (hcall operand hoperand).thenAlways fun _ _ hs => ?_
      exact hs.withSeeds fun _ _ h => L.remove (L.setBlocked true h hid) hkey
    · refine (InStep.onSeeds fun _ _ h => ?_).andThen ?_
      · cases assoc with
        | true => exact L.setBlocked true (L.insert none h hkey) hid
        | false => exact L.insert none h hkey
      · refine InStep.bindEq ?_ replay_inStep
        refine (grow_inStep hkey hcall hoperand _ _ none).thenAlways fun _ _ hs => ?_
        cases assoc with
        | true => exact hs.withSeeds fun _ _ h => L.remove (L.setBlocked false h hid) hkey
        | false => exact hs.withSeeds fun _ _ h => L.remove h hkey

include hid in
/-- A cluster and its image run groups that correspond, by what `Clusters` says of the floors. -/
theorem cluster_inStep (text : Text) {groups groups' : List (Group ExprId)}
    (hgroups : L.Clusters id groups groups') :
    L.InStep Eq (cluster call text id groups) (cluster call' text (L.image id) groups') := by
  refine InStep.state.bind fun begun _ hbegun => ?_
  obtain ⟨hseeds, hfloors⟩ := hbegun
  dsimp only
  have hkey : L.part (SeedKey.mk id begun.stop).expr := hid
  have hget := L.get? hseeds hkey
  simp only [SeedKey.rename] at hget
  rw [hget]
  split
  · exact replay_inStep _
  · refine (InStep.onSeeds fun _ _ h => L.insert none h hkey).andThen ?_
    refine InStep.bindEq ?_ replay_inStep
    refine (climbAll_inStep hkey hcall text (hgroups _ _ hfloors) none).thenAlways fun _ _ hs => ?_
    exact (hs.withFloors fun _ _ h => L.reset hfloors h hid).withSeeds fun _ _ h =>
      L.remove h hkey

/-- The floor of a reset corresponds to itself, so resets keep in step. -/
theorem minPrecedence_inStep (hoperand : L.part operand) {floor : Precedence}
    (hfloor : L.floors (.uniform floor) (.uniform floor)) :
    L.InStep Eq (minPrecedence call operand floor)
      (minPrecedence call' (L.image operand) floor) := by
  refine InStep.state.bind fun begun _ hbegun => ?_
  obtain ⟨hseeds, hfloors⟩ := hbegun
  refine (InStep.onState fun _ _ hs => ?_).andThen ?_
  · exact (hs.withFloors fun _ _ _ => hfloor).withSeeds fun _ _ h => L.unblockAll h
  · refine (hcall operand hoperand).thenAlways fun _ _ hs => ?_
    exact (hs.withFloors fun _ _ _ => hfloors).withSeeds fun _ _ h => L.restoreBlocked h hseeds

end Boundaries

end Packrat.Lockstep
