import Packrat.Proofs.Lockstep.Invocation
import Packrat.Proofs.Relabeling.Machines

/-! # Matching under other ids

    Take a part of a grammar that is closed under children, and a grammar that has the same
    expressions under other ids and skips the same after tokens.  Then the grammars correspond
    (`CarriesGrammar.ties`) and so do the keys of outcomes, so matching an expression of the part
    and matching it under its other id keep in step, whatever the nesting and the limits
    (`invoke_inStep`): the memo table answers for the one when it does for the other, and the same
    failures are recorded. -/

namespace Packrat.Relabeling

open Matching Engine

/-- The callers match in step what is in the part. -/
def Callers (ρ : Relabeling ExprId) (call call' : Caller) : Prop :=
  ∀ id, ρ.part id → ρ.InStep Eq (call id) (call' (ρ.image id))

/-- The expressions of a part, which is closed under children, under other ids.  After a token both
    grammars skip the same. -/
structure CarriesGrammar (ρ : Relabeling ExprId) (g g' : Grammar) : Prop where
  node : ∀ id, ρ.part id → ∃ e e', g.node? id = some e ∧ g'.node? (ρ.image id) = some e' ∧
    e'.shape = e.shape.map ρ.image ∧ e'.flags = e.flags
  children : ∀ id e, ρ.part id → g.node? id = some e → ∀ child ∈ e.shape.children, ρ.part child
  plain : ∀ id e spec children, ρ.part id → g.node? id = some e → e.shape ≠ .custom spec children
  blank : ∀ text p, (g'.whitespace.map fun ws => g'.skip text ws p) =
    g.whitespace.map fun ws => g.skip text ws p

variable {ρ : Relabeling ExprId} {g g' : Grammar} {text : Text} {c : Config}

/-! ## Grammars -/

/-- A group and the same group under other ids. -/
theorem level_map_image {id : ExprId} (hid : ρ.part id) {group : Group ExprId}
    (hpart : ∀ i ∈ group.alternatives, ρ.part i) :
    ρ.lockstep.Level id group (group.map ρ.image) where
  kind := rfl
  alternatives := rfl
  part := hpart
  floors _ _ h := h.set hid (Growth.levelFloor group)

/-- A floor admits the same groups under other ids. -/
theorem clusters_map_image {id : ExprId} (hid : ρ.part id) {groups : List (Group ExprId)}
    (hpart : ∀ group ∈ groups, ∀ i ∈ group.alternatives, ρ.part i) :
    ρ.lockstep.Clusters id groups (groups.map (Group.map ρ.image)) := by
  intro f f' hfloors
  have hfloor : f'.floor (ρ.lockstep.image id) = f.floor id := hfloors.floor hid
  simp only [hfloor]
  rw [List.takeWhile_map, List.forall₂_map_right_iff]
  refine List.forall₂_same.mpr ?_
  exact fun group hgroup =>
    level_map_image hid (hpart group ((List.takeWhile_prefix _).subset hgroup))

theorem shapes_map_image {id : ExprId} (hid : ρ.part id) {s : Shape ExprId}
    (hpart : ∀ child ∈ s.children, ρ.part child) (hplain : ∀ spec children, s ≠ .custom spec children) :
    ρ.lockstep.Shapes id s (s.map ρ.image) := by
  cases s with
  | cluster groups =>
      refine .cluster (clusters_map_image hid ?_)
      exact fun group hgroup i hi => hpart i (List.mem_flatMap.mpr ⟨group, hgroup, hi⟩)
  | minPrecedence operand floor =>
      exact .minPrecedence (hpart operand (List.mem_singleton_self operand)) (.uniform floor)
  | custom spec children => exact absurd rfl (hplain spec children)
  | literal | any | range | set | sequence | choice | optional | zeroMore | oneMore | lookahead
  | not | token | capture | leftRecursive | reference => exact .plain rfl hpart

theorem CarriesGrammar.ties (h : ρ.CarriesGrammar g g') : ρ.lockstep.Ties g g' text where
  node id hid := by
    obtain ⟨e, e', he, he', hshape, hflags⟩ := h.node id hid
    show ρ.lockstep.Nodes id (g.node? id) (g'.node? (ρ.image id))
    rw [he, he']
    refine .found hflags (hshape ▸ ?_)
    exact shapes_map_image hid (h.children id e hid he) fun spec children =>
      h.plain id e spec children hid he
  skip := by
    have hblank := h.blank text
    generalize g.whitespace = blank at hblank ⊢
    generalize g'.whitespace = blank' at hblank ⊢
    cases blank with
    | none =>
        rw [Option.map_eq_none_iff.mp (hblank 0)]
        exact .none
    | some ws =>
        obtain ⟨ws', rfl, -⟩ := Option.map_eq_some_iff.mp (hblank 0)
        refine .some fun p => ?_
        have hskip : g'.skip text ws' p = g.skip text ws p := Option.some.inj (hblank p)
        rw [hskip]
        exact Lockstep.answers_refl _

/-! ## Matching -/

/-- Keys in states that are the same under other ids. -/
theorem carriesKey_of_keys {k k' : MemoKey Fingerprint} (h : ρ.lockstep.Keys k k') :
    ρ.CarriesKey k k' := by
  cases h with
  | intro hstate hpart =>
      have hprint := (carriesState_iff.mpr hstate).print
      have hrecording := hstate.reads (f := ParseState.recording) fun _ _ _ => rfl
      exact ⟨hpart, rfl, hstate.reads (f := ParseState.stop) fun _ _ _ => rfl,
        { hprint with recording := hrecording }⟩

theorem memoizes (policy : MemoPolicy) : ρ.lockstep.Memoizes policy where
  get? _ ht hk := ht.get? (carriesKey_of_keys hk)
  insert outcome _ ht hk := ht.insert (carriesKey_of_keys hk) outcome
  log _ _ _ := trivial

/-- Matching an expression and matching it under its other id keep in step. -/
theorem invoke_inStep (hg : ρ.CarriesGrammar g g') (nesting : Nat) :
    ρ.Callers (invoke ⟨g, text, c⟩ nesting) (invoke ⟨g', text, c⟩ nesting) := fun id hid =>
  inStep_of_lockstep (Lockstep.invoke_inStep hg.ties (.inr (memoizes c.memo)) nesting id hid)

end Packrat.Relabeling
