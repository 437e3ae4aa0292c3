import Packrat.Proofs.Transparency.Follows

/-! # The forms keep machines coupled

    Each form is matched by the same program in both parses, over callers of which the second
    follows the first.  All that a form decides on, positions and ends of seeds, is the same in
    states that are alike, so the two programs take the same way. -/

namespace Packrat

open Matching Coupling

variable {C : Coupling} {P : ExprId → Prop} {call : Caller} {call' : Nat → Caller} {m n : Machine}
variable {s₀ t₀ : ParseState} {key : SeedKey}

namespace Combinators

theorem terminal_follows (h : C.Coupled m n) (stop : Option Nat) :
    Follows m n (terminal stop) (fun _ => terminal stop) C.Agree := by
  cases stop with
  | none => exact Follows.pure ⟨rfl, h⟩
  | some stop => exact Follows.onState_bind (Follows.pure ⟨rfl, h.withState (h.state.moveTo stop)⟩)

/-- Items are matched in order, and each commits what both parses committed. -/
theorem matchAll_follows (hcall : C.Simulates P call call') (items : List ExprId)
    (hP : ∀ i ∈ items, P i) (h : C.Coupled m n) :
    Follows m n (matchAll call items) (fun j => matchAll (call' j) items) C.Agree := by
  induction items generalizing m n with
  | nil => exact Follows.pure ⟨rfl, h⟩
  | cons item rest ih =>
      obtain ⟨hitem, hrest⟩ := List.forall_mem_cons.mp hP
      refine (hcall item m n hitem h).bind ?_
      rintro matched m₁ _ n₁ - ⟨rfl, h₁⟩
      cases matched with
      | false => exact Follows.pure ⟨rfl, h₁⟩
      | true =>
          refine Follows.transition_bind h₁.state.countersFit ?_
          exact ih hrest (h₁.withState h₁.state.commit)

/-- A sequence goes back to snapshots of states that are alike, to the commit point or all the way.
    -/
theorem sequence_follows (hcall : C.Simulates P call call') (items : List ExprId)
    (hP : ∀ i ∈ items, P i) (h : C.Coupled m n) :
    Follows m n (sequence call items) (fun j => sequence (call' j) items) C.Agree := by
  refine Follows.state_bind ((matchAll_follows hcall items hP h).bind ?_)
  rintro matched m₁ _ n₁ hlog ⟨rfl, h₁⟩
  have hbegun := alike_later h.state hlog
  cases matched with
  | true =>
      refine Follows.transition_bind (h₁.state.canUncommit hbegun) ?_
      exact Follows.pure ⟨rfl, h₁.withState (h₁.state.uncommit hbegun)⟩
  | false =>
      exact Follows.onState_bind (Follows.pure ⟨rfl, h₁.withState (h₁.state.restore hbegun)⟩)

/-- A choice stops at the same alternative in both parses. -/
theorem choice_follows (hcall : C.Simulates P call call') (items : List ExprId)
    (hP : ∀ i ∈ items, P i) (h : C.Coupled m n) :
    Follows m n (choice call items) (fun j => choice (call' j) items) C.Agree := by
  induction items generalizing m n with
  | nil => exact Follows.pure ⟨rfl, h⟩
  | cons item rest ih =>
      obtain ⟨hitem, hrest⟩ := List.forall_mem_cons.mp hP
      refine (hcall item m n hitem h).bind ?_
      rintro matched m₁ _ n₁ - ⟨rfl, h₁⟩
      cases matched with
      | true => exact Follows.pure ⟨rfl, h₁⟩
      | false => exact ih hrest h₁

theorem optional_follows (hcall : C.Simulates P call call') {operand : ExprId} (hP : P operand)
    (h : C.Coupled m n) :
    Follows m n (optional call operand) (fun j => optional (call' j) operand) C.Agree := by
  refine (hcall operand m n hP h).bind ?_
  rintro matched m₁ _ n₁ - ⟨-, h₁⟩
  exact Follows.pure ⟨rfl, h₁⟩

/-- A repetition counts the same rounds, since both parses stay in place or move on together. -/
theorem matchMany_follows (hcall : C.Simulates P call call') {operand : ExprId} (hP : P operand)
    (rounds count : Nat) (h : C.Coupled m n) :
    Follows m n (matchMany call operand rounds count)
      (fun j => matchMany (call' j) operand rounds count)
      fun a m' b n' => a = b ∧ C.Coupled m' n' := by
  induction rounds generalizing m n count with
  | zero => exact Follows.pure ⟨rfl, h⟩
  | succ rounds ih =>
      refine Follows.state_bind ((hcall operand m n hP h).bind ?_)
      rintro matched m₁ _ n₁ - ⟨rfl, h₁⟩
      cases matched with
      | false => exact Follows.pure ⟨rfl, h₁⟩
      | true =>
          refine Follows.state_bind ?_
          rw [h.state.stop, h₁.state.stop]
          by_cases hstay : n₁.state.stop = n.state.stop
          · simp only [if_pos hstay]
            exact Follows.onState_bind (Follows.pure ⟨rfl, h₁.withState h₁.state.discard⟩)
          · simp only [if_neg hstay]
            refine Follows.transition_bind h₁.state.countersFit ?_
            exact ih (count + 1) (h₁.withState h₁.state.commit)

/-- As many rounds are enough in one parse as in the other. -/
theorem repetition_follows (hcall : C.Simulates P call call') (text : Text) (least : Nat)
    {operand : ExprId} (hP : P operand) (h : C.Coupled m n) :
    Follows m n (repetition call text least operand)
      (fun j => repetition (call' j) text least operand) C.Agree := by
  refine Follows.state_bind ?_
  rw [h.state.stop]
  refine (matchMany_follows hcall hP _ 0 h).bind ?_
  rintro count m₁ _ n₁ hlog ⟨rfl, h₁⟩
  have hbegun := alike_later h.state hlog
  by_cases hfew : count < least
  · simp only [if_pos hfew]
    exact Follows.onState_bind (Follows.pure ⟨rfl, h₁.withState (h₁.state.restore hbegun)⟩)
  · simp only [if_neg hfew]
    refine Follows.transition_bind (h₁.state.canUncommit hbegun) ?_
    exact Follows.pure ⟨rfl, h₁.withState (h₁.state.uncommit hbegun)⟩

theorem lookahead_follows (hcall : C.Simulates P call call') {operand : ExprId} (hP : P operand)
    (h : C.Coupled m n) :
    Follows m n (lookahead call operand) (fun j => lookahead (call' j) operand) C.Agree := by
  refine (hcall operand m n hP h).bind ?_
  rintro matched m₁ _ n₁ - ⟨rfl, h₁⟩
  cases matched with
  | false => exact Follows.pure ⟨rfl, h₁⟩
  | true => exact Follows.onState_bind (Follows.pure ⟨rfl, h₁.withState h₁.state.discard⟩)

/-- A negation turns recording off and back on in both parses, and drops what was found. -/
theorem negation_follows (hcall : C.Simulates P call call') {operand : ExprId} (hP : P operand)
    (h : C.Coupled m n) :
    Follows m n (negation call operand) (fun j => negation (call' j) operand) C.Agree := by
  refine Follows.state_bind ?_
  rw [h.state.recording]
  refine Follows.onState_bind ?_
  have hquiet := h.withState (h.state.withRecording false)
  refine ((hcall operand _ _ hP hquiet).thenAlways (Q := C.Agree) ?_).bind ?_
  · rintro matched m₁ _ n₁ - ⟨rfl, h₁⟩
    exact ⟨rfl, h₁.withState (h₁.state.withRecording n.state.recording)⟩
  · rintro matched m₁ _ n₁ - ⟨rfl, h₁⟩
    cases matched with
    | false => exact Follows.pure ⟨rfl, h₁⟩
    | true => exact Follows.onState_bind (Follows.pure ⟨rfl, h₁.withState h₁.state.discard⟩)

/-- Blanks are skipped from the same position, by the grammar alone. -/
theorem token_follows (hcall : C.Simulates P call call') (g : Grammar) (text : Text)
    (c c' : Config) {operand : ExprId} (hP : P operand) (h : C.Coupled m n) :
    Follows m n (token call ⟨g, text, c⟩ operand) (fun j => token (call' j) ⟨g, text, c'⟩ operand)
      C.Agree := by
  refine (hcall operand m n hP h).bind ?_
  rintro matched m₁ _ n₁ - ⟨rfl, h₁⟩
  cases matched with
  | false => exact Follows.pure ⟨rfl, h₁⟩
  | true =>
      cases hws : g.whitespace with
      | none =>
          simp only [if_true]
          exact Follows.pure ⟨rfl, h₁⟩
      | some whitespace =>
          simp only [if_true]
          refine Follows.state_bind ?_
          rw [h₁.state.stop]
          refine Follows.lift_bind ?_
          rintro stop -
          cases stop with
          | none => exact Follows.pure ⟨rfl, h₁⟩
          | some stop =>
              exact Follows.onState_bind (Follows.pure ⟨rfl, h₁.withState (h₁.state.moveTo stop)⟩)

/-- A capture is closed over the same span in both parses, and where captures are compared over the
    same children. -/
theorem capture_follows (hcall : C.Simulates P call call') (text : Text) {operand : ExprId}
    (hP : P operand) (mode : CaptureMode) (h : C.Coupled m n) :
    Follows m n (capture call text operand mode) (fun j => capture (call' j) text operand mode)
      C.Agree := by
  refine Follows.state_bind ((hcall operand m n hP h).bind ?_)
  rintro matched m₁ _ n₁ hlog ⟨rfl, h₁⟩
  cases matched with
  | false => exact Follows.pure ⟨rfl, h₁⟩
  | true =>
      simp only [if_true]
      refine Follows.state_bind ?_
      rw [h.state.stop, h₁.state.stop]
      refine Follows.onState_bind (Follows.pure ⟨rfl, h₁.withState ?_⟩)
      exact h₁.state.close (alike_later h.state hlog) mode _ _ _

end Combinators

namespace Growth

/-- Alike seeds are merged into states that stay alike. -/
theorem replay_follows (h : C.Coupled m n) {seed seed' : Option Changes}
    (hseed : SeedAlike C.slotted (C.exact n.log) seed seed') :
    Follows m n (replay seed) (fun _ => replay seed') C.Agree := by
  cases hseed with
  | none => exact Follows.pure ⟨rfl, h⟩
  | some hchanges =>
      refine Follows.transition_bind (fun _ => ParseState.Alike.canMerge hchanges) ?_
      exact Follows.pure ⟨rfl, h.withState (h.state.merge hchanges)⟩

/-- Of a seed only its end decides whether it is surpassed. -/
theorem advances_eq {slotted : Bool} {exact : Prop} {best best' : Option Changes}
    (h : SeedAlike slotted exact best best')
    (stop : Nat) : advances stop best = advances stop best' := by
  cases h with
  | none => rfl
  | some h => simp only [advances, h.stop]

/-- A seed that both parses have, on coupled machines. -/
def Seeded (C : Coupling) (seed : Option Changes) (m : Machine) (seed' : Option Changes)
    (n : Machine) : Prop :=
  SeedAlike C.slotted (C.exact n.log) seed seed' ∧ C.Coupled m n

/-- What is installed as a seed is alike, and the way back leaves the slots as they were. -/
theorem install_follows (h : C.Coupled m n) (hbegun : s₀.Alike C.slotted (C.exact n.log) t₀)
    (hσ : Slots.Settled t₀.slots) (hslots : n.state.slots = t₀.slots) :
    Follows m n (install key s₀.snapshot) (fun _ => install key t₀.snapshot)
      fun c m' d n' => Seeded C (some c) m' (some d) n' ∧ n'.state.slots = t₀.slots := by
  refine Follows.state_bind (Follows.onState_bind (Follows.onTally_bind (Follows.onState_bind ?_)))
  have hsettled : C.slotted = true → Slots.Settled m.state.slots := by
    intro hslotted
    have halike := h.state.slots
    rw [hslotted] at halike
    rw [← halike.1, hslots]
    exact hσ
  have hchanges : SeedAlike C.slotted (C.exact n.log) (some m.state.extract)
      (some n.state.extract) := .some (h.state.extract hsettled)
  have hback := h.state.restore hbegun
  refine Follows.pure ⟨⟨hchanges, ?_, h.empty, h.recorded, h.recalls⟩, ?_⟩
  · exact hback.withSeeds (hback.seeds.insert key hchanges)
  · show Slots.restore n.state.slots (t₀.slots.map Slot.mark) = t₀.slots
    rw [hslots, Slots.restore_self]

/-- Runs of an operand grow seeds that are alike, step by step.  Before each run the slots are those
    of the start, so the operand may be matched again. -/
theorem grow_follows (hcall : C.Simulates P call call') {operand : ExprId} (hP : P operand)
    (hrests : C.Rests call' t₀.slots [operand]) (runs : Nat) (h : C.Coupled m n)
    (hslots : n.state.slots = t₀.slots) {best best' : Option Changes}
    (hbest : SeedAlike C.slotted (C.exact n.log) best best')
    (hbegun : s₀.Alike C.slotted (C.exact n.log) t₀) :
    Follows m n (grow call key operand s₀.snapshot runs best)
      (fun j => grow (call' j) key operand t₀.snapshot runs best') (Seeded C) := by
  induction runs generalizing m n best best' with
  | zero => exact Follows.pure ⟨hbest, h⟩
  | succ runs ih =>
      refine (hcall.resting hrests (List.mem_singleton_self _) hP h hslots).bind ?_
      rintro matched m₁ _ n₁ hlog ⟨⟨rfl, h₁⟩, hslots₁⟩
      have hbest₁ := hbest.mono (C.exact_of_suffix hlog)
      have hbegun₁ := alike_later hbegun hlog
      cases matched with
      | false => exact Follows.pure ⟨hbest₁, h₁⟩
      | true =>
          refine Follows.state_bind ?_
          rw [h₁.state.stop, advances_eq hbest]
          by_cases hfar : advances n₁.state.stop best'
          · simp only [hfar, if_true]
            refine (install_follows h₁ hbegun₁ hrests.settled hslots₁).bind ?_
            rintro c m₂ d n₂ hlog₂ ⟨⟨hcd, h₂⟩, hslots₂⟩
            exact ih h₂ hslots₂ hcd (alike_later hbegun₁ hlog₂)
          · simp only [hfar]
            refine Follows.onState_bind (Follows.pure ⟨hbest₁, ?_⟩)
            exact h₁.withState (h₁.state.restore hbegun₁)

/-- A boundary replays, is blocked or grows in both parses alike. -/
theorem leftRecursive_follows (hcall : C.Simulates P call call') (text : Text) (id : ExprId)
    {operand : ExprId} (hP : P operand) (hrests : C.Rests call' n.state.slots [operand])
    (assoc : Bool) (h : C.Coupled m n) :
    Follows m n (leftRecursive call text id operand assoc)
      (fun j => leftRecursive (call' j) text id operand assoc) C.Agree := by
  refine Follows.state_bind ?_
  dsimp only
  rw [h.state.stop, h.state.seeds.isBlocked]
  generalize ({ expr := id, position := n.state.stop } : SeedKey) = key
  have hget := h.state.seeds.get? key
  generalize m.state.seeds.get? key = found, n.state.seeds.get? key = found' at hget ⊢
  cases hget with
  | some hseed => exact replay_follows h hseed
  | none =>
      dsimp only
      have hfailing := h.state.seeds.insert key seedAlike_none
      by_cases hblocked : (assoc && n.state.seeds.isBlocked id) = true
      · simp only [if_pos hblocked]
        refine Follows.onState_bind ?_
        have hunblocked := h.withState (h.state.withSeeds (hfailing.setBlocked id false))
        refine (hcall operand _ _ hP hunblocked).thenAlways ?_
        rintro matched m₁ _ n₁ - ⟨rfl, h₁⟩
        refine ⟨rfl, h₁.withState (h₁.state.withSeeds ?_)⟩
        exact (h₁.state.seeds.setBlocked id true).remove key
      · simp only [if_neg hblocked]
        refine Follows.onState_bind ?_
        have hgrowing : C.Coupled (m.withState { m.state with
              seeds := if assoc then (m.state.seeds.insert key none).setBlocked id true
                else m.state.seeds.insert key none })
            (n.withState { n.state with
              seeds := if assoc then (n.state.seeds.insert key none).setBlocked id true
                else n.state.seeds.insert key none }) := by
          refine h.withState (h.state.withSeeds ?_)
          cases assoc with
          | true => exact hfailing.setBlocked id true
          | false => exact hfailing
        refine ((grow_follows hcall hP hrests _ hgrowing rfl seedAlike_none h.state).thenAlways
          (Q := Seeded C) ?_).bind ?_
        · rintro seed m₁ seed' n₁ - ⟨hseed, h₁⟩
          refine ⟨hseed, h₁.withState (h₁.state.withSeeds ?_)⟩
          cases assoc with
          | true => exact (h₁.state.seeds.setBlocked id false).remove key
          | false => exact h₁.state.seeds.remove key
        · rintro seed m₁ seed' n₁ - ⟨hseed, h₁⟩
          exact replay_follows h₁ hseed

/-- The first alternative that surpasses the seed is the same in both parses. -/
theorem climbOnce_follows (hcall : C.Simulates P call call') {operands : List ExprId}
    (hrests : C.Rests call' t₀.slots operands) (alternatives : List ExprId)
    (hP : ∀ i ∈ alternatives, P i) (hsub : alternatives ⊆ operands) (h : C.Coupled m n)
    (hslots : n.state.slots = t₀.slots) {best best' : Option Changes}
    (hbest : SeedAlike C.slotted (C.exact n.log) best best')
    (hbegun : s₀.Alike C.slotted (C.exact n.log) t₀) :
    Follows m n (climbOnce call key s₀.snapshot best alternatives)
      (fun j => climbOnce (call' j) key t₀.snapshot best' alternatives)
      fun a m' b n' => Seeded C a m' b n' ∧ n'.state.slots = t₀.slots := by
  induction alternatives generalizing m n with
  | nil => exact Follows.pure ⟨⟨.none, h⟩, hslots⟩
  | cons alternative rest ih =>
      obtain ⟨halternative, hrest⟩ := List.forall_mem_cons.mp hP
      obtain ⟨hmem, hsubrest⟩ := List.cons_subset.mp hsub
      refine (hcall.resting hrests hmem halternative h hslots).bind ?_
      rintro matched m₁ _ n₁ hlog ⟨⟨rfl, h₁⟩, hslots₁⟩
      have hbest₁ := hbest.mono (C.exact_of_suffix hlog)
      have hbegun₁ := alike_later hbegun hlog
      cases matched with
      | false => exact ih hrest hsubrest h₁ hslots₁ hbest₁ hbegun₁
      | true =>
          refine Follows.state_bind ?_
          rw [h₁.state.stop, advances_eq hbest]
          by_cases hfar : advances n₁.state.stop best'
          · simp only [hfar, if_true]
            refine (install_follows h₁ hbegun₁ hrests.settled hslots₁).bind ?_
            rintro c m₂ d n₂ - hseeded
            exact Follows.pure hseeded
          · simp only [hfar]
            refine Follows.onState_bind ?_
            refine ih hrest hsubrest (h₁.withState (h₁.state.restore hbegun₁)) ?_ hbest₁ hbegun₁
            show Slots.restore n₁.state.slots (t₀.slots.map Slot.mark) = t₀.slots
            rw [hslots₁, Slots.restore_self]

/-- A group goes on from seeds that are alike as long as its kind grows. -/
theorem climb_follows (hcall : C.Simulates P call call') {operands : List ExprId}
    (hrests : C.Rests call' t₀.slots operands) (group : Group ExprId)
    (hP : ∀ i ∈ group.alternatives, P i) (hsub : group.alternatives ⊆ operands) (rounds : Nat)
    (h : C.Coupled m n) (hslots : n.state.slots = t₀.slots) {best best' : Option Changes}
    (hbest : SeedAlike C.slotted (C.exact n.log) best best')
    (hbegun : s₀.Alike C.slotted (C.exact n.log) t₀) :
    Follows m n (climb call key group s₀.snapshot rounds best)
      (fun j => climb (call' j) key group t₀.snapshot rounds best')
      fun a m' b n' => Seeded C a m' b n' ∧ n'.state.slots = t₀.slots := by
  induction rounds generalizing m n best best' with
  | zero => exact Follows.pure ⟨⟨hbest, h⟩, hslots⟩
  | succ rounds ih =>
      refine (climbOnce_follows hcall hrests group.alternatives hP hsub h hslots hbest
        hbegun).bind ?_
      rintro grown m₁ grown' n₁ hlog ⟨⟨hgrown, h₁⟩, hslots₁⟩
      cases hgrown with
      | none => exact Follows.pure ⟨⟨hbest.mono (C.exact_of_suffix hlog), h₁⟩, hslots₁⟩
      | some hchanges =>
          by_cases hgrows : group.kind.grows
          · simp only [hgrows, if_true]
            exact ih h₁ hslots₁ (.some hchanges) (alike_later hbegun hlog)
          · simp only [hgrows]
            exact Follows.pure ⟨⟨.some hchanges, h₁⟩, hslots₁⟩

/-- Groups hand seeds that are alike from one to the next, under the same floors. -/
theorem climbAll_follows (hcall : C.Simulates P call call') {operands : List ExprId}
    {slots : List Slot} (hrests : C.Rests call' slots operands) (text : Text)
    (groups : List (Group ExprId)) (hP : ∀ group ∈ groups, ∀ i ∈ group.alternatives, P i)
    (hsub : ∀ group ∈ groups, group.alternatives ⊆ operands) (h : C.Coupled m n)
    (hslots : n.state.slots = slots) {best best' : Option Changes}
    (hbest : SeedAlike C.slotted (C.exact n.log) best best') :
    Follows m n (climbAll call text key groups best)
      (fun j => climbAll (call' j) text key groups best') (Seeded C) := by
  induction groups generalizing m n best best' with
  | nil => exact Follows.pure ⟨hbest, h⟩
  | cons group rest ih =>
      obtain ⟨hgroup, hrest⟩ := List.forall_mem_cons.mp hP
      obtain ⟨hsubgroup, hsubrest⟩ := List.forall_mem_cons.mp hsub
      refine Follows.onState_bind (Follows.state_bind ?_)
      have hlevel := h.withState (h.state.withFloors
        (congrArg (·.set key.expr (levelFloor group)) h.state.floors))
      let leveled : ParseState :=
        { n.state with floors := n.state.floors.set key.expr (levelFloor group) }
      have hrests' : C.Rests call' leveled.slots operands := hslots ▸ hrests
      refine (climb_follows hcall hrests' group hgroup hsubgroup _ hlevel rfl hbest
        hlevel.state).bind ?_
      rintro grown m₁ grown' n₁ - ⟨⟨hgrown, h₁⟩, hslots₁⟩
      exact ih hrest hsubrest h₁ (hslots₁.trans hslots) hgrown

/-- The floors admit the same groups in both parses. -/
theorem cluster_follows (hcall : C.Simulates P call call') (text : Text) (id : ExprId)
    (groups : List (Group ExprId)) (hP : ∀ group ∈ groups, ∀ i ∈ group.alternatives, P i)
    (hrests : C.Rests call' n.state.slots (Shape.cluster groups).children) (h : C.Coupled m n) :
    Follows m n (cluster call text id groups) (fun j => cluster (call' j) text id groups)
      C.Agree := by
  refine Follows.state_bind ?_
  dsimp only
  rw [h.state.stop, h.state.floors]
  generalize ({ expr := id, position := n.state.stop } : SeedKey) = key
  have hget := h.state.seeds.get? key
  generalize m.state.seeds.get? key = found, n.state.seeds.get? key = found' at hget ⊢
  cases hget with
  | some hseed => exact replay_follows h hseed
  | none =>
      refine Follows.onState_bind ?_
      have hfailing := h.withState (h.state.withSeeds (h.state.seeds.insert key
        seedAlike_none))
      -- the groups that run are groups of the cluster
      have hadmitted : ∀ group ∈ groups.takeWhile (fun group =>
          n.state.floors.floor id ≤ group.precedence), group ∈ groups :=
        fun group hgroup => List.takeWhile_subset _ hgroup
      have hsub : ∀ group ∈ groups.takeWhile (fun group =>
          n.state.floors.floor id ≤ group.precedence),
          group.alternatives ⊆ (Shape.cluster groups).children :=
        fun group hgroup i hi => List.mem_flatMap.mpr ⟨group, hadmitted group hgroup, hi⟩
      refine ((climbAll_follows hcall hrests text _
        (fun group hgroup => hP group (hadmitted group hgroup)) hsub hfailing rfl
        seedAlike_none).thenAlways (Q := Seeded C) ?_).bind ?_
      · rintro seed m₁ seed' n₁ - ⟨hseed, h₁⟩
        refine ⟨hseed, h₁.withState ?_⟩
        have hfloors := h₁.state.withFloors
          (congrArg (·.reset id (n.state.floors.explicit? id)) h₁.state.floors)
        exact hfloors.withSeeds (h₁.state.seeds.remove key)
      · rintro seed m₁ seed' n₁ - ⟨hseed, h₁⟩
        exact replay_follows h₁ hseed

/-- A reset of floors and blocks is the same in both parses, and so is what restores them. -/
theorem minPrecedence_follows (hcall : C.Simulates P call call') {operand : ExprId}
    (hP : P operand) (floor : Precedence) (h : C.Coupled m n) :
    Follows m n (minPrecedence call operand floor)
      (fun j => minPrecedence (call' j) operand floor) C.Agree := by
  refine Follows.state_bind ?_
  rw [h.state.floors, h.state.seeds.blocked]
  refine Follows.onState_bind ?_
  have hreset := h.withState
    ((h.state.withFloors (a := .uniform floor) rfl).withSeeds h.state.seeds.unblockAll)
  refine (hcall operand _ _ hP hreset).thenAlways ?_
  rintro matched m₁ _ n₁ - ⟨rfl, h₁⟩
  refine ⟨rfl, h₁.withState ?_⟩
  have hblocked := h₁.state.seeds.restoreBlocked h.state.seeds.right.blocked
  exact (h₁.state.withFloors (a := n.state.floors) rfl).withSeeds hblocked

end Growth

end Packrat
