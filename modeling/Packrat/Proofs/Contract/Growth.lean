import Packrat.Engine.Growth
import Packrat.Proofs.Contract.Combinators

/-! # The contract of a match, for seed growing

    A boundary installs a seed under its key, replaces it as often as it grows and removes it at
    the end.  All that time the state is the one where the boundary began, with another scope:
    before every run of an operand the snapshot leads back there.  The seeds in between agree with
    the first ones everywhere but at the key (`Seeds.AgreeOff`), so removing the key gives them
    back, also after a fault. -/

namespace Packrat

open Matching

namespace Seeds

variable {key : SeedKey} {a b d : Seeds ExactDigest} {id : ExprId}

/-- `b` is canonical and agrees with `a` but perhaps at `key`. -/
structure AgreeOff (key : SeedKey) (a b : Seeds ExactDigest) : Prop where
  canonical : b.Canonical
  get? {j : SeedKey} : j ≠ key → b.get? j = a.get? j
  blocked {i : ExprId} : i ∈ b.blocked ↔ i ∈ a.blocked

theorem AgreeOff.refl (h : a.Canonical) : AgreeOff key a a :=
  ⟨h, fun _ => rfl, Iff.rfl⟩

theorem AgreeOff.trans (hab : AgreeOff key a b) (hbd : AgreeOff key b d) : AgreeOff key a d :=
  ⟨hbd.canonical, fun hj => (hbd.get? hj).trans (hab.get? hj), hbd.blocked.trans hab.blocked⟩

/-- Installing a seed at the key goes unseen by what agrees off the key. -/
theorem AgreeOff.insert (h : AgreeOff key a b) (seed : Option Changes) :
    AgreeOff key a (b.insert key seed) := by
  refine ⟨h.canonical.insert key seed, ?_, h.blocked⟩
  intro j hj
  rw [get?_insert, if_neg hj]
  exact h.get? hj

/-- Removing the key gives back seeds that had none there. -/
theorem AgreeOff.remove_eq (h : AgreeOff key a b) (ha : a.Canonical) (hkey : a.get? key = none) :
    b.remove key = a := by
  refine (h.canonical.remove key).ext ha ?_ ?_
  · intro j
    rw [h.canonical.get?_remove]
    by_cases hj : j = key
    · rw [if_pos hj, hj, hkey]
    · rw [if_neg hj, h.get? hj]
  · intro i
    rw [blocked_remove]
    exact h.blocked

/-- Setting a block on both sides keeps the agreement. -/
theorem AgreeOff.setBlocked (h : AgreeOff key a b) (ha : a.Canonical) (id : ExprId) (v : Bool) :
    AgreeOff key (a.setBlocked id v) (b.setBlocked id v) := by
  refine ⟨h.canonical.setBlocked id v, ?_, ?_⟩
  · intro j hj
    rw [get?_setBlocked, get?_setBlocked]
    exact h.get? hj
  · intro i
    rw [h.canonical.mem_setBlocked, ha.mem_setBlocked]
    by_cases hi : i = id
    · rw [if_pos hi, if_pos hi]
    · rw [if_neg hi, if_neg hi]
      exact h.blocked

/-- A block set and taken back. -/
theorem Canonical.setBlocked_setBlocked (h : a.Canonical) {v : Bool} (hv : a.isBlocked id = v)
    (w : Bool) : (a.setBlocked id w).setBlocked id v = a := by
  refine ((h.setBlocked id w).setBlocked id v).ext h ?_ ?_
  · intro j
    rw [get?_setBlocked, get?_setBlocked]
  · intro i
    rw [(h.setBlocked id w).mem_setBlocked, h.mem_setBlocked]
    by_cases hi : i = id
    · rw [if_pos hi, hi, ← isBlocked_iff, hv]
    · rw [if_neg hi, if_neg hi]

/-- A key installed and a block set, then undone in the other order. -/
theorem AgreeOff.undo (ha : a.Canonical) (hkey : a.get? key = none) {v w : Bool}
    (hv : a.isBlocked id = v) (h : AgreeOff key (a.setBlocked id w) b) :
    (b.setBlocked id v).remove key = a := by
  have hback := h.setBlocked (ha.setBlocked id w) id v
  rw [ha.setBlocked_setBlocked hv] at hback
  exact hback.remove_eq ha hkey

end Seeds

namespace Growth

variable {g : Grammar} {call call' : Caller} {m m₁ : Machine} {s : ParseState} {c d : Scope}
variable {key : SeedKey} {D : Scope → Prop}

/-- The scopes that growing passes through: other seeds at the key. -/
def Reseeded (key : SeedKey) (c d : Scope) : Prop :=
  ∃ seeds, c.seeds.AgreeOff key seeds ∧ d = { c with seeds }

theorem Reseeded.refl (h : c.Canonical) : Reseeded key c c :=
  ⟨c.seeds, .refl h.seeds, rfl⟩

theorem Reseeded.canonical (h : Reseeded key c d) (hc : c.Canonical) : d.Canonical := by
  obtain ⟨seeds, hagree, rfl⟩ := h
  exact ⟨hagree.canonical, hc.floors⟩

/-- A scope may be reseeded again. -/
theorem Reseeded.insert (h : Reseeded key c d) (seed : Option Changes) :
    Reseeded key c { d with seeds := d.seeds.insert key seed } := by
  obtain ⟨seeds, hagree, rfl⟩ := h
  exact ⟨seeds.insert key seed, hagree.insert seed, rfl⟩

/-- The state `s` with a scope out of `D`. -/
def Growing (g : Grammar) (s : ParseState) (D : Scope → Prop) (m : Machine) : Prop :=
  PredicatesIdle g m.memo ∧ ∃ d, D d ∧ m.state = s.withScope d

/-- While seeds grow, operands may be invoked. -/
theorem Growing.ready (h : Growing g s D m) (hs : s.Settled) (hD : ∀ d, D d → d.Canonical) :
    Ready g m := by
  obtain ⟨hmemo, d, hd, hstate⟩ := h
  refine ⟨?_, ?_, hmemo⟩
  · rw [hstate]
    exact hs.withScope d
  · rw [hstate]
    exact hD d hd

/-- What is counted or stored does not bear on the growth of seeds. -/
theorem Growing.of_state_eq (h : Growing g s D m) (hmemo : PredicatesIdle g m₁.memo)
    (heq : m₁.state = m.state) : Growing g s D m₁ := by
  obtain ⟨-, d, hd, hstate⟩ := h
  exact ⟨hmemo, d, hd, heq.trans hstate⟩

/-- The snapshot of `s` leads back from what an operand did. -/
theorem Growing.restore (h : Growing g s D m) (hgrown : m.state.Grown m₁.state) :
    m₁.state.restore s.snapshot = m.state := by
  obtain ⟨-, d, -, hstate⟩ := h
  have hsnap : m.state.snapshot = s.snapshot := by
    rw [hstate]
    rfl
  rw [← hsnap]
  exact hgrown.restore

/-- An operand run while growing: a fault leaves a scope that growing passes through. -/
theorem call_growing (hcall : Obeys g call call') (h : Growing g s D m) (hs : s.Settled)
    (hD : ∀ d, D d → d.Canonical) (id : ExprId) :
    Twins m D (call id) (call' id) (Left g m) := by
  refine (hcall id m (h.ready hs hD)).imp_fault ?_
  rintro e rfl
  obtain ⟨-, d, hd, hstate⟩ := h
  rw [hstate]
  exact hd

/-! ## Seeds -/

/-- A replayed seed is merged into a settled state, and leaves nothing pending. -/
theorem replay_left (hready : Ready g m) (seed : Option Changes) :
    Twins m (· = m.state.scope) (replay seed) (replay seed) (Left g m) := by
  cases seed with
  | none => exact Twins.pure ⟨hready.memo, rfl⟩
  | some changes =>
      refine Twins.merge_bind rfl ?_
      intro hfit
      exact Twins.pure ⟨hready.memo, (ParseState.Kept.refl m.state).merge hfit⟩

/-- Installing what an operand did goes back to where growing began. -/
theorem install_growing (h : Growing g s (Reseeded key c) m) (hmemo : PredicatesIdle g m₁.memo)
    (hgrown : m.state.Grown m₁.state) :
    Twins m₁ (Reseeded key c) (install key s.snapshot) (install key s.snapshot)
      fun _ m' => Growing g s (Reseeded key c) m' := by
  refine Twins.state_bind (Twins.onState_bind (Twins.onTally_bind (Twins.onState_bind ?_)))
  refine Twins.pure ⟨hmemo, ?_⟩
  obtain ⟨-, d, hd, hstate⟩ := id h
  refine ⟨_, hd.insert (some m₁.state.extract), ?_⟩
  let reseed : ParseState → ParseState := fun t =>
    { t with seeds := t.seeds.insert key (some m₁.state.extract) }
  calc reseed (m₁.state.restore s.snapshot)
      = reseed m.state := congrArg reseed (h.restore hgrown)
    _ = reseed (s.withScope d) := congrArg reseed hstate

/-- Each run starts from the snapshot with the best seed installed, so runs only reseed the scope.
    -/
theorem grow_growing (hcall : Obeys g call call') (operand : ExprId) (runs : Nat)
    (best : Option Changes) (hs : s.Settled) (hc : c.Canonical)
    (h : Growing g s (Reseeded key c) m) :
    Twins m (Reseeded key c) (grow call key operand s.snapshot runs best)
      (grow call' key operand s.snapshot runs best)
      fun _ m' => Growing g s (Reseeded key c) m' := by
  induction runs generalizing m best with
  | zero => exact Twins.pure h
  | succ runs ih =>
      refine (call_growing hcall h hs (fun d hd => hd.canonical hc) operand).bind ?_
      rintro matched m₁ ⟨hmemo, hanswer⟩
      cases matched with
      | false => exact Twins.pure (h.of_state_eq hmemo hanswer)
      | true =>
          refine Twins.state_bind ?_
          by_cases hfar : advances m₁.state.stop best
          · simp only [hfar, if_true]
            refine (install_growing h hmemo hanswer.grown).bind ?_
            intro changes m₂ h₂
            exact ih (some changes) h₂
          · simp only [hfar]
            refine Twins.onState_bind (Twins.pure ?_)
            exact h.of_state_eq hmemo (h.restore hanswer.grown)

/-- What is left to do once the scope is put back: replay the seed. -/
theorem finish_growing {u : ParseState → ParseState} {x y : Matching (Option Changes)}
    (hready : Ready g m) (hrun : Twins m₁ D x y fun _ m' => Growing g m.state D m')
    (hu : ∀ t : ParseState, D t.scope → u t = t.withScope m.state.scope) :
    Twins m₁ (· = m.state.scope) (thenAlways x u >>= replay) (thenAlways y u >>= replay)
      (Left g m) := by
  have hclean := hrun.thenAlways (u := u) (E := (· = m.state.scope))
    (Q := fun _ m' => PredicatesIdle g m'.memo ∧ m'.state = m.state) ?_ ?_
  · refine hclean.bind ?_
    rintro best m₂ ⟨hmemo, heq⟩
    refine ((replay_left (hready.of_state_eq hmemo heq) best).imp ?_).imp_fault ?_
    · intro b m' h
      exact h.of_state_eq heq
    · intro e he
      rw [← heq]
      exact he
  · rintro best m' ⟨hmemo, d, hd, hstate⟩
    refine ⟨hmemo, ?_⟩
    show u m'.state = m.state
    rw [hstate, hu (m.state.withScope d) hd]
    rfl
  · intro t ht
    rw [hu t ht]
    rfl

/-- Taking the block and the seed of a boundary back gives the scope where it began. -/
theorem leftRecursive_undo (hc : c.Canonical) (hget : c.seeds.get? key = none) {id : ExprId}
    {assoc : Bool} (hblocked : (assoc && c.seeds.isBlocked id) = false) {t : ParseState}
    (ht : Reseeded key { c with
      seeds := if assoc then (c.seeds.insert key none).setBlocked id true
        else c.seeds.insert key none } t.scope) :
    ({ t with
      seeds := (if assoc then t.seeds.setBlocked id false else t.seeds).remove key } : ParseState)
      = t.withScope c := by
  have hcan := hc.seeds
  obtain ⟨seeds, hagree, ht⟩ := ht
  obtain ⟨hseeds, hfloors, hrecording⟩ :=
    ParseState.eq_of_scope (s := t.withScope { c with seeds }) ht
  have hundo : (if assoc = true then t.seeds.setBlocked id false else t.seeds).remove key
      = c.seeds := by
    rw [hseeds]
    cases assoc with
    | true =>
        have hb : c.seeds.isBlocked id = false := by simpa using hblocked
        have hinsert : Seeds.AgreeOff key (c.seeds.setBlocked id true) _ :=
          ((Seeds.AgreeOff.refl hcan).insert none).setBlocked hcan id true
        exact Seeds.AgreeOff.undo (w := true) hcan hget hb (hinsert.trans hagree)
    | false =>
        have hinsert : Seeds.AgreeOff key c.seeds _ := (Seeds.AgreeOff.refl hcan).insert none
        exact Seeds.AgreeOff.remove_eq (hinsert.trans hagree) hcan hget
  exact ParseState.eq_withScope (s := t.withScope c) t hundo hfloors hrecording

/-- A boundary takes its seed and its block back, whichever way it ends. -/
theorem leftRecursive_left (hcall : Obeys g call call') (text : Text) (id operand : ExprId)
    (assoc : Bool) (hready : Ready g m) :
    Twins m (· = m.state.scope) (leftRecursive call text id operand assoc)
      (leftRecursive call' text id operand assoc) (Left g m) := by
  refine Twins.state_bind ?_
  dsimp only
  have hcan : m.state.seeds.Canonical := hready.canonical.seeds
  cases hget : m.state.seeds.get? { expr := id, position := m.state.stop } with
  | some seed => exact replay_left hready seed
  | none =>
      generalize hkey : ({ expr := id, position := m.state.stop } : SeedKey) = key at hget ⊢
      by_cases hblocked : (assoc && m.state.seeds.isBlocked id) = true
      · -- a blocked boundary runs its operand once, unblocked
        simp only [if_pos hblocked]
        have hb : m.state.seeds.isBlocked id = true := (Bool.and_eq_true _ _ ▸ hblocked).2
        let c : Scope := { m.state.scope with
          seeds := (m.state.seeds.insert key none).setBlocked id false }
        have hc : c.Canonical := ⟨(hcan.insert key none).setBlocked id false, hready.canonical.floors⟩
        have hback : ∀ t : ParseState, t.scope = c →
            ({ t with seeds := (t.seeds.setBlocked id true).remove key } : ParseState)
              = t.withScope m.state.scope := by
          intro t ht
          obtain ⟨hseeds, hfloors, hrecording⟩ :=
            ParseState.eq_of_scope (s := m.state.withScope c) ht
          have hundo : (t.seeds.setBlocked id true).remove key = m.state.seeds := by
            rw [hseeds]
            refine Seeds.AgreeOff.undo (w := false) hcan hget hb ?_
            exact ((Seeds.AgreeOff.refl hcan).insert none).setBlocked hcan id false
          exact ParseState.eq_withScope t hundo hfloors hrecording
        exact Twins.onState_bind (hcall.call_scoped hready hc hback operand)
      · -- otherwise it grows, blocked if it is left-associative
        simp only [if_neg hblocked]
        let c : Scope := { m.state.scope with
          seeds := if assoc then (m.state.seeds.insert key none).setBlocked id true
            else m.state.seeds.insert key none }
        have hc : c.Canonical := by
          refine ⟨?_, hready.canonical.floors⟩
          show (if assoc then _ else _ : Seeds ExactDigest).Canonical
          cases assoc with
          | true => exact (hcan.insert key none).setBlocked id true
          | false => exact hcan.insert key none
        refine Twins.onState_bind ?_
        refine finish_growing (D := Reseeded key c) hready ?_ ?_
        · refine grow_growing hcall operand _ none hready.settled hc ?_
          exact ⟨hready.memo, c, .refl hc, rfl⟩
        · exact fun t ht => leftRecursive_undo hready.canonical hget
            (Bool.eq_false_of_not_eq_true hblocked) ht

/-! ## Clusters -/

/-- The scopes that a cluster passes through: other seeds at the key and another floor of its own. -/
def Levelled (key : SeedKey) (c d : Scope) : Prop :=
  ∃ seeds floors, c.seeds.AgreeOff key seeds ∧ floors.Canonical ∧
    (∀ i, i ≠ key.expr → floors.explicit? i = c.floors.explicit? i) ∧
    floors.fallback = c.floors.fallback ∧ d = { c with seeds, floors }

theorem Levelled.refl (h : c.Canonical) : Levelled key c c :=
  ⟨c.seeds, c.floors, .refl h.seeds, h.floors, fun _ _ => rfl, rfl, rfl⟩

theorem Levelled.canonical (h : Levelled key c d) : d.Canonical := by
  obtain ⟨seeds, floors, hagree, hfloors, -, -, rfl⟩ := h
  exact ⟨hagree.canonical, hfloors⟩

/-- A scope that was reseeded at the key is still one at a level of the cluster. -/
theorem Levelled.reseeded {e : Scope} (h : Levelled key c d) (he : Reseeded key d e) :
    Levelled key c e := by
  obtain ⟨seeds, floors, hagree, hfloors, hoff, hfallback, rfl⟩ := h
  obtain ⟨seeds', hagree', rfl⟩ := he
  exact ⟨seeds', floors, hagree.trans hagree', hfloors, hoff, hfallback, rfl⟩

theorem Levelled.set (h : Levelled key c d) (level : Precedence) :
    Levelled key c { d with floors := d.floors.set key.expr level } := by
  obtain ⟨seeds, floors, hagree, hfloors, hoff, hfallback, rfl⟩ := h
  refine ⟨seeds, floors.set key.expr level, hagree, hfloors.set key.expr level, ?_, hfallback, rfl⟩
  intro i hi
  rw [Floors.explicit?_set, if_neg hi]
  exact hoff i hi

/-- Alternatives are tried with one seed installed, so they do not change the scope otherwise. -/
theorem climbOnce_growing (hcall : Obeys g call call') (best : Option Changes)
    (alternatives : List ExprId) (hs : s.Settled) (hc : c.Canonical)
    (h : Growing g s (Reseeded key c) m) :
    Twins m (Reseeded key c) (climbOnce call key s.snapshot best alternatives)
      (climbOnce call' key s.snapshot best alternatives)
      fun _ m' => Growing g s (Reseeded key c) m' := by
  induction alternatives generalizing m with
  | nil => exact Twins.pure h
  | cons alternative rest ih =>
      refine (call_growing hcall h hs (fun d hd => hd.canonical hc) alternative).bind ?_
      rintro matched m₁ ⟨hmemo, hanswer⟩
      cases matched with
      | false => exact ih (h.of_state_eq hmemo hanswer)
      | true =>
          refine Twins.state_bind ?_
          by_cases hfar : advances m₁.state.stop best
          · simp only [hfar, if_true]
            refine (install_growing h hmemo hanswer.grown).bind ?_
            intro changes m₂ h₂
            exact Twins.pure h₂
          · simp only [hfar]
            refine Twins.onState_bind ?_
            exact ih (h.of_state_eq hmemo (h.restore hanswer.grown))

/-- A group reseeds the scope once for each round in which it surpasses the seed. -/
theorem climb_growing (hcall : Obeys g call call') (group : Group ExprId) (rounds : Nat)
    (best : Option Changes) (hs : s.Settled) (hc : c.Canonical)
    (h : Growing g s (Reseeded key c) m) :
    Twins m (Reseeded key c) (climb call key group s.snapshot rounds best)
      (climb call' key group s.snapshot rounds best)
      fun _ m' => Growing g s (Reseeded key c) m' := by
  induction rounds generalizing m best with
  | zero => exact Twins.pure h
  | succ rounds ih =>
      refine (climbOnce_growing hcall best group.alternatives hs hc h).bind ?_
      intro grown m₁ h₁
      cases grown with
      | none => exact Twins.pure h₁
      | some grown =>
          by_cases hgrows : group.kind.grows
          · simp only [hgrows, if_true]
            exact ih (some grown) h₁
          · simp only [hgrows]
            exact Twins.pure h₁

/-- Each group sets the floor of the cluster to its own level before it runs. -/
theorem climbAll_growing (hcall : Obeys g call call') (text : Text) (groups : List (Group ExprId))
    (best : Option Changes) (hs : s.Settled) (h : Growing g s (Levelled key c) m) :
    Twins m (Levelled key c) (climbAll call text key groups best)
      (climbAll call' text key groups best) fun _ m' => Growing g s (Levelled key c) m' := by
  induction groups generalizing m best with
  | nil => exact Twins.pure h
  | cons group rest ih =>
      obtain ⟨hmemo, d, hd, hstate⟩ := h
      have hd' := hd.set (levelFloor group)
      refine Twins.onState_bind (Twins.state_bind ?_)
      generalize hm₁ : m.withState _ = m₁
      have hstate₁ : m₁.state = s.withScope
          { d with floors := d.floors.set key.expr (levelFloor group) } := by
        rw [← hm₁, hstate]
        rfl
      have hsnap : m₁.state.snapshot = s.snapshot := by
        rw [hstate₁]
        rfl
      have hmemo₁ : PredicatesIdle g m₁.memo := by
        rw [← hm₁]
        exact hmemo
      dsimp only
      rw [hsnap]
      refine ((climb_growing hcall group _ best hs hd'.canonical
        ⟨hmemo₁, _, .refl hd'.canonical, hstate₁⟩).imp_fault (fun e he => hd'.reseeded he)).bind ?_
      rintro best' m₂ ⟨hmemo₂, e, he, hstate₂⟩
      exact ih best' ⟨hmemo₂, e, hd'.reseeded he, hstate₂⟩

/-- Putting the floor of a cluster back and removing its seed gives the scope where it began. -/
theorem cluster_undo (hc : c.Canonical) {id : ExprId} (hid : key.expr = id)
    (hget : c.seeds.get? key = none) {t : ParseState}
    (ht : Levelled key { c with seeds := c.seeds.insert key none } t.scope) :
    ({ t with
      floors := t.floors.reset id (c.floors.explicit? id)
      seeds := t.seeds.remove key } : ParseState) = t.withScope c := by
  have hcan := hc.seeds
  obtain ⟨seeds, floors, hagree, hfloors, hoff, hfallback, ht⟩ := ht
  obtain ⟨htseeds, htfloors, htrecording⟩ :=
    ParseState.eq_of_scope (s := t.withScope { c with seeds, floors }) ht
  have hseeds : t.seeds.remove key = c.seeds := by
    rw [htseeds]
    exact (((Seeds.AgreeOff.refl hcan).insert none).trans hagree).remove_eq hcan hget
  have hreset : t.floors.reset id (c.floors.explicit? id) = c.floors := by
    rw [htfloors]
    refine (hfloors.reset id _).ext hc.floors ?_ ?_
    · intro i
      rw [hfloors.explicit?_reset]
      by_cases hi : i = id
      · rw [if_pos hi, hi]
      · rw [if_neg hi]
        exact hoff i (hid ▸ hi)
    · rw [Floors.fallback_reset]
      exact hfallback
  exact ParseState.eq_withScope (s := t.withScope c) t hseeds hreset htrecording

/-- A cluster takes its seed and its floor back, whichever way it ends. -/
theorem cluster_left (hcall : Obeys g call call') (text : Text) (id : ExprId)
    (groups : List (Group ExprId)) (hready : Ready g m) :
    Twins m (· = m.state.scope) (cluster call text id groups) (cluster call' text id groups)
      (Left g m) := by
  refine Twins.state_bind ?_
  dsimp only
  have hcan : m.state.seeds.Canonical := hready.canonical.seeds
  cases hget : m.state.seeds.get? { expr := id, position := m.state.stop } with
  | some seed => exact replay_left hready seed
  | none =>
      obtain ⟨key, hkey⟩ : ∃ key : SeedKey, key = { expr := id, position := m.state.stop } :=
        ⟨_, rfl⟩
      have hid : key.expr = id := by rw [hkey]
      rw [← hkey] at hget ⊢
      let c : Scope := { m.state.scope with seeds := m.state.seeds.insert key none }
      have hc : c.Canonical := ⟨hcan.insert key none, hready.canonical.floors⟩
      refine Twins.onState_bind ?_
      refine finish_growing (D := Levelled key c) hready ?_ ?_
      · refine climbAll_growing hcall text _ none hready.settled ?_
        exact ⟨hready.memo, c, .refl hc, rfl⟩
      · exact fun t ht => cluster_undo hready.canonical hid hget ht

/-! ## Precedence resets -/

/-- A reset puts the floors and the blocked nodes back, whichever way its operand ends. -/
theorem minPrecedence_left (hcall : Obeys g call call') (operand : ExprId) (floor : Precedence)
    (hready : Ready g m) :
    Twins m (· = m.state.scope) (minPrecedence call operand floor)
      (minPrecedence call' operand floor) (Left g m) := by
  have hcan : m.state.seeds.Canonical := hready.canonical.seeds
  let c : Scope := { m.state.scope with
    seeds := m.state.seeds.unblockAll, floors := .uniform floor }
  have hc : c.Canonical := ⟨hcan.unblockAll, Floors.canonical_uniform floor⟩
  have hback : ∀ t : ParseState, t.scope = c →
      ({ t with floors := m.state.floors
                seeds := t.seeds.restoreBlocked m.state.seeds.blocked } : ParseState)
        = t.withScope m.state.scope := by
    intro t ht
    obtain ⟨hseeds, -, hrecording⟩ := ParseState.eq_of_scope (s := m.state.withScope c) ht
    have hundo : t.seeds.restoreBlocked m.state.seeds.blocked = m.state.seeds := by
      rw [hseeds]
      exact hcan.restoreBlocked_unblockAll
    exact ParseState.eq_withScope t hundo rfl hrecording
  exact Twins.state_bind (Twins.onState_bind (hcall.call_scoped hready hc hback operand))

end Growth

end Packrat
