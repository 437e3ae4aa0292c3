import Mathlib
import Packrat.Proofs.FastPath.Nesting
import Packrat.Proofs.Lockstep.Invocation
import Packrat.Proofs.Precedence.Levels
import Packrat.Proofs.Transparency.Outcomes

/-! # Levels below the floor do not interfere

    A cluster runs only its groups at or above its floor.  While it does, and while anything that
    they reach is matched, the floor of the cluster never falls below what it was at first: a group
    sets it to its own precedence or one more, whoever changes it puts it back, and only a reset of
    all floors could lower it.  So the groups below a floor may be ANYTHING: take two grammars that
    agree but for the groups of one cluster below a floor, and for what only these reach
    (`AgreeAbove`).  From one and the same machine, with that floor or a higher one, they do the same
    and leave the same machine (`AgreeAbove.invoke_eq`).

    The grammars need not have the same size, and skipping whitespace may nest as often as there are
    expressions and positions.  Where skipping answers that makes no difference, but where it never
    ends both abort, and then they may tell of different expressions. -/

namespace Packrat

open Relation Matching Engine

/-! ## Grammars that agree above a floor -/

namespace Grammar

/-- A child that is matched under the floor: of the cluster `C`, one in a group that the floor
    admits. -/
def ChildAbove (g : Grammar) (C : ExprId) (f : Precedence) (id child : ExprId) : Prop :=
  if id = C then
    ∃ groups group, g.shape? C = some (.cluster groups) ∧ group ∈ groups ∧
      f ≤ group.precedence ∧ child ∈ group.alternatives
  else g.Child id child

/-- What can be reached under the floor. -/
abbrev Above (g : Grammar) (C : ExprId) (f : Precedence) : ExprId → ExprId → Prop :=
  ReflTransGen (g.ChildAbove C f)

/-- The grammars have the same cluster `C` but for its groups below `f`, and the same expressions but
    for those that only these groups reach. -/
structure AgreeAbove (g g' : Grammar) (C : ExprId) (f : Precedence) : Prop where
  cluster : ∃ e e' groups groups', g.node? C = some e ∧ g'.node? C = some e' ∧
    e.shape = .cluster groups ∧ e'.shape = .cluster groups' ∧ e'.flags = e.flags ∧
    Growth.Descending groups ∧ Growth.Descending groups' ∧
    (groups.filter fun group => f ≤ group.precedence) =
      groups'.filter fun group => f ≤ group.precedence
  node : ∀ root id, root = C ∨ g.whitespace = some root → g.Above C f root id → id ≠ C →
    g'.node? id = g.node? id
  whitespace : g'.whitespace = g.whitespace

/-- A fault of skipping whitespace. -/
def SkipFaults (g : Grammar) (text : Text) (e : Fault) : Prop :=
  ∃ ws p, g.whitespace = some ws ∧ g.skip text ws p = .error e

variable {g g' : Grammar} {C : ExprId} {f : Precedence} {text : Text} {id : ExprId}

theorem ChildAbove.of_child {child : ExprId} (hid : id ≠ C) (h : g.Child id child) :
    g.ChildAbove C f id child := by
  rw [ChildAbove, if_neg hid]
  exact h

/-! ## Skipping -/

/-- With the same nesting, both grammars skip the same: where they differ there is no fast path. -/
theorem AgreeAbove.skipWithin_eq (h : g.AgreeAbove g' C f) {ws : ExprId} (hws : g.whitespace = some ws)
    (nesting : Nat) (hid : g.Above C f ws id) :
    g'.skipWithin text nesting id = g.skipWithin text nesting id := by
  induction nesting generalizing id with
  | zero => rfl
  | succ nesting ih =>
      funext p
      by_cases hC : id = C
      · obtain ⟨e, e', groups, groups', he, he', hs, hs', -⟩ := h.cluster
        subst hC
        simp only [skipWithin, shape?, he, he', Option.map_some, hs, hs', FastPath.matchShape]
      · have hnode : g'.shape? id = g.shape? id :=
          congrArg (Option.map Expr.shape) (h.node ws id (.inr hws) hid hC)
        rw [skipWithin, skipWithin, hnode]
        cases hs : g.shape? id with
        | none => rfl
        | some s =>
            refine congrFun (matchShape_congr fun i hi => ih (hid.tail ?_)) p
            exact .of_child hC ⟨s, hs, hi⟩

/-- With the nesting that each is given, both grammars skip the same or do not answer. -/
theorem AgreeAbove.skip_alike (h : g.AgreeAbove g' C f) (text : Text) {ws : ExprId}
    (hws : g.whitespace = some ws) (p : Nat) : g'.skip text ws p = g.skip text ws p ∨
      ∃ e e', g.skip text ws p = .error e ∧ g'.skip text ws p = .error e' := by
  have hsame : ∀ nesting, g'.skipWithin text nesting ws = g.skipWithin text nesting ws :=
    fun nesting => h.skipWithin_eq hws nesting .refl
  cases hrun : g.skip text ws p with
  | ok r =>
      rw [skip, ← hsame] at hrun
      exact .inl (skip_of_skipWithin hrun)
  | error e =>
      cases hrun' : g'.skip text ws p with
      | ok r =>
          rw [skip, hsame] at hrun'
          cases hrun.symm.trans (skip_of_skipWithin hrun')
      | error e' => exact .inr ⟨e, e', rfl, rfl⟩

/-! ## Matching -/

/-- What is matched from `C` on, from equal machines, while the floor of `C` is at least `f`. -/
def lockstepAbove (g g' : Grammar) (C : ExprId) (f fallback : Precedence) (text : Text) :
    Lockstep :=
  .ofFloors (g.Above C f C)
    (fun F F' => F = F' ∧ F.Canonical ∧ F.fallback = fallback ∧ f ≤ F.floor C) Eq Eq
    (fun e e' => e' = e ∨ g.SkipFaults text e ∧ g'.SkipFaults text e')
    (by
      rintro F _ H _ id ⟨rfl, -, hfallback, hfloor⟩ ⟨rfl, hcanonical, hfallback', hfloor'⟩ -
      refine ⟨rfl, hcanonical.reset id _, (Floors.fallback_reset ..).trans hfallback', ?_⟩
      rw [Floors.floor] at hfloor hfloor' ⊢
      rw [hcanonical.explicit?_reset, Floors.fallback_reset]
      split
      · rename_i hC
        rw [← hC, hfallback']
        rw [hfallback] at hfloor
        exact hfloor
      · exact hfloor')
    (by
      rintro l _ entry rfl
      rfl)
    fun _ => .inl rfl

section Above

variable {fallback : Precedence} {groups groups' : List (Group ExprId)} {e : Expr}

theorem machines_above {m m' : Machine}
    (h : (lockstepAbove g g' C f fallback text).Machines m m') : m' = m := by
  have hstate : ∀ {s s' : ParseState},
      (lockstepAbove g g' C f fallback text).State s s' → s = s' := by
    rintro s _ ⟨rfl, rfl, -⟩
    rfl
  obtain ⟨state, memo, failures, tally, log⟩ := m
  obtain ⟨state', memo', failures', tally', log'⟩ := m'
  obtain ⟨hs, hmemo, hfailures, htally, hlog⟩ := h
  cases hstate hs
  cases hmemo
  cases hfailures
  cases htally
  cases hlog
  rfl

/-- A group that is admitted sets a floor that is no lower. -/
theorem level_above {group : Group ExprId}
    (hpart : ∀ i ∈ group.alternatives, g.Above C f C i) (hle : id = C → f ≤ group.precedence) :
    (lockstepAbove g g' C f fallback text).Level id group group where
  kind := rfl
  alternatives := (List.map_id' _).symm
  part := hpart
  floors := by
    rintro F _ ⟨rfl, hcanonical, hfallback, hfloor⟩
    refine ⟨rfl, hcanonical.set id _, hfallback, ?_⟩
    rw [Floors.floor, Floors.explicit?_set]
    split
    · rename_i hC
      exact UInt32.le_trans (hle hC.symm) (Growth.precedence_le_levelFloor group)
    · exact hfloor

/-- The two clusters admit the same groups. -/
theorem clusters_above (hdescending : Growth.Descending groups)
    (hdescending' : Growth.Descending groups')
    (hsame : (groups.filter fun group => f ≤ group.precedence) =
      groups'.filter fun group => f ≤ group.precedence)
    (hs : g.shape? C = some (.cluster groups)) :
    (lockstepAbove g g' C f fallback text).Clusters C groups groups' := by
  rintro F _ ⟨rfl, -, -, hfloor⟩
  show List.Forall₂ _ (groups.takeWhile fun group => F.floor C ≤ group.precedence)
    (groups'.takeWhile fun group => F.floor C ≤ group.precedence)
  rw [← hdescending.admitted_eq hdescending' hsame hfloor, List.forall₂_same]
  intro group hgroup
  have hmem := (List.takeWhile_prefix _).subset hgroup
  have hadmitted : F.floor C ≤ group.precedence := by
    simpa using List.mem_takeWhile_imp hgroup
  have hle : f ≤ group.precedence := UInt32.le_trans hfloor hadmitted
  refine level_above (fun i hi => ?_) fun _ => hle
  refine ReflTransGen.single ?_
  rw [ChildAbove, if_pos rfl]
  exact ⟨groups, group, hs, hmem, hle, hi⟩

/-- Another expression that both grammars have. -/
theorem shapes_above (hid : g.Above C f C id) (hC : id ≠ C) (he : g.node? id = some e)
    (hfloors : ∀ operand floor, e.shape ≠ .minPrecedence operand floor)
    (hcustom : ∀ spec children, e.shape ≠ .custom spec children) :
    (lockstepAbove g g' C f fallback text).Shapes id e.shape e.shape := by
  have hs : g.shape? id = some e.shape := Grammar.shape?_of_node? he
  have hchildren : ∀ child ∈ e.shape.children, g.Above C f C child :=
    fun child hchild => hid.tail (.of_child hC ⟨e.shape, hs, hchild⟩)
  by_cases hcluster : ∃ groups, e.shape = .cluster groups
  · obtain ⟨groups, hgroups⟩ := hcluster
    rw [hgroups] at hchildren ⊢
    refine .cluster ?_
    rintro F _ ⟨rfl, -⟩
    refine List.forall₂_same.mpr fun group hgroup => level_above (fun i hi => ?_) fun h => absurd h hC
    exact hchildren i (List.mem_flatMap.mpr ⟨group, (List.takeWhile_prefix _).subset hgroup, hi⟩)
  · have hplain : e.shape.ignoresFloors = true := by
      cases hshape : e.shape with
      | cluster groups => exact absurd ⟨groups, hshape⟩ hcluster
      | minPrecedence operand floor => exact absurd hshape (hfloors operand floor)
      | custom spec children => exact absurd hshape (hcustom spec children)
      | _ => rfl
    have hmap : e.shape.map (lockstepAbove g g' C f fallback text).image = e.shape :=
      Shape.map_id e.shape
    have hshapes : (lockstepAbove g g' C f fallback text).Shapes id e.shape
        (e.shape.map (lockstepAbove g g' C f fallback text).image) := .plain hplain hchildren
    rwa [hmap] at hshapes

end Above

/-- Of what can be reached under the floor, both grammars match the same. -/
theorem AgreeAbove.ties (h : g.AgreeAbove g' C f) (fallback : Precedence) (text : Text)
    (hplain : ∀ id s, g.Above C f C id → g.shape? id = some s →
      (∀ operand floor, s ≠ .minPrecedence operand floor) ∧
        ∀ spec children, s ≠ .custom spec children) :
    (lockstepAbove g g' C f fallback text).Ties g g' text where
  node := by
    intro id hid
    by_cases hC : id = C
    · subst hC
      obtain ⟨e, e', groups, groups', he, he', hs, hs', hflags, hdescending, hdescending', hsame⟩ :=
        h.cluster
      have hshape : g.shape? id = some (.cluster groups) := hs ▸ Grammar.shape?_of_node? he
      show Lockstep.Nodes _ id (g.node? id) (g'.node? id)
      rw [he, he']
      refine .found hflags ?_
      rw [hs, hs']
      exact .cluster (clusters_above hdescending hdescending' hsame hshape)
    · show Lockstep.Nodes _ id (g.node? id) (g'.node? id)
      rw [h.node C id (.inl rfl) hid hC]
      cases he : g.node? id with
      | none => exact .missing (.inl rfl)
      | some e =>
          obtain ⟨hfloors, hcustom⟩ := hplain id e.shape hid (Grammar.shape?_of_node? he)
          exact .found rfl (shapes_above hid hC he hfloors hcustom)
  skip := by
    rw [h.whitespace]
    cases hws : g.whitespace with
    | none => exact .none
    | some ws =>
        refine .some fun p => ?_
        rcases h.skip_alike text hws p with hsame | ⟨e, e', he, he'⟩
        · rw [hsame]
          exact Lockstep.answers_refl _
        · rw [he, he']
          exact .error (.inr ⟨⟨ws, p, hws, he⟩, ws, p, h.whitespace.trans hws, he'⟩)

/-- Levels below the floor do not interfere.  Whatever can be reached from a cluster through its
    groups at or above a floor, the two grammars match it alike from every machine on which the
    cluster has that floor or a higher one, if nothing there resets all floors or is custom, and
    nothing is memoized: they come to the same and leave the same machine, or skipping whitespace
    aborts both. -/
theorem AgreeAbove.invoke_eq (h : g.AgreeAbove g' C f)
    (hplain : ∀ id s, g.Above C f C id → g.shape? id = some s →
      (∀ operand floor, s ≠ .minPrecedence operand floor) ∧
        ∀ spec children, s ≠ .custom spec children)
    {config : Config} (hmemoization : config.memoization = .none) {m : Machine}
    (hcanonical : m.state.floors.Canonical) (hfloor : f ≤ m.state.floors.floor C) (text : Text)
    (hid : g.Above C f C id) (nesting : Nat) :
    invoke ⟨g', text, config⟩ nesting id m = invoke ⟨g, text, config⟩ nesting id m ∨
      ∃ e e' m', invoke ⟨g, text, config⟩ nesting id m = .error e m' ∧
        invoke ⟨g', text, config⟩ nesting id m = .error e' m' ∧
        g.SkipFaults text e ∧ g'.SkipFaults text e' := by
  have hties := h.ties m.state.floors.fallback text hplain
  have hm : (lockstepAbove g g' C f m.state.floors.fallback text).Machines m m :=
    ⟨.intro rfl ⟨rfl, hcanonical, rfl, hfloor⟩, rfl, rfl, rfl, rfl⟩
  have hends : (lockstepAbove g g' C f m.state.floors.fallback text).Ends Eq
      (invoke ⟨g, text, config⟩ nesting id m) (invoke ⟨g', text, config⟩ nesting id m) :=
    Lockstep.invoke_inStep hties (.inl hmemoization) nesting id hid m m hm
  generalize invoke ⟨g, text, config⟩ nesting id m = r at hends ⊢
  generalize invoke ⟨g', text, config⟩ nesting id m = r' at hends ⊢
  cases hends with
  | @ok b b' n n' hvalue hmachine =>
      obtain rfl := machines_above hmachine
      exact .inl (hvalue ▸ rfl)
  | @error e e' n n' hfault hmachine =>
      obtain rfl := machines_above hmachine
      rcases hfault with rfl | ⟨hskip, hskip'⟩
      · exact .inl rfl
      · exact .inr ⟨e, e', _, rfl, rfl, hskip, hskip'⟩

/-- Sums of products of a letter. -/
def productsAndSums : Grammar :=
  { nodes := #[
      { shape := .cluster [⟨3, .once, [1]⟩, ⟨2, .leftAssociative, [2]⟩, ⟨1, .leftAssociative, [3]⟩]
        flags := .rule },
      .ofShape (.literal "n"), .ofShape (.sequence [0, 4, 0]), .ofShape (.sequence [0, 5, 0]),
      .ofShape (.literal "*"), .ofShape (.literal "+")]
    root := some 0 }

/-- The same products, with something else below them. -/
def productsAndSigns : Grammar :=
  { nodes := #[
      { shape := .cluster [⟨3, .once, [1]⟩, ⟨2, .leftAssociative, [2]⟩, ⟨0, .once, [3]⟩]
        flags := .rule },
      .ofShape (.literal "n"), .ofShape (.sequence [0, 4, 0]), .ofShape (.minPrecedence 0 0),
      .ofShape (.literal "*")]
    root := some 0 }

/-- From products on neither sums nor signs are reached. -/
theorem above_products {id : ExprId} (h : productsAndSums.Above 0 2 0 id) :
    id = 0 ∨ id = 1 ∨ id = 2 ∨ id = 4 := by
  induction h with
  | refl => exact .inl rfl
  | @tail i child _ hchild ih =>
      rcases ih with rfl | rfl | rfl | rfl
      · obtain ⟨_, group, hs, hgroup, hle, hmem⟩ := (if_pos rfl).mp hchild
        cases hs
        fin_cases hgroup <;> simp_all
      · obtain ⟨_, hs, hmem⟩ := (if_neg (by decide)).mp hchild
        cases hs
        cases hmem
      · obtain ⟨_, hs, hmem⟩ := (if_neg (by decide)).mp hchild
        cases hs
        have hitem : child ∈ [0, 4, 0] := hmem
        simp only [List.mem_cons, List.not_mem_nil, or_false] at hitem
        tauto
      · obtain ⟨_, hs, hmem⟩ := (if_neg (by decide)).mp hchild
        cases hs
        cases hmem

theorem agreeAbove_products : productsAndSums.AgreeAbove productsAndSigns 0 2 where
  cluster := ⟨_, _, _, _, rfl, rfl, rfl, rfl, rfl, by decide, by decide, rfl⟩
  node := by
    rintro root id (rfl | hws) habove hid
    · rcases above_products habove with rfl | rfl | rfl | rfl
      · exact absurd rfl hid
      all_goals rfl
    · cases hws
  whitespace := rfl

/-- A machine on which the floor is that of products. -/
def atProducts : Machine :=
  { Machine.initial {} with state := { ParseState.initial [] with floors := .set {} 0 2 } }

theorem invoke_eq_products :
    productsAndSums.AgreeAbove productsAndSigns 0 2 ∧ ∃ m',
      invoke ⟨productsAndSums, .ofString "n*n+n", { memoization := .none }⟩ 9 0 atProducts =
        .ok true m' ∧ m'.state.stop = 3 ∧
      invoke ⟨productsAndSigns, .ofString "n*n+n", { memoization := .none }⟩ 9 0 atProducts =
        .ok true m' := by
  obtain ⟨m', hrun, hstop⟩ := exists_of_answer (a := true) (f := fun m => m.state.stop) (v := 3)
    (x := invoke ⟨productsAndSums, .ofString "n*n+n", { memoization := .none }⟩ 9 0 atProducts)
    (by decide +kernel)
  have hplain : ∀ id s, productsAndSums.Above 0 2 0 id → productsAndSums.shape? id = some s →
      (∀ operand floor, s ≠ .minPrecedence operand floor) ∧
        ∀ spec children, s ≠ .custom spec children := by
    intro id s habove hs
    rcases above_products habove with rfl | rfl | rfl | rfl <;> cases hs <;> exact ⟨nofun, nofun⟩
  have hmemoization : ({ memoization := .none } : Config).memoization = .none := rfl
  rcases agreeAbove_products.invoke_eq hplain hmemoization (m := atProducts)
    ((Floors.canonical_uniform 0).set 0 2) (by decide) (.ofString "n*n+n") .refl 9 with
    hsame | ⟨e, e', m₁, hfault, -⟩
  · exact ⟨agreeAbove_products, m', hrun, hstop, hsame.trans hrun⟩
  · cases hrun.symm.trans hfault

end Grammar

end Packrat
