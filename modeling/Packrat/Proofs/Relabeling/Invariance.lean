import Mathlib.Tactic.IntervalCases
import Packrat.Proofs.Coverage
import Packrat.Proofs.Relabeling.Copies
import Packrat.Proofs.Relabeling.Parses

/-! # Ids cannot be observed

    Prepared grammars that differ in their ids only parse alike, and a copy of an expression matches
    as the expression does, before and after it was copied (`ids_unobservable`).  If what is copied
    is the root and has nothing in common with the whitespace, then making the copy the root gives
    an isomorphic grammar: the ids of the duplicates take the place of those of the originals, and
    the whitespace keeps its own. -/

namespace Packrat

open Relation Relabeling

/-! ## Effects -/

/-- What a match did, as far as it can be told without ids. -/
structure Effects where
  matched : Bool
  start : Nat
  stop : Nat
  recording : Bool
  captures : CaptureBuffer
  slots : List Slot
  tally : Tally

/-- The effects of a match that left the machine `m`. -/
def Machine.effects (matched : Bool) (m : Machine) : Effects where
  matched := matched
  start := m.state.start
  stop := m.state.stop
  recording := m.state.recording
  captures := m.state.captures
  slots := m.state.slots
  tally := m.tally

/-- The fault of a match, or its effects. -/
def effects : EStateM.Result Fault Machine Bool → Except Fault Effects
  | .ok matched m => .ok (m.effects matched)
  | .error e _ => .error e

theorem Relabeling.Ends.effects_eq {ρ : Relabeling ExprId}
    {x x' : EStateM.Result Fault Machine Bool} (h : ρ.Ends Eq x x') : effects x' = effects x := by
  cases h with
  | error e m m' => rfl
  | @ok matched _ m m' hsame hmachine =>
      subst hsame
      refine congrArg Except.ok ?_
      rw [Machine.effects, Machine.effects, hmachine.tally]
      exact hmachine.state.reads
        (f := fun s => Effects.mk matched s.start s.stop s.recording s.captures s.slots m.tally)
        fun _ _ _ => rfl

variable {g g' : Grammar} {f : ExprId → ExprId} {root : ExprId} {copies : Grammar.Copies}
variable {text : Text} {c : Config}

/-- Without seeds, floors and outcomes kept, expressions that are the same under other ids have the
    same effects. -/
theorem effects_of_carries {ρ : Relabeling ExprId} (h : ρ.CarriesGrammar g g') {id : ExprId}
    (hid : ρ.part id) (nesting : Nat) {s : ParseState} (hseeds : s.seeds = .empty)
    (hfloors : s.floors.explicit = []) :
    effects (Engine.invoke ⟨g', text, c⟩ nesting (ρ.image id) (.fresh c s)) =
      effects (Engine.invoke ⟨g, text, c⟩ nesting id (.fresh c s)) :=
  (invoke_inStep h nesting id hid _ _ (carriesMachine_fresh c hseeds hfloors)).effects_eq

namespace Grammar

/-! ## Copies -/

/-- The nodes that were met, under the ids of their duplicates. -/
def Copying.relabeling {region : ExprId → Prop} (h : Copying g region copies g') :
    Relabeling ExprId where
  part id := (copies.lookup id).isSome
  image := copies.target
  injective i j hi hj heq := by
    obtain ⟨c, hc⟩ := Option.isSome_iff_exists.mp hi
    obtain ⟨d, hd⟩ := Option.isSome_iff_exists.mp hj
    rw [Copies.target, Copies.target, hc, hd] at heq
    exact h.injective i j c hc (hd.trans (congrArg some heq.symm))

/-- With the copy in the same grammar, the duplicates are the originals under other ids. -/
theorem Copied.carries (hcopied : Copied g (ReflTransGen g.Child root) [] g copies g')
    (hcopying : Copying g (ReflTransGen g.Child root) copies g') (hcustom : g.CustomFree root) :
    hcopying.relabeling.CarriesGrammar g' g' := by
  -- a node that was met is as it was before
  have hmet : ∀ {id e}, (copies.lookup id).isSome → g'.node? id = some e → g.node? id = some e := by
    intro id e hid he
    obtain ⟨e', he', -, -⟩ := hcopied.duplicate hid
    have hinside : id < g.size := lt_size_of_shape? (shape?_of_node? he')
    rw [← hcopying.originals id hinside, he]
  refine ⟨?_, ?_, ?_, fun _ _ => rfl⟩
  · intro id hid
    obtain ⟨e, he, hnode, -⟩ := hcopied.duplicate hid
    have hinside : id < g.size := lt_size_of_shape? (shape?_of_node? he)
    exact ⟨e, _, (hcopying.originals id hinside).trans he, hnode, rfl, rfl⟩
  · intro id e hid he child hchild
    obtain ⟨e', he', -, hchildren⟩ := hcopied.duplicate hid
    cases (hmet hid he).symm.trans he'
    obtain ⟨copy, hcopy⟩ := Option.isSome_iff_exists.mp hid
    exact hchildren child hchild
      ((hcopying.sources id copy hcopy).tail ⟨e.shape, shape?_of_node? he', hchild⟩)
  · intro id e spec children hid he hs
    obtain ⟨copy, hcopy⟩ := Option.isSome_iff_exists.mp hid
    exact hcustom id (hcopying.sources id copy hcopy) spec children
      (hs ▸ shape?_of_node? (hmet hid he))

/-- A sub-graph under its own ids. -/
def below (g : Grammar) (root : ExprId) : Relabeling ExprId where
  part := ReflTransGen g.Child root
  image id := id
  injective _ _ _ _ heq := heq

/-- Copying leaves a sub-graph as it is. -/
theorem Copying.carries {region : ExprId → Prop} (hcopying : Copying g region copies g')
    (hinside : ∀ i, ReflTransGen g.Child root i → i < g.size) (hcustom : g.CustomFree root)
    (hskip : ∀ text p, (g.whitespace.map fun ws => g'.skip text ws p) =
      g.whitespace.map fun ws => g.skip text ws p) : (g.below root).CarriesGrammar g g' where
  node id hid := by
    obtain ⟨e, he⟩ := node?_of_lt_size (hinside id hid)
    exact ⟨e, e, he, (hcopying.originals id (hinside id hid)).trans he, e.shape.map_id.symm, rfl⟩
  children id e hid he child hchild := hid.tail ⟨e.shape, shape?_of_node? he, hchild⟩
  plain id e spec children hid he hs := hcustom id hid spec children (hs ▸ shape?_of_node? he)
  blank := by
    rw [hcopying.whitespace]
    exact hskip

/-- A larger grammar skips the same, if the nodes are those it had. -/
theorem Reliable.skip_kept (hg : g.Reliable root) (hsize : g.size ≤ g'.size)
    (hwhitespace : g'.whitespace = g.whitespace) (hkept : ∀ i < g.size, g'.node? i = g.node? i)
    (text : Text) (p : Nat) :
    (g.whitespace.map fun ws => g'.skip text ws p) =
      g.whitespace.map fun ws => g.skip text ws p := by
  have hrenames : g.Renames g' id (· < g.size) := by
    refine ⟨?_, ?_, ?_, fun ws hws => hg.entries ws (.inr hws)⟩
    · intro i s hi hs
      rw [Shape.map_id, shape?, id, hkept i hi]
      exact hs
    · intro i s _ hs
      obtain ⟨e, he, rfl⟩ := Option.map_eq_some_iff.mp hs
      exact hg.closed i e he
    · rw [hwhitespace, Option.map_id, id]
  refine Option.map_congr fun ws hws => ?_
  have hws' : ws < g.size := hg.entries ws (.inr hws)
  refine skip_renamed hrenames hws' (hg.skips text ws · hws) (fun p hp => ?_) p
  obtain ⟨r, hr⟩ := hg.skips text ws p hws hp
  exact ⟨r, skip_carried hrenames hws' hsize hr⟩

/-! ## Isomorphisms from renamings -/

/-- A renaming that does not identify live expressions and keeps their nodes is an isomorphism: what
    is live in the other grammar is their image. -/
theorem Isomorphism.of_injective (hinjective : Set.InjOn f {id | g.Live id})
    (hnode : ∀ id, g.Live id → ∃ e e', g.node? id = some e ∧ g'.node? (f id) = some e' ∧
      e'.shape = e.shape.map f ∧ e'.flags = e.flags)
    (hroot : g'.root = g.root.map f) (hwhitespace : g'.whitespace = g.whitespace.map f) :
    g.Isomorphism g' f := by
  refine ⟨⟨?_, hinjective, ?_⟩, ?_, hroot, hwhitespace⟩
  · rintro id ⟨entry, hentry, hreach⟩
    have hentry' : g'.root = some (f entry) ∨ g'.whitespace = some (f entry) := by
      rcases hentry with hentry | hentry
      · exact .inl (by rw [hroot, hentry]; rfl)
      · exact .inr (by rw [hwhitespace, hentry]; rfl)
    show g'.Live (f id)
    induction hreach with
    | refl => exact ⟨f entry, hentry', .refl⟩
    | @tail u v hu hedge ih =>
        obtain ⟨s, hs, hchild⟩ := hedge
        obtain ⟨e, e', he, he', hshape, -⟩ := hnode u ⟨entry, hentry, hu⟩
        obtain rfl : e.shape = s := Option.some.inj ((shape?_of_node? he).symm.trans hs)
        refine ih.child he' ?_
        rw [hshape, Shape.children_map]
        exact List.mem_map_of_mem hchild
  · rintro id ⟨entry, hentry, hreach⟩
    induction hreach with
    | refl =>
        rcases hentry with hentry | hentry
        · rw [hroot] at hentry
          obtain ⟨r, hr, rfl⟩ := Option.map_eq_some_iff.mp hentry
          exact ⟨r, ⟨r, .inl hr, .refl⟩, rfl⟩
        · rw [hwhitespace] at hentry
          obtain ⟨ws, hws, rfl⟩ := Option.map_eq_some_iff.mp hentry
          exact ⟨ws, ⟨ws, .inr hws, .refl⟩, rfl⟩
    | tail _ hedge ih =>
        obtain ⟨u, hu, rfl⟩ := ih
        obtain ⟨s, hs, hchild⟩ := hedge
        obtain ⟨e, e', he, he', hshape, -⟩ := hnode u hu
        obtain rfl : e'.shape = s := Option.some.inj ((shape?_of_node? he').symm.trans hs)
        rw [hshape, Shape.children_map] at hchild
        obtain ⟨v, hv, rfl⟩ := List.mem_map.mp hchild
        exact ⟨v, Live.child hu he hv, rfl⟩
  · intro id e hid he
    obtain ⟨e₁, e', he₁, he', hsame⟩ := hnode id hid
    cases he.symm.trans he₁
    exact ⟨e', he', hsame⟩

/-! ## The copy as the root -/

theorem Copying.target_fresh {region : ExprId → Prop} (h : Copying g region copies g')
    {id : ExprId} (hid : (copies.lookup id).isSome) : g.size ≤ copies.target id := by
  obtain ⟨c, hc⟩ := Option.isSome_iff_exists.mp hid
  rw [target_of_found hc]
  exact (h.fresh id c hc).1

/-- With the node that was copied, all that is below it was met. -/
theorem Copied.met_below (h : Copied g (ReflTransGen g.Child root) [] g copies g')
    (hroot : (copies.lookup root).isSome) {id : ExprId} (hreach : ReflTransGen g.Child root id) :
    (copies.lookup id).isSome := by
  have hregion : g.Unshared [] root = ReflTransGen g.Child root := funext fun _ => propext unshared_nil
  exact (hregion ▸ h).met_unshared (fun _ => hroot) (unshared_nil.mpr hreach)

/-- Nodes of the original have different targets: those that were not met keep their ids, and the
    duplicates are behind all of them. -/
theorem Copying.target_injective {region : ExprId → Prop} (h : Copying g region copies g')
    {i j : ExprId} (hi : i < g.size) (hj : j < g.size) (heq : copies.target i = copies.target j) :
    i = j := by
  by_cases hiMet : (copies.lookup i).isSome <;> by_cases hjMet : (copies.lookup j).isSome
  · exact h.relabeling.injective i j hiMet hjMet heq
  · have hle := h.target_fresh hiMet
    rw [heq, target_of_new (Option.not_isSome_iff_eq_none.mp hjMet)] at hle
    exact absurd hj hle.not_gt
  · have hle := h.target_fresh hjMet
    rw [← heq, target_of_new (Option.not_isSome_iff_eq_none.mp hiMet)] at hle
    exact absurd hi hle.not_gt
  · rwa [target_of_new (Option.not_isSome_iff_eq_none.mp hiMet),
      target_of_new (Option.not_isSome_iff_eq_none.mp hjMet)] at heq

/-- The root is copied and has nothing in common with the whitespace: the grammar with the copy as
    its root is isomorphic. -/
theorem Copied.isomorphism (hcopied : Copied g (ReflTransGen g.Child root) [] g copies g')
    (hcopying : Copying g (ReflTransGen g.Child root) copies g') (hg : g.Reliable root)
    (hroot : (copies.lookup root).isSome)
    (hdisjoint : ∀ ws, g.whitespace = some ws →
      ∀ i, ReflTransGen g.Child root i → ¬ ReflTransGen g.Child ws i) :
    g.Isomorphism (g'.setRoot (copies.target root)) copies.target := by
  -- what is below the whitespace was not met
  have hblank : ∀ ws, g.whitespace = some ws → ∀ i, ReflTransGen g.Child ws i →
      copies.target i = i := fun ws hws i hreach =>
    target_of_new <| Option.eq_none_iff_forall_ne_some.mpr fun c hc =>
      hdisjoint ws hws i (hcopying.sources i c hc) hreach
  refine .of_injective (fun i hi j hj => hcopying.target_injective (hg.live hi) (hg.live hj))
    ?_ ?_ ?_
  · rintro id ⟨entry, hentry | hentry, hreach⟩
    · cases hg.root.symm.trans hentry
      obtain ⟨e, he, hnode, -⟩ := hcopied.duplicate (hcopied.met_below hroot hreach)
      exact ⟨e, _, he, hnode, rfl, rfl⟩
    · have hinside : id < g.size := hg.live ⟨entry, .inr hentry, hreach⟩
      obtain ⟨e, he⟩ := node?_of_lt_size hinside
      have hsame : ∀ child ∈ e.shape.children, copies.target child = child :=
        fun child hchild =>
          hblank entry hentry child (hreach.tail ⟨e.shape, shape?_of_node? he, hchild⟩)
      refine ⟨e, e, he, ?_, ?_, rfl⟩
      · rw [hblank entry hentry id hreach]
        exact (hcopying.originals id hinside).trans he
      · rw [Shape.map_congr hsame]
        exact e.shape.map_id.symm
  · rw [hg.root]
    rfl
  · show g'.whitespace = _
    rw [hcopying.whitespace]
    cases hws : g.whitespace with
    | none => rfl
    | some ws => rw [Option.map_some, hblank ws hws ws .refl]

/-! ## Ids cannot be observed -/

/-- Isomorphic prepared grammars without custom expressions parse every text to the same verdict,
    or with the same fault.  An expression of such a grammar is matched as before when it was
    copied, and so is its copy.  If it was the root and has nothing in common with the whitespace,
    the grammar with the copy as its root is isomorphic. -/
theorem ids_unobservable :
    (∀ {options options' g₀ g₀' report report' g g' f},
      prepare options g₀ = .ok report g → prepare options' g₀' = .ok report' g' →
      (∀ i spec children, g.shape? i ≠ some (.custom spec children)) →
      (∀ i spec children, g'.shape? i ≠ some (.custom spec children)) →
      g.Isomorphism g' f → ∀ config source,
        (parseWith g config source).outcome.map ParseResult.verdict =
          (parseWith g' config source).outcome.map ParseResult.verdict) ∧
    ∀ {options g₀ report g}, prepare options g₀ = .ok report g →
      (∀ i spec children, g.shape? i ≠ some (.custom spec children)) →
      ∀ id < g.size, ∃ copy g', deepCopy id g = .ok copy g' ∧ g.size ≤ copy ∧
        (∀ text config nesting s, s.seeds = .empty → s.floors.explicit = [] →
          effects (Engine.invoke ⟨g', text, config⟩ nesting copy (.fresh config s)) =
              effects (Engine.invoke ⟨g', text, config⟩ nesting id (.fresh config s)) ∧
            effects (Engine.invoke ⟨g', text, config⟩ nesting id (.fresh config s)) =
              effects (Engine.invoke ⟨g, text, config⟩ nesting id (.fresh config s))) ∧
        (g.root = some id →
          (∀ ws, g.whitespace = some ws →
            ∀ i, ReflTransGen g.Child id i → ¬ ReflTransGen g.Child ws i) →
          ∃ f, g.Isomorphism (g'.setRoot copy) f) := by
  refine ⟨?_, ?_⟩
  · intro options options' g₀ g₀' report report' g g' f h h' hcustom hcustom' hiso config source
    obtain ⟨root, hg⟩ := prepare_reliable h hcustom
    obtain ⟨root', hg'⟩ := prepare_reliable h' hcustom'
    exact hiso.parses hg hg' config source
  · intro options g₀ report g h hcustom id hid
    obtain ⟨root, hg⟩ := prepare_reliable h hcustom
    have hinside : ∀ i, ReflTransGen g.Child id i → i < g.size := fun i hi => hg.inside hid hi
    have hfree : g.CustomFree id := fun i _ => hcustom i
    obtain ⟨copies, g', hrun, hcopying, hcopied, hmet⟩ := deepCopy_copies hinside
    refine ⟨_, g', hrun, hcopying.target_fresh hmet, ?_, ?_⟩
    · intro text config nesting s hseeds hfloors
      have hskip := hg.skip_kept hcopying.size_le hcopying.whitespace hcopying.originals
      exact ⟨effects_of_carries (hcopied.carries hcopying hfree) hmet nesting hseeds hfloors,
        effects_of_carries (hcopying.carries hinside hfree hskip) .refl nesting hseeds hfloors⟩
    · intro hroot hdisjoint
      obtain rfl : root = id := Option.some.inj (hg.root.symm.trans hroot)
      exact ⟨_, hcopied.isomorphism hcopying hg hmet hdisjoint⟩

/-- The sums with their ids in reverse. -/
def reversedSums : Grammar :=
  { nodes := #[.ofShape (.set [' ']), .ofShape (.zeroMore 0), .ofShape (.literal "+"),
      .ofShape (.literal "n"), .ofShape (.token 2), .ofShape (.token 3),
      .ofShape (.sequence [8, 4, 5]), .ofShape (.choice [6, 5]),
      { shape := .leftRecursive 7 false, flags := .rule }]
    root := some 8
    whitespace := some 1 }

/-- The sums, marked as prepared. -/
def preparedSums : Grammar :=
  { sums with prepared := true }

theorem prepare_sums : prepare {} sums = .ok ⟨0, [], 1⟩ preparedSums := by
  cbv

theorem prepare_reversedSums :
    prepare {} reversedSums = .ok ⟨0, [], 1⟩ { reversedSums with prepared := true } := by
  cbv

theorem preparedSums_plain (i : ExprId) (spec : Custom) (children : List ExprId) :
    preparedSums.shape? i ≠ some (.custom spec children) :=
  shape?_ne_custom (by simp [preparedSums, sums, Expr.ofShape]) i spec children

theorem isomorphism_sums :
    preparedSums.Isomorphism { reversedSums with prepared := true } (8 - ·) := by
  obtain ⟨root, hreliable⟩ := prepare_reliable prepare_sums preparedSums_plain
  have hsmall : ∀ id, preparedSums.Live id → id < 9 := fun _ => hreliable.live
  refine .of_injective ?_ ?_ rfl rfl
  · intro i hi j hj heq
    have hinjective : ∀ m n : Nat, m < 9 → n < 9 → 8 - m = 8 - n → m = n := by omega
    exact hinjective i j (hsmall i hi) (hsmall j hj) heq
  · intro id hid
    have hid := hsmall id hid
    interval_cases id <;> exact ⟨_, _, rfl, rfl, rfl, rfl⟩

theorem below_sums {i : ExprId} (h : ReflTransGen preparedSums.Child 0 i) : i < 7 := by
  induction h with
  | refl => decide
  | @tail u v _ hedge ih =>
      obtain ⟨s, hs, hv⟩ := hedge
      have hedges : ∀ u < 7, ∀ v ∈ (preparedSums.children? u).getD [], v < 7 := by decide
      exact hedges u ih v (by rw [children?, hs]; exact hv)

theorem below_blanks {i : ExprId} (h : ReflTransGen preparedSums.Child 7 i) : 7 ≤ i := by
  induction h with
  | refl => decide
  | @tail u v _ hedge ih =>
      obtain ⟨s, hs, hv⟩ := hedge
      have hinside : u < 9 := lt_size_of_shape? hs
      have hedges : ∀ u < 9, 7 ≤ u → ∀ v ∈ (preparedSums.children? u).getD [], 7 ≤ v := by decide
      exact hedges u hinside ih v (by rw [children?, hs]; exact hv)

theorem ids_unobservable_sums :
    (parseWith preparedSums {} "n + n ").outcome.map ParseResult.verdict =
        (parseWith { reversedSums with prepared := true } {} "n + n ").outcome.map
          ParseResult.verdict ∧
      ∃ copy g', deepCopy 0 preparedSums = .ok copy g' ∧ 9 ≤ copy ∧
        effects (Engine.invoke ⟨g', .ofString "n + n ", {}⟩ 512 copy (.fresh {} {})) =
          effects (Engine.invoke ⟨preparedSums, .ofString "n + n ", {}⟩ 512 0 (.fresh {} {})) ∧
        ∃ f, preparedSums.Isomorphism (g'.setRoot copy) f := by
  obtain ⟨hparse, hcopy⟩ := ids_unobservable
  refine ⟨?_, ?_⟩
  · refine hparse prepare_sums prepare_reversedSums preparedSums_plain ?_ isomorphism_sums _ _
    exact shape?_ne_custom (by simp [reversedSums, Expr.ofShape])
  · obtain ⟨copy, g', hrun, hfresh, heffects, hisomorphic⟩ :=
      hcopy prepare_sums preparedSums_plain 0 (by decide)
    obtain ⟨hsame, hkept⟩ := heffects (.ofString "n + n ") {} 512 {} rfl rfl
    refine ⟨copy, g', hrun, hfresh, hsame.trans hkept, hisomorphic rfl ?_⟩
    rintro _ ⟨⟩ i hroot hblank
    exact absurd (below_sums hroot) (below_blanks hblank).not_gt

end Grammar

end Packrat
