import Mathlib.Data.Set.Function
import Packrat.Proofs.Relabeling.Invocation
import Packrat.Proofs.Relabeling.Skipping
import Packrat.Proofs.Safety.Shelter
import Packrat.Proofs.Termination.Parses

/-! # Parses under other ids

    An isomorphism of grammars renames the live expressions, those within reach of the root or the
    whitespace.  Prepared grammars that are isomorphic parse every text to the same verdict, under
    every configuration (`Isomorphism.parses`): neither the order of ids in seeds, floors and memo
    entries nor expressions that are not live can be seen in it. -/

namespace Packrat

open Relation Relabeling

/-! ## Verdicts -/

/-- What a parse finds, without what it expected. -/
structure Verdict where
  matched : Bool
  succeeded : Bool
  stop : Nat
  tree : CaptureNode
  tally : Tally

/-- The verdict of a result. -/
def ParseResult.verdict (r : ParseResult) : Verdict where
  matched := r.matched
  succeeded := r.succeeded
  stop := r.stop
  tree := r.tree
  tally := r.tally

/-- The verdict on a match of the root that left the machine `m`. -/
def Machine.verdict (text : Text) (succeeded : Bool) (m : Machine) : Verdict :=
  let stop := if succeeded then m.state.stop else 0
  { matched := succeeded && stop == text.length
    succeeded, stop
    tree := .root 0 stop m.state.captures.nodes
    tally := m.tally }

variable {text : Text} {g g' : Grammar} {f : ExprId → ExprId} {id : ExprId}

/-- A verdict is read off the machine before ids are turned into texts. -/
theorem Parser.verdict_of_conclude {p : Parser} {succeeded : Bool} {m : Machine} {r : ParseResult}
    (h : p.conclude text succeeded m = .ok r) : r.verdict = m.verdict text succeeded := by
  simp only [conclude] at h
  dsimp only [Machine.verdict]
  generalize (if succeeded then m.state.stop else 0) = stop at h ⊢
  split at h
  · cases h
    rfl
  · obtain ⟨report, -, h⟩ := ok_of_bind h
    cases h
    rfl

/-- Machines that correspond have one verdict: it speaks of positions, not of ids. -/
theorem verdict_carries {ρ : Relabeling ExprId} {m m' : Machine} (h : ρ.CarriesMachine m m')
    (succeeded : Bool) : m'.verdict text succeeded = m.verdict text succeeded := by
  have hstop : m'.state.stop = m.state.stop := h.state.reads fun _ _ _ => rfl
  have hcaptures : m'.state.captures = m.state.captures := h.state.reads fun _ _ _ => rfl
  rw [Machine.verdict, Machine.verdict, hstop, hcaptures, h.tally]

/-- The nodes that failed on either side all have a partner. -/
theorem ids_of_carriesFailures {ρ : Relabeling ExprId} {x x' : Failures}
    (h : ρ.CarriesFailures x x') :
    (∀ i ∈ x.ids, ρ.part i) ∧ ∀ i ∈ x'.ids, ∃ j, ρ.part j ∧ ρ.image j = i := by
  cases h with
  | farthest position hpart =>
      refine ⟨hpart, ?_⟩
      intro i hi
      obtain ⟨j, hj, rfl⟩ := List.mem_map.mp hi
      exact ⟨j, hpart j hj, rfl⟩
  | first position hpart =>
      exact ⟨List.forall_mem_singleton.mpr hpart,
        List.forall_mem_singleton.mpr ⟨_, hpart, rfl⟩⟩
  | unset | silent => exact ⟨List.forall_mem_nil _, List.forall_mem_nil _⟩

/-! ## Isomorphisms -/

namespace Grammar

/-- The expression is within reach of the root or of the whitespace. -/
def Live (g : Grammar) (id : ExprId) : Prop :=
  ∃ entry, (g.root = some entry ∨ g.whitespace = some entry) ∧ ReflTransGen g.Child entry id

theorem Live.child {e : Expr} (h : g.Live id) (he : g.node? id = some e) {child : ExprId}
    (hchild : child ∈ e.shape.children) : g.Live child := by
  obtain ⟨entry, hentry, hreach⟩ := h
  exact ⟨entry, hentry, hreach.tail ⟨e.shape, shape?_of_node? he, hchild⟩⟩

/-- A renaming of the live expressions that keeps their forms and flags and takes root to root and
    whitespace to whitespace.  Names are not looked at. -/
structure Isomorphism (g g' : Grammar) (f : ExprId → ExprId) : Prop where
  bijective : Set.BijOn f {id | g.Live id} {id | g'.Live id}
  node : ∀ id e, g.Live id → g.node? id = some e →
    ∃ e', g'.node? (f id) = some e' ∧ e'.shape = e.shape.map f ∧ e'.flags = e.flags
  root : g'.root = g.root.map f
  whitespace : g'.whitespace = g.whitespace.map f

/-- The live expressions under their other ids. -/
def Isomorphism.relabeling (h : g.Isomorphism g' f) : Relabeling ExprId where
  part := g.Live
  image := f
  injective _ _ hj hk heq := h.bijective.injOn hj hk heq

/-- An isomorphism is a renaming of what is live, for the engine. -/
theorem Isomorphism.renames (h : g.Isomorphism g' f) : g.Renames g' f g.Live where
  shape id s hid hs := by
    obtain ⟨e, he, rfl⟩ := Option.map_eq_some_iff.mp hs
    obtain ⟨e', he', hshape, -⟩ := h.node id e hid he
    rw [shape?_of_node? he', hshape]
  children id s hid hs child hchild := by
    obtain ⟨e, he, rfl⟩ := Option.map_eq_some_iff.mp hs
    exact hid.child he hchild
  whitespace := h.whitespace
  blank ws hws := ⟨ws, .inr hws, .refl⟩

/-! ## Prepared grammars -/

/-- What a parse relies on in a prepared grammar without custom expressions. -/
structure Reliable (g : Grammar) (root : ExprId) : Prop where
  mark : g.prepared = true
  root : g.root = some root
  plain : ∀ i spec children, g.shape? i ≠ some (.custom spec children)
  entries : ∀ entry, g.root = some entry ∨ g.whitespace = some entry → entry < g.size
  closed : ∀ i e, g.node? i = some e → ∀ child ∈ e.shape.children, child < g.size
  skips : ∀ text ws p, g.whitespace = some ws → p ≤ text.length → ∃ r, g.skip text ws p = .ok r
  describes : ∀ id < g.size, ∃ description, g.describe id = .ok description

variable {root root' : ExprId}

/-- What is reached from a node of a reliable grammar is in the arena. -/
theorem Reliable.inside (hg : g.Reliable root) {i : ExprId} (hid : id < g.size)
    (hreach : ReflTransGen g.Child id i) : i < g.size := by
  rcases ReflTransGen.cases_tail hreach with rfl | ⟨parent, -, s, hs, hchild⟩
  · exact hid
  · obtain ⟨e, he, rfl⟩ := Option.map_eq_some_iff.mp hs
    exact hg.closed parent e he i hchild

theorem Reliable.live (hg : g.Reliable root) (h : g.Live id) : id < g.size := by
  obtain ⟨entry, hentry, hreach⟩ := h
  exact hg.inside (hg.entries entry hentry) hreach

/-- A grammar that was prepared and has no custom nodes can be relied on. -/
theorem prepare_reliable {options : PrepareOptions} {report : PrepareReport}
    (h : prepare options g = .ok report g')
    (hcustom : ∀ i spec children, g'.shape? i ≠ some (.custom spec children)) :
    ∃ root, g'.Reliable root := by
  obtain ⟨n, root, hroot, hshelter, hdescribes⟩ := prepare_sheltered h hcustom
  have hskips : ∀ text ws p, g'.whitespace = some ws → p ≤ text.length →
      ∃ r, g'.skip text ws p = .ok r := by
    intro text ws p hws hp
    obtain ⟨r, hr, -⟩ := hshelter.skips hws hp
    exact ⟨r, hr⟩
  refine ⟨root, ?_, hroot, hcustom, ?_, ?_, hskips, hdescribes⟩
  · obtain ⟨g₁, n, rfl, -⟩ := prepare_validates h
    rfl
  · rintro entry (hentry | hentry)
    · cases hroot.symm.trans hentry
      exact hshelter.inside
    · -- what is skipped somewhere is in the grammar
      obtain ⟨r, hr⟩ := hskips ⟨#[]⟩ entry 0 hentry (Nat.zero_le _)
      rw [skip, skipWithin] at hr
      cases hs : g'.shape? entry with
      | none =>
          rw [hs] at hr
          cases hr
      | some s => exact lt_size_of_shape? hs
  · exact fun i e he child => child_lt_size hshelter.nullability (shape?_of_node? he)

/-- Matching in isomorphic grammars keeps in step. -/
theorem Isomorphism.carries (h : g.Isomorphism g' f) (hg : g.Reliable root)
    (hg' : g'.Reliable root') : h.relabeling.CarriesGrammar g g' where
  node id hid := by
    obtain ⟨e, he⟩ := node?_of_lt_size (hg.live hid)
    obtain ⟨e', he', hshape, hflags⟩ := h.node id e hid he
    exact ⟨e, e', he, he', hshape, hflags⟩
  children id e hid he child hchild := Live.child hid he hchild
  plain id e spec children _ he hs := hg.plain id spec children (hs ▸ shape?_of_node? he)
  blank text p := by
    rw [h.whitespace, Option.map_map]
    refine Option.map_congr fun ws hws => ?_
    refine skip_renamed h.renames ⟨ws, .inr hws, .refl⟩ (hg.skips text ws · hws) (fun p hp => ?_) p
    exact hg'.skips text (f ws) p (by rw [h.whitespace, hws]; rfl) hp

variable {c : Config} {source : String} {m : Machine}

/-- A reliable grammar has a root, so parsing it is parsing from there. -/
theorem Reliable.parse_eq (hg : g.Reliable root) :
    parseWith g c source = Parser.parse ⟨g, root, c⟩ source := by
  have hmake : Parser.make g c = .ok ⟨g, root, c⟩ := by
    rw [Parser.make, if_pos hg.mark, hg.root]
  rw [parseWith, hmake]

/-- The verdict of a parse is the verdict on the match of the root. -/
theorem Reliable.verdict_of_ok (hg : g.Reliable root) {succeeded : Bool}
    (hrun : Engine.invoke ⟨g, .ofString source, c⟩ c.maxDepth root (.initial c) = .ok succeeded m)
    (hids : ∀ i ∈ m.failures.ids, i < g.size) :
    (parseWith g c source).outcome.map ParseResult.verdict =
      .ok (m.verdict (.ofString source) succeeded) := by
  obtain ⟨r, hr⟩ : ∃ r, Parser.conclude ⟨g, root, c⟩ (.ofString source) succeeded m = .ok r :=
    Parser.conclude_answers hg.describes succeeded hids
  simp only [hg.parse_eq, Parser.parse, Parser.run, Parser.setting, hrun, hr, Except.map,
    Parser.verdict_of_conclude hr]

/-- An engine error is the outcome of the parse: nothing is concluded from it. -/
theorem Reliable.verdict_of_error (hg : g.Reliable root) {e : Fault}
    (hrun : Engine.invoke ⟨g, .ofString source, c⟩ c.maxDepth root (.initial c) = .error e m) :
    (parseWith g c source).outcome.map ParseResult.verdict = .error e := by
  simp only [hg.parse_eq, Parser.parse, Parser.run, Parser.setting, hrun, Except.map]

/-- Isomorphic prepared grammars parse every text to the same verdict, or with the same fault. -/
theorem Isomorphism.parses (h : g.Isomorphism g' f) (hg : g.Reliable root)
    (hg' : g'.Reliable root') (c : Config) (source : String) :
    (parseWith g c source).outcome.map ParseResult.verdict =
      (parseWith g' c source).outcome.map ParseResult.verdict := by
  obtain rfl : root' = f root := by
    have hroot := h.root
    rw [hg.root, hg'.root] at hroot
    exact Option.some.inj hroot
  have hcallers : h.relabeling.Callers (Engine.invoke ⟨g, .ofString source, c⟩ c.maxDepth)
      (Engine.invoke ⟨g', .ofString source, c⟩ c.maxDepth) :=
    invoke_inStep (h.carries hg hg') c.maxDepth
  have hends := hcallers root ⟨root, .inl hg.root, .refl⟩ (.initial c) (.initial c)
    (carriesMachine_fresh c rfl rfl)
  generalize hrun : Engine.invoke ⟨g, _, c⟩ _ _ _ = x at hends
  generalize hrun' : Engine.invoke ⟨g', _, c⟩ _ _ _ = x' at hends
  cases hends with
  | error e m m' => rw [hg.verdict_of_error hrun, hg'.verdict_of_error hrun']
  | @ok succeeded _ m m' hsame hmachine =>
      subst hsame
      obtain ⟨hpart, honto⟩ := ids_of_carriesFailures hmachine.failures
      have hids : ∀ i ∈ m.failures.ids, i < g.size := fun i hi => hg.live (hpart i hi)
      have hids' : ∀ i ∈ m'.failures.ids, i < g'.size := by
        intro i hi
        obtain ⟨j, hj, rfl⟩ := honto i hi
        exact hg'.live (h.bijective.mapsTo hj)
      rw [hg.verdict_of_ok hrun hids, hg'.verdict_of_ok hrun' hids', verdict_carries hmachine]

end Grammar

end Packrat
