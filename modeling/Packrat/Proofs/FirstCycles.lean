import Mathlib
import Packrat.Analysis.Preparation
import Packrat.Proofs.WalkCycles

/-! # Cycles of first positions in a prepared grammar

    Preparation ends with a walk over the edges of first positions and fails if the walk selects a
    node.  So every edge that closed a cycle on that walk closed one with a boundary on it, and
    every cycle of first positions has such an edge.

    That is not yet a boundary on every cycle: the walk judges a closing edge by the path it took
    itself, and there may be another way back from the end of the edge to its start, over nodes
    that were done by then.  `prepare_cycles` says exactly when preparation broke all cycles, and
    `overlapping` is a grammar where it did not. -/

namespace Packrat

open Relation

/-- A successful program of two parts, taken apart. -/
theorem Edit.bind_ok {α β : Type} {x : Edit α} {f : α → Edit β} {g g' : Grammar} {b : β}
    (h : (x >>= f) g = .ok b g') : ∃ a g₁, x g = .ok a g₁ ∧ f a g₁ = .ok b g' := by
  simp only [bind, EStateM.bind] at h
  split at h
  · rename_i a g₁ hx
    exact ⟨a, g₁, hx, h⟩
  · cases h

theorem Edit.reading_ok {α : Type} {f : Grammar → Except Fault α} {g g' : Grammar} {a : α}
    (h : Edit.reading f g = .ok a g') : f g = .ok a ∧ g' = g := by
  rw [Edit.reading] at h
  split at h
  · rename_i b hb
    cases h
    exact ⟨hb, rfl⟩
  · cases h

/-! ## First positions -/

theorem mem_of_mem_upToFirstSolid {nullable : ExprId → Bool} {items : List ExprId} {i : ExprId}
    (h : i ∈ upToFirstSolid nullable items) : i ∈ items := by
  induction items with
  | nil => cases h
  | cons item rest ih =>
      rw [upToFirstSolid] at h
      split at h
      · rcases List.mem_cons.mp h with rfl | h
        · exact List.mem_cons_self ..
        · exact List.mem_cons_of_mem _ (ih h)
      · exact List.mem_cons.mpr (Or.inl (List.mem_singleton.mp h))

/-- What stands in first position is a child. -/
theorem Shape.mem_children_of_firsts {nullable : ExprId → Bool} {s : Shape ExprId} {i : ExprId}
    (h : i ∈ s.firsts nullable) : i ∈ s.children := by
  cases s with
  | sequence items => exact mem_of_mem_upToFirstSolid h
  | _ => exact h

namespace Grammar

variable {g g' : Grammar} {n : Nullability} {u v : ExprId}

/-- `v` may be matched where `u` starts. -/
def FirstEdge (g : Grammar) (n : Nullability) : ExprId → ExprId → Prop :=
  Walk.Edge (g.firsts? n)

/-- An edge that does not start at a boundary. -/
def BareEdge (g : Grammar) (n : Nullability) (u v : ExprId) : Prop :=
  g.FirstEdge n u v ∧ g.isBoundary u = false

/-- The walk in search of cycles that no boundary breaks. -/
def firstWalk (g : Grammar) (n : Nullability) : List Walk.Event :=
  (Walk.visitAll (g.firsts? n) g.pathBound (g.root.toList ++ g.ruleIds ++ g.ids) []).1

/-- An edge that closed a cycle on the walk. -/
def BackEdge (g : Grammar) (n : Nullability) : ExprId → ExprId → Prop :=
  Walk.Closes (g.firstWalk n)

/-! ## The walk over first positions -/

theorem lt_size_of_firsts? {x : ExprId} (h : (g.firsts? n x).isSome) : x < g.size := by
  obtain ⟨children, hx⟩ := Option.isSome_iff_exists.mp h
  obtain ⟨shape, hshape, -⟩ := Option.map_eq_some_iff.mp hx
  obtain ⟨e, he, -⟩ := Option.map_eq_some_iff.mp hshape
  exact (Array.getElem?_eq_some_iff.mp he).1

theorem exists_rank_of_firstWalk (g : Grammar) (n : Nullability) :
    ∃ rank : ExprId → Nat, ∀ u v, g.FirstEdge n u v → g.BackEdge n u v ∨ rank v < rank u := by
  refine Walk.exists_rank (fun x hx => lt_size_of_firsts? hx) ?_
  intro x hx
  refine List.mem_append_right _ ?_
  exact List.mem_range.mpr (lt_size_of_firsts? hx)

theorem boundary_of_backEdge (h : g.detectLeftRecursion n = .ok []) (hback : g.BackEdge n u v) :
    g.FirstEdge n u v ∧ ∃ b, g.isBoundary b ∧ ReflTransGen (g.FirstEdge n) v b ∧
      ReflTransGen (g.FirstEdge n) b u := by
  refine Walk.boundary_of_closes (fun x hx => lt_size_of_firsts? hx) ?_ hback
  rw [detectLeftRecursion, walkOver] at h
  simp only at h
  split at h
  · cases h
  · have hreverse := Except.ok.inj h
    exact List.reverse_eq_nil_iff.mp hreverse

/-! ## Cycles -/

/-- Where some order decreases along all edges but the marked ones, a cycle has a marked edge. -/
theorem exists_marked_of_cycle {edge marked : ExprId → ExprId → Prop} {rank : ExprId → Nat}
    (hrank : ∀ u v, edge u v → marked u v ∨ rank v < rank u) {x : ExprId}
    (hcycle : TransGen edge x x) :
    ∃ u v, marked u v ∧ edge u v ∧ ReflTransGen edge v u := by
  -- follow the cycle from `x`: as long as no edge is marked, the rank stays below that of `x`
  have hfollow : ∀ {y : ExprId}, TransGen edge x y → ReflTransGen edge y x →
      (∃ u v, marked u v ∧ edge u v ∧ ReflTransGen edge v u) ∨ rank y < rank x := by
    intro y hxy
    induction hxy with
    | single hedge =>
        intro hback
        rcases hrank _ _ hedge with hmarked | hlt
        · exact Or.inl ⟨_, _, hmarked, hedge, hback⟩
        · exact Or.inr hlt
    | tail hpath hedge ih =>
        intro hback
        rcases hrank _ _ hedge with hmarked | hlt
        · exact Or.inl ⟨_, _, hmarked, hedge, hback.trans hpath.to_reflTransGen⟩
        · rcases ih (hback.head hedge) with hfound | hbelow
          · exact Or.inl hfound
          · exact Or.inr (hlt.trans hbelow)
  rcases hfollow hcycle .refl with hfound | hlt
  · exact hfound
  · exact absurd hlt (Nat.lt_irrefl _)

/-- In a chain, every element but the last is followed by another. -/
theorem exists_next_of_chain {edge : ExprId → ExprId → Prop} {l : List ExprId} {z : ExprId}
    (h : List.IsChain edge (l ++ [z])) : ∀ x ∈ l, ∃ y, edge x y := by
  intro x hx
  obtain ⟨before, after, rfl⟩ := List.append_of_mem hx
  rw [List.append_assoc] at h
  have hfrom := h.right_of_append
  cases after with
  | nil => exact ⟨z, hfrom.rel⟩
  | cons y after => exact ⟨y, hfrom.rel⟩

/-- Every cycle of first positions has a boundary if and only if there is no cycle of bare edges. -/
theorem cycles_broken_iff :
    (∀ v rest, List.IsChain (g.FirstEdge n) (v :: (rest ++ [v])) → ∃ b ∈ v :: rest, g.isBoundary b) ↔
      ∀ v, ¬ TransGen (g.BareEdge n) v v := by
  constructor
  · intro h v hcycle
    obtain ⟨w, hvw, hwv⟩ := TransGen.head'_iff.mp hcycle
    obtain ⟨l, hchain, hlast⟩ := List.exists_isChain_cons_of_relationReflTransGen hwv
    have hsplit : w :: l = (w :: l).dropLast ++ [v] := by
      rw [← hlast, List.dropLast_append_getLast]
    have hbare : List.IsChain (g.BareEdge n) (v :: ((w :: l).dropLast ++ [v])) := by
      rw [← hsplit]
      exact .cons_cons hvw hchain
    obtain ⟨b, hb, hboundary⟩ := h v (w :: l).dropLast (hbare.imp fun _ _ hedge => hedge.1)
    obtain ⟨y, -, hno⟩ := exists_next_of_chain hbare b hb
    rw [hboundary] at hno
    cases hno
  · intro h v rest hchain
    by_contra hno
    refine h v ?_
    have hbare : List.IsChain (g.BareEdge n) (v :: (rest ++ [v])) := by
      refine hchain.imp_of_mem_imp ?_
      intro x y hx _ hedge
      refine ⟨hedge, ?_⟩
      have hmem : x ∈ v :: rest := by simpa [or_comm, or_left_comm] using hx
      rw [← Bool.not_eq_true]
      exact fun hboundary => hno ⟨x, hmem, hboundary⟩
    have hpairs := (hbare.imp fun _ _ => TransGen.single).pairwise
    exact (List.pairwise_cons.mp hpairs).1 v (by simp)

/-! ## Preparation -/

theorem validate_detects {options : PrepareOptions} (h : g.validate n options = .ok ()) :
    g.detectLeftRecursion n = .ok [] := by
  simp only [validate, bind, Except.bind] at h
  split at h
  · cases h
  split at h
  · cases h
  split at h
  · cases h
  split at h
  · cases h
  split at h
  · cases h
  · rename_i selected hselected
    cases selected with
    | nil => exact hselected
    | cons cycle later =>
        exfalso
        dsimp only at h
        split at h
        · cases h
        · cases h

/-- Nullability does not depend on the mark of a prepared grammar. -/
theorem nullability_mark (g : Grammar) (mark : Bool) :
    ({ g with prepared := mark } : Grammar).nullability = g.nullability := by
  have hpropagate : ∀ bound s, Nullability.Search.propagate { g with prepared := mark } bound s =
      Nullability.Search.propagate g bound s := by
    intro bound
    induction bound with
    | zero => exact fun _ => rfl
    | succ bound ih =>
        intro s
        rw [Nullability.Search.propagate, Nullability.Search.propagate]
        split
        · rfl
        · exact ih _
  have hleave : Nullability.Search.leave { g with prepared := mark } =
      Nullability.Search.leave g := funext₂ fun s id => hpropagate g.size _
  rw [nullability, nullability, hleave]
  rfl

/-- A prepared grammar passed the checks in its final form, and was marked. -/
theorem prepare_validates {options : PrepareOptions} {report : PrepareReport}
    (h : prepare options g = .ok report g') :
    ∃ (g₁ : Grammar) (n : Nullability), g' = { g₁ with prepared := true } ∧
      g'.nullability = .ok n ∧
      g₁.validate n options = .ok () := by
  obtain ⟨g₀, _, -, h⟩ := Edit.bind_ok h
  dsimp only at h
  split at h
  · cases h
  · obtain ⟨references, _, -, h⟩ := Edit.bind_ok h
    obtain ⟨before, _, -, h⟩ := Edit.bind_ok h
    -- whether or not left recursion was broken in place, the same checks end the preparation
    have hchecked : ∃ wrapped g₁, (do
        let after ← Edit.reading Grammar.nullability
        Edit.reading fun g => g.validate after options
        modify fun g => { g with prepared := true }
        return { references, leftRecursive := wrapped, nullable := after.count } :
          Edit PrepareReport) g₁ = .ok report g' := by
      split at h
      · obtain ⟨wrapped, g₁, -, h⟩ := Edit.bind_ok h
        exact ⟨wrapped, g₁, h⟩
      · obtain ⟨wrapped, g₁, -, h⟩ := Edit.bind_ok h
        exact ⟨wrapped, g₁, h⟩
    obtain ⟨wrapped, g₁, hrun⟩ := hchecked
    obtain ⟨n, _, hread, hrest⟩ := Edit.bind_ok hrun
    obtain ⟨hn, rfl⟩ := Edit.reading_ok hread
    obtain ⟨⟨⟩, _, hread', hmark⟩ := Edit.bind_ok hrest
    obtain ⟨hvalid, rfl⟩ := Edit.reading_ok hread'
    cases hmark
    exact ⟨_, n, rfl, (nullability_mark _ true).trans hn, hvalid⟩

/-- A prepared grammar was searched for cycles in its final form, and nothing was selected. -/
theorem prepare_detects {options : PrepareOptions} {report : PrepareReport}
    (h : prepare options g = .ok report g') :
    ∃ n, g'.nullability = .ok n ∧ g'.detectLeftRecursion n = .ok [] := by
  obtain ⟨g₁, n, rfl, hn, hvalid⟩ := prepare_validates h
  have hdetect := validate_detects hvalid
  exact ⟨n, hn, hdetect⟩

/-- In a prepared grammar, every edge of first positions that closes a cycle on the walk in search
    of left recursion closes one with a boundary.  All cycles have a boundary if and only if there
    is no other way back that meets none, for no such edge. -/
theorem prepare_cycles {options : PrepareOptions} {report : PrepareReport}
    (h : prepare options g = .ok report g') :
    ∃ n, g'.nullability = .ok n ∧
      (∀ u v, g'.BackEdge n u v → g'.FirstEdge n u v ∧ ∃ b, g'.isBoundary b ∧
        ReflTransGen (g'.FirstEdge n) v b ∧ ReflTransGen (g'.FirstEdge n) b u) ∧
      ((∀ v rest, List.IsChain (g'.FirstEdge n) (v :: (rest ++ [v])) →
          ∃ b ∈ v :: rest, g'.isBoundary b) ↔
        ∀ u v, g'.BackEdge n u v → g'.isBoundary u = false → ¬ ReflTransGen (g'.BareEdge n) v u) := by
  obtain ⟨n, hn, hdetect⟩ := prepare_detects h
  refine ⟨n, hn, fun u v hback => boundary_of_backEdge hdetect hback, ?_⟩
  rw [cycles_broken_iff]
  constructor
  · intro hnone u v hback hu hwayback
    have hedge := (boundary_of_backEdge hdetect hback).1
    exact hnone u (TransGen.head' ⟨hedge, hu⟩ hwayback)
  · intro hback x hcycle
    obtain ⟨rank, hrank⟩ := exists_rank_of_firstWalk g' n
    obtain ⟨u, v, hmarked, hedge, hwayback⟩ :=
      exists_marked_of_cycle (fun u v (huv : g'.BareEdge n u v) => hrank u v huv.1) hcycle
    exact hback u v hmarked hedge.2 hwayback

/-- Two cycles share all nodes but one.  The first goes through a boundary, and the walk closes it
    before it comes to the second, which goes through a sequence instead. -/
def overlapping : Grammar :=
  { nodes := #[.ofShape (.choice [1, 2]), .ofShape (.leftRecursive 3 false),
      .ofShape (.sequence [3, 5]), .ofShape (.choice [4, 6]), .ofShape (.sequence [0, 7]),
      .ofShape (.literal "!"), .ofShape (.literal "n"), .ofShape (.literal "+")]
    root := some 0 }

theorem prepare_overlapping :
    prepare {} overlapping = .ok ⟨0, [], 0⟩ { overlapping with prepared := true } := by
  cbv

theorem nullability_overlapping :
    ({ overlapping with prepared := true } : Grammar).nullability =
      .ok ⟨Array.replicate 8 false⟩ := by
  cbv

theorem prepare_cycles_overlapping :
    ∃ report g' n, prepare {} overlapping = .ok report g' ∧ g'.nullability = .ok n ∧
      List.IsChain (g'.FirstEdge n) [0, 2, 3, 4, 0] ∧ (∀ b ∈ [0, 2, 3, 4], g'.isBoundary b = false) ∧
      ∃ u v, g'.BackEdge n u v ∧ g'.isBoundary u = false ∧ ReflTransGen (g'.BareEdge n) v u := by
  obtain ⟨n, hn, -, hiff⟩ := prepare_cycles prepare_overlapping
  obtain rfl : (⟨Array.replicate 8 false⟩ : Nullability) = n :=
    Except.ok.inj (nullability_overlapping.symm.trans hn)
  have hchain : List.IsChain (FirstEdge { overlapping with prepared := true }
      ⟨Array.replicate 8 false⟩) [0, 2, 3, 4, 0] := by
    refine .cons_cons ⟨[1, 2], by cbv, by simp⟩ (.cons_cons ⟨[3], by cbv, by simp⟩ ?_)
    exact .cons_cons ⟨[4, 6], by cbv, by simp⟩ (.cons_cons ⟨[0], by cbv, by simp⟩ (.singleton 0))
  have hbare : ∀ b ∈ [0, 2, 3, 4],
      isBoundary { overlapping with prepared := true } b = false := by decide
  refine ⟨_, _, _, prepare_overlapping, hn, hchain, hbare, ?_⟩
  -- the cycle has no boundary, so the condition of the theorem fails
  by_contra hnone
  obtain ⟨b, hb, hboundary⟩ :=
    hiff.mpr (fun u v hback hu hway => hnone ⟨u, v, hback, hu, hway⟩) 0 [2, 3, 4] hchain
  rw [hbare b hb] at hboundary
  cases hboundary

end Grammar

end Packrat
