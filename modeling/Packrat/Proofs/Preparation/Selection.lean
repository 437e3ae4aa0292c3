import Packrat.Proofs.Preparation.Breaking
import Packrat.Proofs.WalkValues

/-! # What the search for left recursion selects

    At each moment of the walk the path is a chain of edges, and the search has kept the depth of
    EVERY boundary on the path, whatever other depths it has kept (`boundary_kept`).  An edge to a
    node on the path that finds no depth kept there or deeper closes a cycle without a boundary, and only
    such an edge selects its end (`cycle_of_selected`). -/

namespace Packrat

namespace Detection

variable {d : Detection} {isBoundary : ExprId → Bool} {e : Walk.Event} {k : Nat}

/-- A depth is dropped when the node at it is left, and not before. -/
theorem mem_boundaries_observe (h : k ∈ d.boundaries)
    (hleave : ∀ id edges, e ≠ .leave id k edges) : k ∈ (d.observe isBoundary e).boundaries := by
  cases e with
  | enter id depth => exact mem_boundaries_enter.mpr (.inr h)
  | cutoff parent child depth =>
      rw [observe, close]
      split
      · exact h
      · dsimp only
        split <;> exact List.mem_cons_of_mem _ h
  | leave id depth edges =>
      refine mem_boundaries_leave.mpr ⟨h, ?_⟩
      rintro rfl
      exact hleave id edges rfl
  | missing | edge | edgeDone => exact h

/-- What an event selects is the end of an edge that found nothing kept at its depth or deeper. -/
theorem new_selected_observe {x : ExprId} (h : x ∈ (d.observe isBoundary e).selected) :
    x ∈ d.selected ∨ ∃ u k, e = .cutoff u x k ∧ ∀ j ∈ d.boundaries, j < k := by
  rcases selected_observe isBoundary d e with heq | ⟨u, y, k, rfl, hnew, heq⟩
  · exact Or.inl (heq ▸ h)
  · rcases List.mem_cons.mp (heq ▸ h) with rfl | hold
    · refine Or.inr ⟨u, k, rfl, fun j hj => Nat.not_le.mp fun hkj => ?_⟩
      -- a depth kept there would have left the search as it was
      rw [observe, close_broken hj hkj] at h
      exact hnew h
    · exact Or.inl hold

end Detection

namespace Walk

variable {graph : Graph} {isBoundary : ExprId → Bool} {marked roots : List ExprId}
  {events before after : List Event} {x : ExprId} {k : Nat}

/-- A cycle of edges through a node, with no boundary on it. -/
def BareCycle (graph : Graph) (isBoundary : ExprId → Bool) (x : ExprId) : Prop :=
  ∃ rest, List.IsChain (Edge graph) (x :: (rest ++ [x])) ∧
    ∀ b ∈ x :: rest, isBoundary b = false

section

variable (hnested : ∀ earlier e later, events = earlier ++ e :: later →
  e.Holds graph marked roots earlier later)
include hnested

/-- The path leads along edges. -/
theorem isChain_path (hsplit : events = before ++ after) : List.IsChain (Edge graph) (path before) := by
  induction before using List.reverseRecOn generalizing after with
  | nil => exact .nil
  | append_singleton before e ih =>
      rw [List.append_assoc] at hsplit
      have hchain := ih hsplit
      have hhere := hnested before e after hsplit
      rw [path_singleton]
      cases e with
      | enter id depth =>
          refine List.isChain_append.mpr ⟨hchain, .singleton id, fun parent hparent y hy => ?_⟩
          have hleads := hhere.2.2.2
          rw [Leads, hparent] at hleads
          cases hy
          exact hleads
      | leave id depth edges => exact hchain.dropLast
      | missing | edge | cutoff | edgeDone => exact hchain

/-- The depth of a boundary on the path is kept. -/
theorem boundary_kept (hsplit : events = before ++ after) (hx : (path before)[k]? = some x)
    (hboundary : isBoundary x = true) : k ∈ (detected isBoundary before).boundaries := by
  induction before using List.reverseRecOn generalizing after k x with
  | nil => cases hx
  | append_singleton before e ih =>
      rw [List.append_assoc] at hsplit
      have hhere := hnested before e after hsplit
      rw [path_singleton] at hx
      rw [detected_singleton]
      cases e with
      | enter id depth =>
          obtain ⟨rfl, -⟩ := hhere
          rw [Event.extend, List.getElem?_append] at hx
          split at hx
          · exact Detection.mem_boundaries_enter.mpr (.inr (ih hsplit hx hboundary))
          · obtain ⟨hlast, rfl⟩ := List.getElem?_eq_some_iff.mp hx
            refine Detection.mem_boundaries_enter.mpr (.inl ⟨by simpa using hboundary, ?_⟩)
            rw [List.length_singleton] at hlast
            omega
      | leave id depth edges =>
          obtain ⟨⟨outer, hpath, rfl⟩, -⟩ := hhere
          rw [Event.extend, hpath, List.dropLast_concat] at hx
          have hk : k < outer.length := (List.getElem?_eq_some_iff.mp hx).1
          refine Detection.mem_boundaries_leave.mpr ⟨ih hsplit ?_ hboundary, hk.ne⟩
          rw [hpath, List.getElem?_append_left hk, hx]
      | missing | edge | cutoff | edgeDone =>
          exact Detection.mem_boundaries_observe (ih hsplit hx hboundary) (by simp)

/-- The part of the path from the end of a closing edge on is a cycle. -/
theorem cycle_of_cutoff {u : ExprId} (hsplit : events = before ++ .cutoff u x k :: after)
    (hfree : ∀ j y, k ≤ j → (path before)[j]? = some y → isBoundary y = false) :
    BareCycle graph isBoundary x := by
  obtain ⟨hlast, hdepth, index, hedge⟩ := hnested before _ after hsplit
  -- the edge was announced by the event before
  obtain ⟨earlier, rfl⟩ := List.getLast?_eq_some_iff.mp hedge
  rw [List.append_assoc] at hsplit
  have hux : Edge graph u x :=
    edge_iff.mpr (List.mem_of_getElem? (hnested earlier _ _ hsplit).2.1)
  have hchain := (isChain_path hnested (hsplit.trans (List.append_assoc ..).symm)).drop k
  generalize path (earlier ++ [.edge u index x]) = path at hlast hdepth hchain hfree
  obtain ⟨hk, hget⟩ := List.getElem?_eq_some_iff.mp hdepth
  have hdrop : path.drop k = x :: path.drop (k + 1) := by
    rw [← hget, List.cons_getElem_drop_succ]
  refine ⟨path.drop (k + 1), ?_, ?_⟩
  · rw [hdrop] at hchain
    refine List.isChain_append.mpr ⟨hchain, .singleton x, fun v hv y hy => ?_⟩
    rw [← hdrop, List.getLast?_drop, if_neg (Nat.not_le.mpr hk), hlast] at hv
    cases hv
    cases hy
    exact hux
  · rw [← hdrop]
    intro b hb
    obtain ⟨j, hj⟩ := List.mem_iff_getElem?.mp hb
    rw [List.getElem?_drop] at hj
    exact hfree (k + j) b (Nat.le_add_right k j) hj

/-- What is selected lies on a cycle without a boundary. -/
theorem cycle_of_selected (hsplit : events = before ++ after)
    (hx : x ∈ (detected isBoundary before).selected) : BareCycle graph isBoundary x := by
  induction before using List.reverseRecOn generalizing after with
  | nil => cases hx
  | append_singleton before e ih =>
      rw [List.append_assoc] at hsplit
      rw [detected_singleton] at hx
      rcases Detection.new_selected_observe hx with hold | ⟨u, k, rfl, hnone⟩
      · exact ih hsplit hold
      · refine cycle_of_cutoff hnested hsplit fun j y hkj hy => ?_
        by_contra hboundary
        have hkept := boundary_kept hnested hsplit hy (Bool.not_eq_false _ ▸ hboundary)
        exact absurd (hnone j hkept) (Nat.not_lt.mpr hkj)

end

end Walk

namespace Grammar

variable {g : Grammar} {n : Nullability} {selected : List ExprId}

/-- Every node that the search selects lies on a cycle of first positions without a boundary. -/
theorem detectLeftRecursion_cycles (h : g.detectLeftRecursion n = .ok selected) :
    ∀ x ∈ selected, Walk.BareCycle (g.firsts? n) g.isBoundary x := by
  intro x hx
  obtain ⟨-, rfl⟩ := detectLeftRecursion_ok h
  have hsize : ∀ x, (g.firsts? n x).isSome → x < g.size := fun _ hx => lt_size_of_firsts? hx
  have hwalk := Walk.visitAll_depthFirst hsize (Nat.lt_succ_self g.size) []
    (g.root.toList ++ g.ruleIds ++ g.ids)
  exact Walk.cycle_of_selected hwalk.nested (List.append_nil _).symm (List.mem_reverse.mp hx)

end Grammar

end Packrat
