import Packrat.Proofs.Preparation.SecondSearch
import Packrat.Proofs.Preparation.Wrapping

/-! # Breaking left recursion leaves none to break

    What the search selects is wrapped, and the graph of first positions of the grammar that results
    is the one before with the selected nodes split (`Wrapped.splits`).  So a second search selects
    nothing (`breakLeftRecursion_breaks`). -/

namespace Packrat

theorem upToFirstSolid_congr {p q : ExprId → Bool} {items : List ExprId}
    (h : ∀ i ∈ items, p i = q i) : upToFirstSolid p items = upToFirstSolid q items := by
  induction items with
  | nil => rfl
  | cons item rest ih =>
      obtain ⟨hitem, hrest⟩ := List.forall_mem_cons.mp h
      rw [upToFirstSolid, upToFirstSolid, hitem, ih hrest]

/-- Which children stand in first position depends on whether they are nullable, and on nothing
    else. -/
theorem Shape.firsts_congr {p q : ExprId → Bool} {s : Shape ExprId}
    (h : ∀ c ∈ s.children, p c = q c) : s.firsts p = s.firsts q := by
  cases s with
  | sequence items => exact upToFirstSolid_congr h
  | _ => rfl

namespace Grammar

open Relation

variable {g g' : Grammar} {n n' : Nullability} {inner : ExprId → Option ExprId} {u x : ExprId}
  {selected : List ExprId} {options : LeftRecursionOptions}

theorem child_of_firstEdge (h : g.FirstEdge n u x) :
    ∃ s, g.shape? u = some s ∧ x ∈ s.children := by
  obtain ⟨firsts, hfirsts, hx⟩ := h
  obtain ⟨s, hs, rfl⟩ := Option.map_eq_some_iff.mp hfirsts
  exact ⟨s, hs, Shape.mem_children_of_firsts hx⟩

theorem isSome_firsts? (hx : x < g.size) : (g.firsts? n x).isSome := by
  obtain ⟨e, hnode⟩ := node?_of_lt_size hx
  rw [firsts?, shape?_of_node? hnode]
  rfl

/-! ## What is selected -/

theorem detectLeftRecursion_ok (h : g.detectLeftRecursion n = .ok selected) :
    g.walkOver (g.firsts? n) (g.root.toList ++ g.ruleIds ++ g.ids) = .ok (g.firstWalk n) ∧
      selected = (Walk.seen g.isBoundary {} (g.firstWalk n)).selected.reverse := by
  obtain ⟨events, hwalk, hselected⟩ := ok_of_bind h
  cases hselected
  have hevents : g.firstWalk n = events := (walkOver_eq_ok.mp hwalk).1
  exact ⟨hevents ▸ hwalk, hevents ▸ rfl⟩

/-- No node is selected twice, and each stands in first position of some node. -/
theorem detectLeftRecursion_selects (h : g.detectLeftRecursion n = .ok selected) :
    selected.Nodup ∧ ∀ x ∈ selected, ∃ u, g.FirstEdge n u x := by
  obtain ⟨hwalk, rfl⟩ := detectLeftRecursion_ok h
  refine ⟨List.nodup_reverse.mpr (Detection.nodup_selected_foldl List.nodup_nil), fun x hx => ?_⟩
  rcases Detection.mem_cutoff_of_selected (List.mem_reverse.mp hx) with hx | ⟨u, k, hmem⟩
  · cases hx
  · exact ⟨u, Walk.edge_of_mem_visitAll rfl hmem⟩

/-- Breaking wraps exactly what the search selects. -/
theorem breakLeftRecursion_wraps (hn : g.nullability = .ok n)
    (h : breakLeftRecursion n options g = .ok selected g') :
    g.detectLeftRecursion n = .ok selected ∧
      ∃ inner, Wrapped g g' inner ∧ ∀ x, (inner x).isSome ↔ x ∈ selected := by
  obtain ⟨found, g₁, hread, hrest⟩ := Edit.bind_ok h
  obtain ⟨hdetect, rfl⟩ := Edit.reading_ok hread
  obtain ⟨⟨⟩, g₂, hwrap, hend⟩ := Edit.bind_ok hrest
  cases hend
  refine ⟨hdetect, ?_⟩
  obtain ⟨hnodup, hedges⟩ := detectLeftRecursion_selects hdetect
  have hselected : ∀ x ∈ selected, x < g₁.size ∧ (none : Option ExprId) = none := by
    intro x hx
    obtain ⟨u, hedge⟩ := hedges x hx
    obtain ⟨s, hs, hchild⟩ := child_of_firstEdge hedge
    exact ⟨child_lt_size hn hs hchild, rfl⟩
  obtain ⟨inner, hwrapped, hinner⟩ := (Wrapped.refl g₁).wrapAll hnodup hselected hwrap
  exact ⟨inner, hwrapped, fun x => by simpa using hinner x⟩

/-! ## The second search -/

/-- The graph of first positions after wrapping is the one before with the wrapped nodes split. -/
theorem Wrapped.splits (h : Wrapped g g' inner) (hn : g.nullability = .ok n)
    (hsame : ∀ x < g.size, n'.isNullable x = n.isNullable x) :
    Walk.Splits (g.firsts? n) (g'.firsts? n') g.isBoundary g'.isBoundary inner := by
  have hfirsts : ∀ {x y}, g'.shape? y = g.shape? x → g'.firsts? n' y = g.firsts? n x := by
    intro x y hshape
    rw [firsts?, firsts?, hshape]
    cases hs : g.shape? x with
    | none => rfl
    | some s =>
        exact congrArg some (Shape.firsts_congr fun c hc => hsame c (child_lt_size hn hs hc))
  have hbreaks : ∀ x i, inner x = some i → g'.isBoundary x = true := by
    intro x i hi
    obtain ⟨a, ha⟩ := h.wrapper x i hi
    rw [isBoundary, ha]
    rfl
  refine
    { closed := ?_
      plain := fun x hx hplain => hfirsts (h.plain x (lt_size_of_firsts? hx) hplain)
      outer := ?_
      moved := fun x i hi => hfirsts (h.moved x i hi)
      fresh := ?_
      injective := h.injective
      breaks := hbreaks
      boundary := ?_ }
  · intro u v hedge
    obtain ⟨s, hs, hchild⟩ := child_of_firstEdge hedge
    exact isSome_firsts? (child_lt_size hn hs hchild)
  · intro x i hi
    obtain ⟨a, ha⟩ := h.wrapper x i hi
    rw [firsts?, ha]
    rfl
  · intro x i hi
    by_contra hsome
    have hlt := lt_size_of_firsts? (Option.isSome_iff_ne_none.mpr hsome)
    exact absurd (h.fresh x i hi) (Nat.not_le.mpr hlt)
  · intro x hx hboundary
    cases hinner : inner x with
    | none =>
        rw [isBoundary, h.plain x (lt_size_of_firsts? hx) hinner]
        exact hboundary
    | some i => exact hbreaks x i hinner

/-- A second walk has the roots of the first, and the inner nodes behind them. -/
theorem Wrapped.roots (h : Wrapped g g' inner) :
    g'.root.toList ++ g'.ruleIds ++ g'.ids = g.root.toList ++ g.ruleIds ++ g.ids ++
      (List.range (g'.size - g.size)).map (g.size + ·) := by
  have hsize : g'.size = g.size + (g'.size - g.size) := (Nat.add_sub_cancel' h.grows).symm
  rw [h.root, ruleIds, sortedRules, h.rules, ids, hsize, List.range_add, List.append_assoc,
    List.append_assoc, List.append_assoc]
  simp [ruleIds, sortedRules, ids]

/-- Where the edges stay in the grammar, a walk from roots of it meets no missing node. -/
theorem walkOver_firsts (hn : g.nullability = .ok n)
    (hroots : ∀ r ∈ g.root.toList ++ g.ruleIds ++ g.ids, r < g.size) :
    g.walkOver (g.firsts? n) (g.root.toList ++ g.ruleIds ++ g.ids) = .ok (g.firstWalk n) := by
  refine walkOver_ok (fun u v hedge => ?_) fun r hr => isSome_firsts? (hroots r hr)
  obtain ⟨s, hs, hchild⟩ := child_of_firstEdge hedge
  exact isSome_firsts? (child_lt_size hn hs hchild)

/-- After breaking, the search finds nothing to break. -/
theorem breakLeftRecursion_breaks (hn : g.nullability = .ok n)
    (h : breakLeftRecursion n options g = .ok selected g') :
    ∃ n', g'.nullability = .ok n' ∧ g'.detectLeftRecursion n' = .ok [] := by
  obtain ⟨hdetect, inner, hwrapped, hinner⟩ := breakLeftRecursion_wraps hn h
  obtain ⟨n', hn', hsame⟩ := hwrapped.nullability_ok hn
  refine ⟨n', hn', ?_⟩
  have hsplits := hwrapped.splits hn hsame
  obtain ⟨hwalk, hselected⟩ := detectLeftRecursion_ok hdetect
  have hroots : ∀ r ∈ g.root.toList ++ g.ruleIds ++ g.ids, (g.firsts? n r).isSome :=
    fun r hr => (walkOver_reaches (fun _ hx => lt_size_of_firsts? hx) hwalk hr .refl).2
  -- the second walk mirrors the first, as far as its roots are the same
  have hmirrors := Walk.visitAll_mirrors (fun _ hx => lt_size_of_firsts? hx)
    (fun _ hx => lt_size_of_firsts? hx) hsplits hroots
    (fun y hy => (hinner y).mpr (hselected ▸ List.mem_reverse.mpr hy))
    (Walk.mirrors_nil (g.firsts? n) inner)
  have hvisited := (Walk.visitAll_walked (fun _ hx => lt_size_of_firsts? hx)
    (g.root.toList ++ g.ruleIds ++ g.ids) (Walk.surveyed_nil (g.firsts? n) fun _ => false)).2
  -- the other roots are inner nodes, which are done by then
  have hdone : ∀ i ∈ (List.range (g'.size - g.size)).map (g.size + ·),
      Walk.Done (Walk.visitAll (g'.firsts? n') (g'.size + 1) (g.root.toList ++ g.ruleIds ++ g.ids)
        []).2 i := by
    intro i hi
    obtain ⟨k, hk, rfl⟩ := List.mem_map.mp hi
    rw [List.mem_range] at hk
    obtain ⟨x, hx⟩ := hwrapped.onto (g.size + k) (by omega) (Nat.le_add_right _ _)
    obtain ⟨mark, hmark⟩ := Option.isSome_iff_exists.mp (hvisited x
      (List.mem_append_right _ (List.mem_range.mpr (hwrapped.old x _ hx))))
    cases mark with
    | onPath k => exact absurd (hmirrors.path x k hmark).1 (Nat.not_lt_zero k)
    | done => exact (hmirrors.done x hmark).2 _ hx
  have hwalk' : g'.walkOver (g'.firsts? n') (g'.root.toList ++ g'.ruleIds ++ g'.ids) =
      .ok (g'.firstWalk n') := by
    refine walkOver_firsts hn' fun r hr => ?_
    rw [hwrapped.roots] at hr
    rcases List.mem_append.mp hr with hr | hr
    · exact (lt_size_of_firsts? (hroots r hr)).trans_le hwrapped.grows
    · obtain ⟨k, hk, rfl⟩ := List.mem_map.mp hr
      exact Nat.add_lt_of_lt_sub' (List.mem_range.mp hk)
  have hevents : g'.firstWalk n' = (Walk.visitAll (g'.firsts? n') (g'.size + 1)
      (g.root.toList ++ g.ruleIds ++ g.ids) []).1 := by
    rw [firstWalk, hwrapped.roots, pathBound, Walk.visitAll_append, Walk.visitAll_done hdone]
    exact List.append_nil _
  have hclear : (Walk.seen g'.isBoundary {} (g'.firstWalk n')).selected = [] := by
    rw [hevents]
    exact hmirrors.clear
  rw [detectLeftRecursion, hwalk']
  exact congrArg (fun l => Except.ok l.reverse) hclear

end Grammar

end Packrat
