import Mathlib.Data.Set.Insert
import Packrat.Proofs.WalkOnce

/-! # A walk enters nodes in preorder

    A node that was not seen comes before its children, and these come before whatever was ahead
    of them.  Read as a relation this fixes ONE ORDER for a list of nodes ahead and a set of nodes
    seen (`InPreorder.unique`).  From the relation alone: the order lists no node twice and none that
    was seen, and it lists exactly the nodes within reach of what is ahead along paths that avoid
    what was seen (`InPreorder.mem_iff`).

    A walk enters nodes in this order (`visitAll_preorder`).  Its marks say what was seen. -/

namespace Packrat.Walk

open Relation

variable {graph : Graph} {seen : Set ExprId} {ahead order order' : List ExprId} {x y : ExprId}

/-! ## Preorder -/

/-- The order in which nodes ahead, and what is below them, come for the first time. -/
inductive InPreorder (graph : Graph) : Set ExprId → List ExprId → List ExprId → Prop where
  | nil (seen : Set ExprId) : InPreorder graph seen [] []
  | skip {seen : Set ExprId} {x : ExprId} {ahead order : List ExprId} :
      x ∈ seen → InPreorder graph seen ahead order → InPreorder graph seen (x :: ahead) order
  | visit {seen : Set ExprId} {x : ExprId} {ahead order : List ExprId} :
      x ∉ seen → InPreorder graph (insert x seen) ((graph x).getD [] ++ ahead) order →
      InPreorder graph seen (x :: ahead) (x :: order)

/-- An edge to a node that is not in a set. -/
def Avoiding (graph : Graph) (seen : Set ExprId) (u v : ExprId) : Prop :=
  Edge graph u v ∧ v ∉ seen

theorem avoiding_empty (graph : Graph) : Avoiding graph ∅ = Edge graph := by
  funext u v
  exact propext (and_iff_left (Set.notMem_empty v))

namespace InPreorder

/-- There is one such order. -/
theorem unique (h : InPreorder graph seen ahead order) (h' : InPreorder graph seen ahead order') :
    order = order' := by
  induction h generalizing order' with
  | nil =>
      cases h'
      rfl
  | skip hseen _ ih =>
      cases h' with
      | skip _ hrest => exact ih hrest
      | visit hnew _ => exact absurd hseen hnew
  | visit hnew _ ih =>
      cases h' with
      | skip hseen _ => exact absurd hseen hnew
      | visit _ hrest => rw [ih hrest]

/-- No node is listed twice, and none that was seen. -/
theorem nodup (h : InPreorder graph seen ahead order) :
    order.Nodup ∧ ∀ x ∈ order, x ∉ seen := by
  induction h with
  | nil => simp
  | skip _ _ ih => exact ih
  | visit hnew _ ih =>
      obtain ⟨hnodup, hfresh⟩ := ih
      refine ⟨List.nodup_cons.mpr ⟨fun hmem => hfresh _ hmem (Set.mem_insert _ _), hnodup⟩, ?_⟩
      refine List.forall_mem_cons.mpr ⟨hnew, fun y hy hseen => ?_⟩
      exact hfresh y hy (Set.mem_insert_of_mem _ hseen)

/-- What is listed is within reach. -/
theorem reach_of_mem (h : InPreorder graph seen ahead order) (hy : y ∈ order) :
    ∃ r ∈ ahead, r ∉ seen ∧ ReflTransGen (Avoiding graph seen) r y := by
  induction h with
  | nil => cases hy
  | skip _ _ ih =>
      obtain ⟨r, hr, hnew, hreach⟩ := ih hy
      exact ⟨r, List.mem_cons_of_mem _ hr, hnew, hreach⟩
  | @visit seen x ahead order hnew _ ih =>
      rcases List.mem_cons.mp hy with rfl | hy
      · exact ⟨y, List.mem_cons_self .., hnew, .refl⟩
      · obtain ⟨r, hr, hunseen, hreach⟩ := ih hy
        have hfresh : r ∉ seen := fun hseen => hunseen (Set.mem_insert_of_mem x hseen)
        have hweaker : Avoiding graph (insert x seen) ≤ Avoiding graph seen := fun _ _ hedge =>
          ⟨hedge.1, fun hseen => hedge.2 (Set.mem_insert_of_mem x hseen)⟩
        have hpath := ReflTransGen.mono hweaker r y hreach
        rcases List.mem_append.mp hr with hchild | hahead
        · exact ⟨x, List.mem_cons_self .., hnew, .head ⟨edge_iff.mpr hchild, hfresh⟩ hpath⟩
        · exact ⟨r, List.mem_cons_of_mem x hahead, hfresh, hpath⟩

/-- What is ahead is listed or was seen, and so are the children of what is listed. -/
theorem closed (h : InPreorder graph seen ahead order) :
    (∀ r ∈ ahead, r ∈ seen ∨ r ∈ order) ∧
      ∀ u ∈ order, ∀ v, Edge graph u v → v ∈ seen ∨ v ∈ order := by
  induction h with
  | nil => simp
  | skip hseen _ ih => exact ⟨List.forall_mem_cons.mpr ⟨Or.inl hseen, ih.1⟩, ih.2⟩
  | @visit seen x ahead order hnew _ ih =>
      have hlater : ∀ v, v ∈ insert x seen ∨ v ∈ order → v ∈ seen ∨ v ∈ x :: order := by
        rintro v ((rfl | hv) | hv)
        · exact Or.inr (List.mem_cons_self ..)
        · exact Or.inl hv
        · exact Or.inr (List.mem_cons_of_mem x hv)
      refine ⟨List.forall_mem_cons.mpr ⟨Or.inr (List.mem_cons_self ..), fun r hr => ?_⟩, ?_⟩
      · exact hlater r (ih.1 r (List.mem_append_right _ hr))
      · refine List.forall_mem_cons.mpr ⟨fun v hedge => ?_, fun u hu v hedge => ?_⟩
        · exact hlater v (ih.1 v (List.mem_append_left _ (edge_iff.mp hedge)))
        · exact hlater v (ih.2 u hu v hedge)

/-- Exactly what is within reach is listed. -/
theorem mem_iff (h : InPreorder graph seen ahead order) :
    y ∈ order ↔ ∃ r ∈ ahead, r ∉ seen ∧ ReflTransGen (Avoiding graph seen) r y := by
  refine ⟨h.reach_of_mem, ?_⟩
  rintro ⟨r, hr, hnew, hreach⟩
  obtain ⟨hahead, hedges⟩ := h.closed
  induction hreach with
  | refl => exact (hahead r hr).resolve_left hnew
  | tail _ hedge ih => exact (hedges _ ih _ hedge.1).resolve_left hedge.2

end InPreorder

/-! ## The walk -/

/-- Nodes with a mark. -/
def visited (marks : Marks) : Set ExprId :=
  {x | (marks.lookup x).isSome}

theorem visited_cons (x : ExprId) (mark : Mark) (marks : Marks) :
    visited ((x, mark) :: marks) = insert x (visited marks) :=
  Set.ext fun _ => isSome_lookup_cons

/-- Children in turn, if the visit of each lists it in front of whatever comes after it. -/
theorem followEdges_preorder {visitChild : Marks → ExprId → Step} {depth : Nat}
    (hmarks : ∀ marks id, Marked graph marks (visitChild marks id).events (visitChild marks id).marks)
    (hvisit : ∀ marks id ahead order, HasPath graph depth marks →
      InPreorder graph (visited (visitChild marks id).marks) ahead order →
      InPreorder graph (visited marks) (id :: ahead)
        (entered (visitChild marks id).events ++ order))
    (parent : ExprId) (index : Nat) (children : List ExprId) (marks : Marks)
    (hpath : ∀ c ∈ children, HasPath graph depth marks)
    (h : InPreorder graph (visited (followEdges visitChild parent index children marks).marks)
      ahead order) :
    InPreorder graph (visited marks) (children ++ ahead)
      (entered (followEdges visitChild parent index children marks).events ++ order) := by
  induction children generalizing index marks with
  | nil => exact h
  | cons child rest ih =>
      have hchild : HasPath graph depth marks := hpath child (List.mem_cons_self ..)
      rw [entered_followEdges_cons, List.append_assoc]
      exact hvisit marks child _ _ hchild (ih (index + 1) _
        (fun _ _ => hchild.kept (hmarks marks child).kept) h)

/-- A visit lists its node, if it was not visited, and what is below it. -/
theorem visit_preorder {size : Nat} (hsize : ∀ x, (graph x).isSome → x < size) (bound depth : Nat)
    (hbound : size < bound + depth) (marks : Marks) (id : ExprId) (ahead order : List ExprId)
    (hpath : HasPath graph depth marks)
    (h : InPreorder graph (visited (visit graph bound depth marks id).marks) ahead order) :
    InPreorder graph (visited marks) (id :: ahead)
      (entered (visit graph bound depth marks id).events ++ order) := by
  induction bound generalizing depth marks id ahead order with
  | zero =>
      have hle := hpath.le_size hsize
      omega
  | succ bound ih =>
      cases hid : marks.lookup id with
      | some mark =>
          rw [(visit_marked_eq (bound + 1) depth hid).2] at h
          rw [(visit_marked_eq (bound + 1) depth hid).1]
          exact .skip (Option.isSome_iff_exists.mpr ⟨mark, hid⟩) h
      | none =>
          have hunseen : id ∉ visited marks := by
            intro hseen
            cases hid.symm.trans (Option.eq_some_of_isSome hseen)
          have hinner : ∀ c ∈ (graph id).getD [],
              HasPath graph (depth + 1) ((id, .onPath depth) :: marks) := by
            intro c hc
            obtain ⟨children, hchildren, -⟩ := edge_iff.mpr hc
            exact hpath.enter hid (Option.isSome_iff_exists.mpr ⟨children, hchildren⟩)
          rw [marks_visit_new hid, visited_cons, Set.insert_eq_of_mem] at h
          · have hfollowed := followEdges_preorder (visit_marked bound (depth + 1))
              (fun marks id ahead order => ih (depth + 1) (by omega) marks id ahead order)
              id 0 _ _ hinner h
            rw [visited_cons] at hfollowed
            rw [entered_visit_new hid]
            exact .visit hunseen hfollowed
          · -- the node is marked since it was entered
            exact (followEdges_marked (visit_marked bound (depth + 1)) id 0 _ _).kept id
              (isSome_lookup_cons.mpr (Or.inl rfl))

/-- A walk enters nodes in preorder. -/
theorem visitAll_preorder {size bound : Nat} (hsize : ∀ x, (graph x).isSome → x < size)
    (hbound : size < bound) (roots : List ExprId) (marks : Marks) :
    InPreorder graph (visited marks) roots (entered (visitAll graph bound roots marks).1) := by
  induction roots generalizing marks with
  | nil => exact .nil _
  | cons root rest ih =>
      rw [visitAll]
      simp only [entered_append]
      exact visit_preorder hsize bound 0 hbound marks root rest _ (hasPath_zero graph marks) (ih _)

/-! ## The bound -/

theorem followEdges_congr {visitChild visitChild' : Marks → ExprId → Step} {depth : Nat}
    (hmarks : ∀ marks id, Marked graph marks (visitChild marks id).events (visitChild marks id).marks)
    (hsame : ∀ marks id, HasPath graph depth marks → visitChild marks id = visitChild' marks id)
    (parent : ExprId) (index : Nat) (children : List ExprId) (marks : Marks)
    (hpath : ∀ c ∈ children, HasPath graph depth marks) :
    followEdges visitChild parent index children marks =
      followEdges visitChild' parent index children marks := by
  induction children generalizing index marks with
  | nil => rfl
  | cons child rest ih =>
      have hchild : HasPath graph depth marks := hpath child (List.mem_cons_self ..)
      have hlater := ih (index + 1) _ fun _ _ => hchild.kept (hmarks marks child).kept
      rw [followEdges, followEdges, hlater, hsame marks child hchild]

/-- No visit comes to the end of its bound, so it does not matter how large the bound is. -/
theorem visit_bound {size : Nat} (hsize : ∀ x, (graph x).isSome → x < size)
    {bound bound' depth : Nat} (hbound : size < bound + depth) (hbound' : size < bound' + depth)
    (marks : Marks) (id : ExprId) (hpath : HasPath graph depth marks) :
    visit graph bound depth marks id = visit graph bound' depth marks id := by
  have hle := hpath.le_size hsize
  induction bound generalizing bound' depth marks id with
  | zero => omega
  | succ bound ih =>
      obtain _ | bound' := bound'
      · omega
      · rw [visit, visit]
        cases hid : marks.lookup id with
        | some mark => cases mark <;> rfl
        | none =>
            have hinner : ∀ c ∈ (graph id).getD [],
                HasPath graph (depth + 1) ((id, .onPath depth) :: marks) := by
              intro c hc
              obtain ⟨children, hchildren, -⟩ := edge_iff.mpr hc
              exact hpath.enter hid (Option.isSome_iff_exists.mpr ⟨children, hchildren⟩)
            have hsame := followEdges_congr (visit_marked bound (depth + 1))
              (fun marks id hpath => ih (by omega) (by omega : size < bound' + (depth + 1)) marks id
                hpath (hpath.le_size hsize)) id 0 _ _ hinner
            simp only [hsame]

theorem visitAll_bound {size : Nat} (hsize : ∀ x, (graph x).isSome → x < size)
    {bound bound' : Nat} (hbound : size < bound) (hbound' : size < bound') (roots : List ExprId)
    (marks : Marks) : visitAll graph bound roots marks = visitAll graph bound' roots marks := by
  induction roots generalizing marks with
  | nil => rfl
  | cons root rest ih =>
      rw [visitAll, visitAll,
        visit_bound hsize hbound hbound' marks root (hasPath_zero graph marks)]
      simp only [ih]

end Packrat.Walk
