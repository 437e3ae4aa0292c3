import Packrat.Proofs.WalkReach

/-! # A walk enters a node once and follows its edges once

    A node is marked when it is entered, and what is marked is not entered again.  So NO NODE IS
    ENTERED TWICE (`Once`).  Every entry goes with one turn over the children of the node, so the
    edges that are followed are those of the nodes that are entered, each as often as the node has it
    (`visitAll_followed`).  A walk from all nodes of a grammar that has all ends of its edges enters
    exactly these nodes (`walk_entered`). -/

namespace Packrat.Walk

variable {graph : Graph} {marks marks' marks'' : Marks} {events events' : List Event}
  {visitChild : Marks → ExprId → Step}

/-- Edges followed, in order, as parent, index and child. -/
def followed : List Event → List (ExprId × Nat × ExprId)
  | [] => []
  | .edge parent index child :: rest => (parent, index, child) :: followed rest
  | _ :: rest => followed rest

/-- Edges are followed in the order of events. -/
theorem followed_append (events events' : List Event) :
    followed (events ++ events') = followed events ++ followed events' := by
  induction events with
  | nil => rfl
  | cons e rest ih => cases e <;> simp [followed, ih]

/-- Edges from a parent to children with indices from the given one on. -/
def edgesFrom (parent : ExprId) (index : Nat) (children : List ExprId) :
    List (ExprId × Nat × ExprId) :=
  (children.zipIdx index).map fun child => (parent, child.2, child.1)

/-- All edges of a node. -/
def edgesOf (graph : Graph) (x : ExprId) : List (ExprId × Nat × ExprId) :=
  edgesFrom x 0 ((graph x).getD [])

/-- The edges of a node are numbered by its children. -/
theorem mem_edgesOf {u v x : ExprId} {i : Nat} :
    (u, i, v) ∈ edgesOf graph x ↔ u = x ∧ ((graph x).getD [])[i]? = some v := by
  simp only [edgesOf, edgesFrom, List.mem_map, Prod.exists, List.mk_mem_zipIdx_iff_getElem?,
    Prod.mk.injEq]
  constructor
  · rintro ⟨c, j, hc, rfl, rfl, rfl⟩
    exact ⟨rfl, hc⟩
  · rintro ⟨rfl, hv⟩
    exact ⟨v, i, hv, rfl, rfl, rfl⟩

/-- The ends of the edges of a node are its children. -/
theorem edgesOf_ends (graph : Graph) (x : ExprId) :
    (edgesOf graph x).map (·.2.2) = (graph x).getD [] := by
  rw [edgesOf, edgesFrom, List.map_map]
  exact List.zipIdx_map_fst 0 _

/-! ## The events of a visit -/

theorem entered_cutoffEvents (marks : Marks) (parent child : ExprId) :
    entered (cutoffEvents marks parent child) = [] := by
  rw [cutoffEvents]
  split <;> rfl

theorem left_cutoffEvents (marks : Marks) (parent child : ExprId) :
    left (cutoffEvents marks parent child) = [] := by
  rw [cutoffEvents]
  split <;> rfl

theorem followed_cutoffEvents (marks : Marks) (parent child : ExprId) :
    followed (cutoffEvents marks parent child) = [] := by
  rw [cutoffEvents]
  split <;> rfl

section Cons

variable (visitChild) (parent child : ExprId) (index : Nat) (rest : List ExprId) (marks : Marks)

/-- Following edges enters what the first child leads to and then what the others do. -/
theorem entered_followEdges_cons :
    entered (followEdges visitChild parent index (child :: rest) marks).events =
      entered (visitChild marks child).events ++
        entered (followEdges visitChild parent (index + 1) rest
          (visitChild marks child).marks).events := by
  simp [followEdges, entered, entered_append, entered_cutoffEvents]

/-- Each edge is followed itself, and then what its child leads to. -/
theorem followed_followEdges_cons :
    followed (followEdges visitChild parent index (child :: rest) marks).events =
      (parent, index, child) :: (followed (visitChild marks child).events ++
        followed (followEdges visitChild parent (index + 1) rest
          (visitChild marks child).marks).events) := by
  simp [followEdges, followed, followed_append, followed_cutoffEvents]

theorem left_followEdges_cons :
    left (followEdges visitChild parent index (child :: rest) marks).events =
      left (visitChild marks child).events ++
        left (followEdges visitChild parent (index + 1) rest
          (visitChild marks child).marks).events := by
  simp [followEdges, left, left_append, left_cutoffEvents]

end Cons

section New

variable {bound depth : Nat} {id : ExprId} (hnew : marks.lookup id = none)
include hnew

/-- A node not met before is entered before all that it leads to. -/
theorem entered_visit_new :
    entered (visit graph (bound + 1) depth marks id).events =
      id :: entered (followEdges (visit graph bound (depth + 1)) id 0 ((graph id).getD [])
        ((id, .onPath depth) :: marks)).events := by
  rw [visit]
  cases (graph id).isSome <;> simp [hnew, entered, entered_append]

theorem followed_visit_new :
    followed (visit graph (bound + 1) depth marks id).events =
      followed (followEdges (visit graph bound (depth + 1)) id 0 ((graph id).getD [])
        ((id, .onPath depth) :: marks)).events := by
  rw [visit]
  cases (graph id).isSome <;> simp [hnew, followed, followed_append]

/-- It is left after all of that. -/
theorem left_visit_new :
    left (visit graph (bound + 1) depth marks id).events =
      left (followEdges (visit graph bound (depth + 1)) id 0 ((graph id).getD [])
        ((id, .onPath depth) :: marks)).events ++ [id] := by
  rw [visit]
  cases (graph id).isSome <;> simp [hnew, left, left_append]

/-- While its edges are followed it is marked as on the path, and as done thereafter. -/
theorem marks_visit_new :
    (visit graph (bound + 1) depth marks id).marks =
      (id, .done) :: (followEdges (visit graph bound (depth + 1)) id 0 ((graph id).getD [])
        ((id, .onPath depth) :: marks)).marks := by
  rw [visit]
  simp [hnew]

end New

/-- The visit of a node that is marked comes to nothing. -/
theorem visit_marked_eq {mark : Mark} (bound depth : Nat) {id : ExprId}
    (hmark : marks.lookup id = some mark) :
    (visit graph bound depth marks id).events = [] ∧
      (visit graph bound depth marks id).marks = marks := by
  cases bound with
  | zero => exact ⟨rfl, rfl⟩
  | succ bound =>
      rw [visit, hmark]
      cases mark <;> exact ⟨rfl, rfl⟩

/-! ## Nodes -/

/-- What a part of a walk enters was not marked before it, is entered once, and is marked
    after it. -/
structure Once (marks : Marks) (events : List Event) (marks' : Marks) : Prop where
  fresh : ∀ x ∈ entered events, marks.lookup x = none
  marked : ∀ x ∈ entered events, (marks'.lookup x).isSome
  nodup : (entered events).Nodup

theorem Once.of_entered_nil (h : entered events = []) : Once marks events marks' := by
  constructor <;> simp [h]

/-- What is entered in one stretch is marked by the time of the next, so it is not entered there
    again. -/
theorem Once.append (h : Once marks events marks') (h' : Once marks' events' marks'')
    (hmarks : Marked graph marks events marks') (hmarks' : Marked graph marks' events' marks'') :
    Once marks (events ++ events') marks'' where
  fresh := by
    intro x hx
    rw [entered_append, List.mem_append] at hx
    rcases hx with hx | hx
    · exact h.fresh x hx
    · by_contra hmarked
      have hkept := hmarks.kept x (Option.isSome_iff_ne_none.mpr hmarked)
      rw [h'.fresh x hx] at hkept
      cases hkept
  marked := by
    intro x hx
    rw [entered_append, List.mem_append] at hx
    rcases hx with hx | hx
    · exact hmarks'.kept x (h.marked x hx)
    · exact h'.marked x hx
  nodup := by
    rw [entered_append]
    refine h.nodup.append h'.nodup fun x hx hx' => ?_
    have hmarked := h.marked x hx
    rw [h'.fresh x hx'] at hmarked
    cases hmarked

/-- Following edges enters no node twice if no visit does. -/
theorem followEdges_once
    (hmarks : ∀ marks id, Marked graph marks (visitChild marks id).events (visitChild marks id).marks)
    (honce : ∀ marks id, Once marks (visitChild marks id).events (visitChild marks id).marks)
    (parent : ExprId) (index : Nat) (children : List ExprId) (marks : Marks) :
    Once marks (followEdges visitChild parent index children marks).events
      (followEdges visitChild parent index children marks).marks := by
  induction children generalizing index marks with
  | nil => exact .of_entered_nil rfl
  | cons child rest ih =>
      have hall := (honce marks child).append (ih (index + 1) _) (hmarks marks child)
        (followEdges_marked hmarks parent (index + 1) rest _)
      have hentered := entered_followEdges_cons visitChild parent child index rest marks
      rw [← entered_append] at hentered
      exact ⟨hentered ▸ hall.fresh, hentered ▸ hall.marked, hentered ▸ hall.nodup⟩

/-- A visit enters no node twice, by induction on its bound. -/
theorem visit_once (bound depth : Nat) (marks : Marks) (id : ExprId) :
    Once marks (visit graph bound depth marks id).events (visit graph bound depth marks id).marks := by
  induction bound generalizing depth marks id with
  | zero => exact .of_entered_nil rfl
  | succ bound ih =>
      cases hid : marks.lookup id with
      | some mark =>
          refine .of_entered_nil ?_
          rw [(visit_marked_eq (bound + 1) depth hid).1]
          rfl
      | none =>
          have hfollowed := followEdges_once (visit_marked bound (depth + 1))
            (ih (depth + 1)) id 0 ((graph id).getD []) ((id, .onPath depth) :: marks)
          have hfresh : ∀ x ∈ entered (followEdges (visit graph bound (depth + 1)) id 0
              ((graph id).getD []) ((id, .onPath depth) :: marks)).events,
              x ≠ id ∧ marks.lookup x = none := by
            intro x hx
            have hnone := hfollowed.fresh x hx
            rw [lookup_mark_cons] at hnone
            split at hnone
            · cases hnone
            · rename_i hne
              exact ⟨hne, hnone⟩
          constructor
          · rw [entered_visit_new hid]
            exact List.forall_mem_cons.mpr ⟨hid, fun x hx => (hfresh x hx).2⟩
          · rw [entered_visit_new hid, marks_visit_new hid]
            refine List.forall_mem_cons.mpr ⟨isSome_lookup_cons.mpr (Or.inl rfl), fun x hx => ?_⟩
            exact isSome_lookup_cons.mpr (Or.inr (hfollowed.marked x hx))
          · rw [entered_visit_new hid]
            exact List.nodup_cons.mpr ⟨fun hmem => (hfresh id hmem).1 rfl, hfollowed.nodup⟩

/-- No node is entered twice. -/
theorem visitAll_once (bound : Nat) (roots : List ExprId) (marks : Marks) :
    Once marks (visitAll graph bound roots marks).1 (visitAll graph bound roots marks).2 := by
  induction roots generalizing marks with
  | nil => exact .of_entered_nil rfl
  | cons root rest ih =>
      rw [visitAll]
      exact (visit_once bound 0 marks root).append (ih _) (visit_marked bound 0 marks root)
        (visitAll_marked bound rest _)

/-- Whatever a visit enters it leaves, and nothing else. -/
theorem visit_left (bound depth : Nat) (marks : Marks) (id : ExprId) :
    (left (visit graph bound depth marks id).events).Perm
      (entered (visit graph bound depth marks id).events) := by
  induction bound generalizing depth marks id with
  | zero => exact .refl _
  | succ bound ih =>
      have hfollowed : ∀ (children : List ExprId) (index : Nat) (marks : Marks),
          (left (followEdges (visit graph bound (depth + 1)) id index children marks).events).Perm
            (entered
              (followEdges (visit graph bound (depth + 1)) id index children marks).events) := by
        intro children
        induction children with
        | nil => exact fun _ _ => .refl _
        | cons child rest ihrest =>
            intro index marks
            rw [left_followEdges_cons, entered_followEdges_cons]
            exact (ih (depth + 1) marks child).append (ihrest _ _)
      cases hid : marks.lookup id with
      | some mark =>
          rw [(visit_marked_eq (bound + 1) depth hid).1]
          exact .refl _
      | none =>
          rw [left_visit_new hid, entered_visit_new hid]
          exact (List.perm_append_singleton id _).trans (.cons id (hfollowed _ _ _))

/-- A walk leaves what it enters. -/
theorem visitAll_left (bound : Nat) (roots : List ExprId) (marks : Marks) :
    (left (visitAll graph bound roots marks).1).Perm
      (entered (visitAll graph bound roots marks).1) := by
  induction roots generalizing marks with
  | nil => exact .refl _
  | cons root rest ih =>
      rw [visitAll]
      simp only [left_append, entered_append]
      exact (visit_left bound 0 marks root).append (ih _)

/-! ## Edges -/

/-- Besides its own edges a node leads to the edges of what is entered below it. -/
theorem followEdges_followed
    (hvisit : ∀ marks id, (followed (visitChild marks id).events).Perm
      ((entered (visitChild marks id).events).flatMap (edgesOf graph)))
    (parent : ExprId) (index : Nat) (children : List ExprId) (marks : Marks) :
    (followed (followEdges visitChild parent index children marks).events).Perm
      (edgesFrom parent index children ++
        (entered (followEdges visitChild parent index children marks).events).flatMap
          (edgesOf graph)) := by
  induction children generalizing index marks with
  | nil => exact .refl _
  | cons child rest ih =>
      rw [followed_followEdges_cons, entered_followEdges_cons, List.flatMap_append]
      refine .cons (parent, index, child) ?_
      exact ((hvisit marks child).append (ih (index + 1) _)).trans
        (List.perm_append_comm_assoc _ _ _)

/-- A visit follows exactly the edges of the nodes it enters, each one once. -/
theorem visit_followed (bound depth : Nat) (marks : Marks) (id : ExprId) :
    (followed (visit graph bound depth marks id).events).Perm
      ((entered (visit graph bound depth marks id).events).flatMap (edgesOf graph)) := by
  induction bound generalizing depth marks id with
  | zero => exact .refl _
  | succ bound ih =>
      cases hid : marks.lookup id with
      | some mark =>
          rw [(visit_marked_eq (bound + 1) depth hid).1]
          exact .refl _
      | none =>
          rw [followed_visit_new hid, entered_visit_new hid, List.flatMap_cons]
          exact followEdges_followed (ih (depth + 1)) id 0 _ _

/-- The edges followed are those of the nodes entered. -/
theorem visitAll_followed (bound : Nat) (roots : List ExprId) (marks : Marks) :
    (followed (visitAll graph bound roots marks).1).Perm
      ((entered (visitAll graph bound roots marks).1).flatMap (edgesOf graph)) := by
  induction roots generalizing marks with
  | nil => exact .refl _
  | cons root rest ih =>
      rw [visitAll]
      simp only [followed_append, entered_append, List.flatMap_append]
      exact (visit_followed bound 0 marks root).append (ih _)

end Packrat.Walk

namespace Packrat.Grammar

variable {g : Grammar} {events : List Walk.Event}

/-- A walk from all nodes enters exactly these. -/
theorem walk_entered (h : g.walk g.ids = .ok events) : (Walk.entered events).Perm g.ids := by
  obtain ⟨rfl, hnone⟩ := walkOver_eq_ok.mp h
  have honce : (Walk.entered (Walk.visitAll g.children? g.pathBound g.ids []).1).Nodup :=
    (Walk.visitAll_once g.pathBound g.ids []).nodup
  refine (List.perm_ext_iff_of_nodup honce List.nodup_range).mpr fun x => ?_
  constructor
  · intro hx
    refine List.mem_range.mpr (lt_size_of_children? ?_)
    rcases (Walk.visitAll_marked g.pathBound g.ids []).known x hx with hknown | hmissing
    · exact hknown
    · exact absurd hmissing (Walk.missing?_eq_none hnone)
  · intro hx
    exact (walk_reaches h hx .refl).1

/-- A walk from all nodes follows every edge once. -/
theorem walk_followed (h : g.walk g.ids = .ok events) :
    (Walk.followed events).Perm (g.ids.flatMap (Walk.edgesOf g.children?)) := by
  have hentered := (walk_entered h).flatMap_right (Walk.edgesOf g.children?)
  obtain ⟨rfl, -⟩ := walkOver_eq_ok.mp h
  exact (Walk.visitAll_followed g.pathBound g.ids []).trans hentered

/-- A walk from all nodes follows every edge of the grammar. -/
theorem mem_followed_walk (h : g.walk g.ids = .ok events) {u v : ExprId} {i : Nat} :
    (u, i, v) ∈ Walk.followed events ↔ ∃ s, g.shape? u = some s ∧ s.children[i]? = some v := by
  rw [(walk_followed h).mem_iff, List.mem_flatMap]
  simp only [Walk.mem_edgesOf]
  cases hs : g.shape? u with
  | none => simp [children?, hs]
  | some s =>
      have hu : u < g.size := lt_size_of_children? (by simp [children?, hs])
      simp [children?, hs, ids, hu]

end Packrat.Grammar
