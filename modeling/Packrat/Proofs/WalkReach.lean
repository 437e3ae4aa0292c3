import Packrat.Proofs.WalkCycles

/-! # A walk enters everything within reach

    A walk marks what it enters, and goes on along every edge of what it enters unless the end of
    the edge is marked already.  At its end nothing is on the path any more, so what is marked is
    done, and the edges of what is done lead to what is done.  Hence every node within reach of a root
    was entered (`mem_entered_of_reach`). -/

namespace Packrat.Walk

open Relation

variable {graph : Graph} {marks marks' marks'' : Marks} {events events' : List Event}

theorem entered_append (events events' : List Event) :
    entered (events ++ events') = entered events ++ entered events' := by
  induction events with
  | nil => rfl
  | cons e rest ih => cases e <;> simp [entered, ih]

theorem left_append (events events' : List Event) :
    left (events ++ events') = left events ++ left events' := by
  induction events with
  | nil => rfl
  | cons e rest ih => cases e <;> simp [left, ih]

/-! ## Marks -/

/-- What a part of a walk does to the marks: whatever it marks it enters, and what it meets on the
    path is marked. -/
structure Marked (graph : Graph) (marks : Marks) (events : List Event) (marks' : Marks) : Prop where
  kept : ∀ x, (marks.lookup x).isSome → (marks'.lookup x).isSome
  enters : ∀ x, (marks'.lookup x).isSome → (marks.lookup x).isSome ∨ x ∈ entered events
  met : ∀ u v k, Event.cutoff u v k ∈ events → (marks'.lookup v).isSome
  known : ∀ x ∈ entered events, (graph x).isSome ∨ .missing x ∈ events

/-- What is marked in two stretches is marked over both. -/
theorem Marked.trans (h : Marked graph marks events marks')
    (h' : Marked graph marks' events' marks'') : Marked graph marks (events ++ events') marks'' where
  kept := fun x hx => h'.kept x (h.kept x hx)
  enters := by
    intro x hx
    rw [entered_append, List.mem_append]
    rcases h'.enters x hx with hold | hnew
    · rcases h.enters x hold with hold | hnew
      · exact Or.inl hold
      · exact Or.inr (Or.inl hnew)
    · exact Or.inr (Or.inr hnew)
  met := by
    intro u v k hmem
    rcases List.mem_append.mp hmem with hmem | hmem
    · exact h'.kept v (h.met u v k hmem)
    · exact h'.met u v k hmem
  known := by
    intro x hx
    rw [entered_append, List.mem_append] at hx
    rcases hx with hx | hx
    · exact (h.known x hx).imp_right (List.mem_append_left _)
    · exact (h'.known x hx).imp_right (List.mem_append_right _)

theorem Marked.refl (graph : Graph) (marks : Marks) : Marked graph marks [] marks where
  kept := fun _ hx => hx
  enters := fun _ hx => Or.inl hx
  met := by
    intro u v k hmem
    cases hmem
  known := by
    intro x hx
    cases hx

/-- An event that neither enters nor meets anything. -/
theorem Marked.quiet {e : Event} (hentered : entered [e] = [])
    (hcut : ∀ u v k, e ≠ .cutoff u v k) : Marked graph marks [e] marks where
  kept := fun _ hx => hx
  enters := fun _ hx => Or.inl hx
  met := by
    intro u v k hmem
    exact absurd (List.mem_singleton.mp hmem).symm (hcut u v k)
  known := by
    intro x hx
    rw [hentered] at hx
    cases hx

theorem isSome_lookup_cons {x y : ExprId} {mark : Mark} {marks : Marks} :
    (List.lookup y ((x, mark) :: marks)).isSome ↔ y = x ∨ (marks.lookup y).isSome := by
  rw [lookup_mark_cons]
  by_cases h : y = x
  · simp [h]
  · simp [h]

/-! ## Visits -/

theorem cutoffEvents_marked (marks : Marks) (parent child : ExprId) :
    Marked graph marks (cutoffEvents marks parent child) marks := by
  rw [cutoffEvents]
  split
  · rename_i depth hon
    refine ⟨fun _ hx => hx, fun _ hx => Or.inl hx, ?_, ?_⟩
    · intro u v k hmem
      cases List.mem_singleton.mp hmem
      rw [hon]
      rfl
    · intro x hx
      cases hx
  · exact .refl graph marks

/-- Following edges marks what it enters if visits do. -/
theorem followEdges_marked {visitChild : Marks → ExprId → Step}
    (hvisit : ∀ marks id, Marked graph marks (visitChild marks id).events (visitChild marks id).marks)
    (parent : ExprId) (index : Nat) (children : List ExprId) (marks : Marks) :
    Marked graph marks (followEdges visitChild parent index children marks).events
      (followEdges visitChild parent index children marks).marks := by
  induction children generalizing index marks with
  | nil => exact .refl graph marks
  | cons child rest ih =>
      rw [followEdges]
      have hbegun : Marked graph marks [.edge parent index child] marks := .quiet rfl (by simp)
      have hmet := hbegun.trans (cutoffEvents_marked marks parent child)
      have hchild := hmet.trans (hvisit marks child)
      have hended := hchild.trans
        (.quiet (e := .edgeDone parent index child (visitChild marks child).closes) rfl (by simp))
      have hall := hended.trans (ih (index + 1) (visitChild marks child).marks)
      simpa only [List.append_assoc, List.cons_append, List.nil_append] using hall

/-- A visit marks the nodes it enters and no other, by induction on its bound. -/
theorem visit_marked (bound depth : Nat) (marks : Marks) (id : ExprId) :
    Marked graph marks (visit graph bound depth marks id).events
      (visit graph bound depth marks id).marks := by
  induction bound generalizing depth marks id with
  | zero => exact .refl graph marks
  | succ bound ih =>
      rw [visit]
      cases hid : marks.lookup id with
      | some mark =>
          cases mark with
          | onPath k => exact .refl graph marks
          | done => exact .refl graph marks
      | none =>
          dsimp only
          have hentered : Marked graph marks
              (.enter id depth :: if (graph id).isSome then [] else [.missing id])
              ((id, .onPath depth) :: marks) := by
            refine ⟨?_, ?_, ?_, ?_⟩
            · intro x hx
              exact isSome_lookup_cons.mpr (Or.inr hx)
            · intro x hx
              rcases isSome_lookup_cons.mp hx with rfl | hx
              · exact Or.inr (List.mem_cons_self ..)
              · exact Or.inl hx
            · intro u v k hmem
              split at hmem <;> simp at hmem
            · intro x hx
              by_cases hgraph : (graph id).isSome
              · simp only [hgraph, if_true, entered, List.mem_singleton] at hx
                exact Or.inl (hx ▸ hgraph)
              · simp only [hgraph, entered, Bool.false_eq_true, if_false,
                  List.mem_singleton] at hx
                refine Or.inr ?_
                simp [hx, hgraph]
          have hfollowed := followEdges_marked (ih (depth + 1)) id 0 ((graph id).getD [])
            ((id, .onPath depth) :: marks)
          generalize followEdges (visit graph bound (depth + 1)) id 0 ((graph id).getD [])
            ((id, .onPath depth) :: marks) = followed at hfollowed ⊢
          have hleft : Marked graph followed.marks [.leave id depth followed.edges]
              ((id, .done) :: followed.marks) := by
            refine ⟨?_, ?_, by simp, by simp [entered]⟩
            · intro x hx
              exact isSome_lookup_cons.mpr (Or.inr hx)
            · intro x hx
              rcases isSome_lookup_cons.mp hx with rfl | hx
              · exact Or.inl (hfollowed.kept x (isSome_lookup_cons.mpr (Or.inl rfl)))
              · exact Or.inl hx
          have hall := (hentered.trans hfollowed).trans hleft
          simpa only [List.append_assoc, List.cons_append, List.nil_append] using hall

/-- Visits from several roots share their marks. -/
theorem visitAll_marked (bound : Nat) (roots : List ExprId) (marks : Marks) :
    Marked graph marks (visitAll graph bound roots marks).1 (visitAll graph bound roots marks).2 := by
  induction roots generalizing marks with
  | nil => exact .refl graph marks
  | cons root rest ih =>
      rw [visitAll]
      exact (visit_marked bound 0 marks root).trans (ih _)

/-! ## Reach -/

/-- Every node within reach of a root is entered. -/
theorem mem_entered_of_reach {size : Nat} (hsize : ∀ x, (graph x).isSome → x < size)
    {roots : List ExprId} {root x : ExprId} (hroot : root ∈ roots)
    (hreach : ReflTransGen (Edge graph) root x) :
    x ∈ entered (visitAll graph (size + 1) roots []).1 := by
  obtain ⟨hwalked, hvisited⟩ := visitAll_walked hsize roots (surveyed_nil graph fun _ => false)
  have hmarked : Marked graph [] (visitAll graph (size + 1) roots []).1
      (visitAll graph (size + 1) roots []).2 := visitAll_marked (size + 1) roots []
  obtain ⟨rank, hrank⟩ := hwalked.surveyed.ranked
  -- nothing is on the path at the end
  have hdone : ∀ y, ((visitAll graph (size + 1) roots []).2.lookup y).isSome →
      Done (visitAll graph (size + 1) roots []).2 y := by
    intro y hy
    obtain ⟨mark, hmark⟩ := Option.isSome_iff_exists.mp hy
    cases mark with
    | onPath k => exact absurd (hwalked.surveyed.below y k hmark) (Nat.not_lt_zero k)
    | done => exact hmark
  have hall : ∀ y, ReflTransGen (Edge graph) root y →
      ((visitAll graph (size + 1) roots []).2.lookup y).isSome := by
    intro y hy
    induction hy with
    | refl => exact hvisited root hroot
    | @tail u v _ hedge ih =>
        rcases hrank.descends u v (hdone u ih) hedge with ⟨k, hk⟩ | ⟨hv, -⟩
        · exact hmarked.met u v k hk
        · exact Option.isSome_iff_exists.mpr ⟨_, hv⟩
  rcases hmarked.enters x (hall x hreach) with hx | hx
  · cases hx
  · exact hx

/-! ## Edges -/

/-- Each child has its edge among the events, numbered from where the list starts. -/
theorem mem_followEdges {visitChild : Marks → ExprId → Step} {parent child : ExprId}
    {children : List ExprId} {i : Nat} (hchild : children[i]? = some child) (index : Nat)
    (marks : Marks) :
    Event.edge parent (index + i) child ∈
      (followEdges visitChild parent index children marks).events := by
  induction children generalizing index i marks with
  | nil => cases hchild
  | cons c rest ih =>
      rw [followEdges]
      cases i with
      | zero =>
          cases hchild
          exact List.mem_cons_self ..
      | succ i =>
          have hmem := ih (i := i) hchild (index + 1) (visitChild marks c).marks
          rw [Nat.add_right_comm] at hmem
          simp only [List.mem_cons, List.mem_append]
          exact Or.inr (Or.inr (Or.inr hmem))

/-- What is entered while edges are followed is entered on the visit of a child. -/
theorem entered_followEdges {visitChild : Marks → ExprId → Step} {parent x : ExprId}
    {children : List ExprId} {index : Nat} {marks : Marks}
    (hx : x ∈ entered (followEdges visitChild parent index children marks).events) :
    ∃ marks₁ child, child ∈ children ∧ x ∈ entered (visitChild marks₁ child).events ∧
      (visitChild marks₁ child).events ⊆
        (followEdges visitChild parent index children marks).events := by
  induction children generalizing index marks with
  | nil => cases hx
  | cons child rest ih =>
      rw [followEdges] at hx ⊢
      simp only [entered, entered_append, List.mem_append] at hx
      rcases hx with (hcut | hchild) | hrest
      · rw [cutoffEvents] at hcut
        split at hcut <;> cases hcut
      · refine ⟨marks, child, List.mem_cons_self .., hchild, ?_⟩
        intro e he
        simp only [List.mem_cons, List.mem_append]
        exact Or.inr (Or.inl (Or.inr he))
      · obtain ⟨marks₁, c, hc, hentered, hsub⟩ := ih hrest
        refine ⟨marks₁, c, List.mem_cons_of_mem _ hc, hentered, ?_⟩
        intro e he
        simp only [List.mem_cons, List.mem_append]
        exact Or.inr (Or.inr (Or.inr (hsub he)))

/-- Every edge of a node that is entered is followed. -/
theorem mem_visit {bound depth : Nat} {id x child : ExprId} {children : List ExprId} {i : Nat}
    (hx : x ∈ entered (visit graph bound depth marks id).events) (hchildren : graph x = some children)
    (hchild : children[i]? = some child) :
    Event.edge x i child ∈ (visit graph bound depth marks id).events := by
  induction bound generalizing depth marks id with
  | zero => cases hx
  | succ bound ih =>
      rw [visit] at hx ⊢
      cases hid : marks.lookup id with
      | some mark =>
          rw [hid] at hx
          cases mark <;> cases hx
      | none =>
          simp only [hid, entered, entered_append, List.mem_cons, List.mem_append] at hx ⊢
          rcases hx with rfl | (habsent | hfollowed) | hleft
          · rw [hchildren]
            have hmem : Event.edge x (0 + i) child ∈ (followEdges (visit graph bound (depth + 1)) x 0
                children ((x, .onPath depth) :: marks)).events := mem_followEdges hchild 0 _
            rw [Nat.zero_add] at hmem
            exact Or.inr (Or.inl (Or.inr hmem))
          · split at habsent <;> cases habsent
          · obtain ⟨marks₁, c, -, hentered, hsub⟩ := entered_followEdges hfollowed
            exact Or.inr (Or.inl (Or.inr (hsub (ih hentered))))
          · cases hleft

/-- Each edge of a node that was entered was followed. -/
theorem mem_visitAll {bound : Nat} {roots : List ExprId} {x child : ExprId}
    {children : List ExprId} {i : Nat} (hx : x ∈ entered (visitAll graph bound roots marks).1)
    (hchildren : graph x = some children) (hchild : children[i]? = some child) :
    Event.edge x i child ∈ (visitAll graph bound roots marks).1 := by
  induction roots generalizing marks with
  | nil => cases hx
  | cons root rest ih =>
      rw [visitAll] at hx ⊢
      simp only [entered_append, List.mem_append] at hx ⊢
      exact hx.imp (fun h => mem_visit h hchildren hchild) ih

/-- The edge that is followed or met when an event happens. -/
def Event.arrow? : Event → Option (ExprId × ExprId)
  | .edge parent _ child | .cutoff parent child _ => some (parent, child)
  | _ => none

/-- What is followed is an edge. -/
theorem edge_of_mem_visit {bound depth : Nat} {id u v : ExprId} {e : Event}
    (harrow : e.arrow? = some (u, v)) (h : e ∈ (visit graph bound depth marks id).events) :
    Edge graph u v := by
  induction bound generalizing depth marks id with
  | zero => cases h
  | succ bound ih =>
      have hfollowed : ∀ (children : List ExprId) (index : Nat) (marks : Marks),
          (∀ c ∈ children, Edge graph id c) →
          e ∈ (followEdges (visit graph bound (depth + 1)) id index children marks).events →
          Edge graph u v := by
        intro children
        induction children with
        | nil =>
            intro _ _ _ hmem
            cases hmem
        | cons child rest ihrest =>
            intro index marks hchildren hmem
            obtain ⟨hchild, hrest⟩ := List.forall_mem_cons.mp hchildren
            rw [followEdges] at hmem
            simp only [List.mem_cons, List.mem_append] at hmem
            rcases hmem with rfl | (hcut | hstep) | rfl | hlater
            · cases harrow
              exact hchild
            · rw [cutoffEvents] at hcut
              split at hcut
              · cases List.mem_singleton.mp hcut
                cases harrow
                exact hchild
              · cases hcut
            · exact ih hstep
            · cases harrow
            · exact ihrest _ _ hrest hlater
      rw [visit] at h
      cases hid : marks.lookup id with
      | some mark =>
          rw [hid] at h
          cases mark <;> cases h
      | none =>
          simp only [hid, List.mem_cons, List.mem_append, List.not_mem_nil, or_false] at h
          rcases h with rfl | (habsent | hmem) | rfl
          · cases harrow
          · split at habsent
            · cases habsent
            · cases List.mem_singleton.mp habsent
              cases harrow
          · exact hfollowed _ 0 _ (fun c hc => edge_iff.mpr hc) hmem
          · cases harrow

/-- Every arrow among the events is an edge of the graph. -/
theorem edge_of_mem_visitAll {bound : Nat} {roots : List ExprId} {u v : ExprId} {e : Event}
    (harrow : e.arrow? = some (u, v)) (h : e ∈ (visitAll graph bound roots marks).1) :
    Edge graph u v := by
  induction roots generalizing marks with
  | nil => cases h
  | cons root rest ih =>
      rw [visitAll, List.mem_append] at h
      rcases h with h | h
      · exact edge_of_mem_visit harrow h
      · exact ih h

/-! ## Strangers -/

/-- A stranger is where the walk starts, or the walk came to it along an edge. -/
theorem stranger_of_mem_visit {bound depth : Nat} {id x : ExprId}
    (h : Event.missing x ∈ (visit graph bound depth marks id).events) :
    graph x = none ∧ (x = id ∨ ∃ u, Edge graph u x) := by
  induction bound generalizing depth marks id with
  | zero => cases h
  | succ bound ih =>
      have hfollowed : ∀ (children : List ExprId) (index : Nat) (marks : Marks),
          (∀ c ∈ children, Edge graph id c) → Event.missing x ∈
            (followEdges (visit graph bound (depth + 1)) id index children marks).events →
          graph x = none ∧ ∃ u, Edge graph u x := by
        intro children
        induction children with
        | nil =>
            intro _ _ _ hmem
            cases hmem
        | cons child rest ihrest =>
            intro index marks hchildren hmem
            obtain ⟨hchild, hrest⟩ := List.forall_mem_cons.mp hchildren
            rw [followEdges] at hmem
            simp only [List.mem_cons, List.mem_append, reduceCtorEq, false_or] at hmem
            rcases hmem with (hcut | hstep) | hlater
            · rw [cutoffEvents] at hcut
              split at hcut
              · cases List.mem_singleton.mp hcut
              · cases hcut
            · obtain ⟨habsent, rfl | hedge⟩ := ih hstep
              · exact ⟨habsent, id, hchild⟩
              · exact ⟨habsent, hedge⟩
            · exact ihrest _ _ hrest hlater
      rw [visit] at h
      cases hid : marks.lookup id with
      | some mark =>
          rw [hid] at h
          cases mark <;> cases h
      | none =>
          simp only [hid, List.mem_cons, List.mem_append, reduceCtorEq, List.not_mem_nil,
            false_or, or_false] at h
          rcases h with habsent | hmem
          · cases hgraph : graph id with
            | some children => simp [hgraph] at habsent
            | none =>
                simp only [hgraph, Option.isSome_none, Bool.false_eq_true, if_false,
                  List.mem_singleton, Event.missing.injEq] at habsent
                exact ⟨habsent ▸ hgraph, Or.inl habsent⟩
          · exact (hfollowed _ 0 _ (fun c hc => edge_iff.mpr hc) hmem).imp_right Or.inr

/-- An id that is reported missing is none of the graph's, though it is a root or an edge leads to
    it. -/
theorem stranger_of_mem_visitAll {bound : Nat} {roots : List ExprId} {x : ExprId}
    (h : Event.missing x ∈ (visitAll graph bound roots marks).1) :
    graph x = none ∧ (x ∈ roots ∨ ∃ u, Edge graph u x) := by
  induction roots generalizing marks with
  | nil => cases h
  | cons root rest ih =>
      rw [visitAll, List.mem_append] at h
      rw [List.mem_cons]
      rcases h with h | h
      · obtain ⟨habsent, hmet⟩ := stranger_of_mem_visit h
        exact ⟨habsent, hmet.imp_left Or.inl⟩
      · obtain ⟨habsent, hmet⟩ := ih h
        exact ⟨habsent, hmet.imp_left Or.inr⟩

/-- The first missing id is one that was met. -/
theorem missing?_eq_some {x : ExprId} (h : missing? events = some x) : Event.missing x ∈ events := by
  induction events with
  | nil => cases h
  | cons e rest ih =>
      cases e with
      | missing id =>
          cases h
          exact List.mem_cons_self ..
      | enter | edge | cutoff | edgeDone | leave => exact List.mem_cons_of_mem _ (ih h)

/-- Where none is missing, none was met. -/
theorem missing?_eq_none {x : ExprId} (h : missing? events = none) : Event.missing x ∉ events := by
  induction events with
  | nil => exact List.not_mem_nil
  | cons e rest ih =>
      intro hmem
      cases e with
      | missing id => cases h
      | enter id depth => exact ih h (by simpa using hmem)
      | edge parent index child => exact ih h (by simpa using hmem)
      | cutoff parent child depth => exact ih h (by simpa using hmem)
      | edgeDone parent index child closes => exact ih h (by simpa using hmem)
      | leave id depth edges => exact ih h (by simpa using hmem)

end Packrat.Walk

namespace Packrat.Grammar

open Relation

variable {g : Grammar} {events : List Walk.Event} {roots : List ExprId} {root x : ExprId}

theorem lt_size_of_children? (h : (g.children? x).isSome) : x < g.size := by
  obtain ⟨children, hx⟩ := Option.isSome_iff_exists.mp h
  obtain ⟨shape, hshape, -⟩ := Option.map_eq_some_iff.mp hx
  obtain ⟨e, he, -⟩ := Option.map_eq_some_iff.mp hshape
  exact (Array.getElem?_eq_some_iff.mp he).1

theorem node?_of_lt_size (hx : x < g.size) : ∃ e, g.node? x = some e :=
  ⟨_, Array.getElem?_eq_getElem hx⟩

theorem isSome_children? (hx : x < g.size) : (g.children? x).isSome := by
  obtain ⟨e, he⟩ := node?_of_lt_size hx
  rw [children?, shape?, he]
  rfl

/-- A walk succeeds where it meets no stranger. -/
theorem walkOver_eq_ok {graph : Walk.Graph} :
    g.walkOver graph roots = .ok events ↔
      (Walk.visitAll graph g.pathBound roots []).1 = events ∧ Walk.missing? events = none := by
  rw [walkOver]
  dsimp only
  split
  · rename_i x hmissing
    constructor
    · intro h
      cases h
    · rintro ⟨rfl, hnone⟩
      cases hmissing.symm.trans hnone
  · rename_i hnone
    rw [Except.ok.injEq]
    exact ⟨fun h => ⟨h, h ▸ hnone⟩, And.left⟩

/-- A walk that meets no stranger enters everything within reach, and all of it is in the graph. -/
theorem walkOver_reaches {graph : Walk.Graph} (hsize : ∀ x, (graph x).isSome → x < g.size)
    (h : g.walkOver graph roots = .ok events) (hroot : root ∈ roots)
    (hreach : ReflTransGen (Walk.Edge graph) root x) :
    x ∈ Walk.entered events ∧ (graph x).isSome := by
  obtain ⟨rfl, hnone⟩ := walkOver_eq_ok.mp h
  have hentered := Walk.mem_entered_of_reach hsize hroot hreach
  refine ⟨hentered, ?_⟩
  rcases (Walk.visitAll_marked g.pathBound roots []).known x hentered with hknown | hmissing
  · exact hknown
  · exact absurd hmissing (Walk.missing?_eq_none hnone)

/-- A walk that finds no missing id enters all that its roots reach. -/
theorem walk_reaches (h : g.walk roots = .ok events) (hroot : root ∈ roots)
    (hreach : ReflTransGen (Walk.Edge g.children?) root x) :
    x ∈ Walk.entered events ∧ (g.children? x).isSome :=
  walkOver_reaches (fun _ hx => lt_size_of_children? hx) h hroot hreach

/-- A walk that fails met a stranger at the end of an edge or among its roots. -/
theorem stranger_of_walkOver {graph : Walk.Graph} {e : Fault} (h : g.walkOver graph roots = .error e) :
    ∃ x, e = .crash (.noSuchExpr x) ∧ graph x = none ∧ (x ∈ roots ∨ ∃ u, Walk.Edge graph u x) := by
  rw [walkOver] at h
  dsimp only at h
  split at h
  · rename_i x hmissing
    cases h
    exact ⟨x, rfl, Walk.stranger_of_mem_visitAll (Walk.missing?_eq_some hmissing)⟩
  · cases h

/-- A walk from nodes of the grammar meets no stranger if all edges lead to nodes of the grammar. -/
theorem walkOver_ok {graph : Walk.Graph} (hclosed : ∀ u v, Walk.Edge graph u v → (graph v).isSome)
    (hroots : ∀ r ∈ roots, (graph r).isSome) :
    g.walkOver graph roots = .ok (Walk.visitAll graph g.pathBound roots []).1 := by
  cases hwalk : g.walkOver graph roots with
  | ok events => rw [(walkOver_eq_ok.mp hwalk).1]
  | error e =>
      obtain ⟨x, -, habsent, hmet⟩ := stranger_of_walkOver hwalk
      have hknown : (graph x).isSome := by
        rcases hmet with hroot | ⟨u, hedge⟩
        · exact hroots x hroot
        · exact hclosed u x hedge
      rw [habsent] at hknown
      cases hknown

end Packrat.Grammar
