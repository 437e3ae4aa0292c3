import Packrat.Proofs.WalkOrder

/-! # What the events of a walk say

    The nodes entered and not left so far are the path (`path`).  Every event of a walk is read
    against what came before it and after it (`Event.Holds`): a node is entered from the end of the
    path, at the depth that is the length of the path, and it is left when it is the end of the
    path again; an edge leads from the end of the path; a cutoff comes right after its edge, at
    the depth at which its end stands on the path, and it comes whenever there is such a depth.

    The invariant is that the marks are the path with its depths, and the nodes marked at the start or
    left since (`Tracks`).  A part of a walk that ends on the path on which it began is a `Stretch`,
    and stretches are put one behind the other. -/

namespace Packrat.Walk

variable {graph : Graph} {marked roots : List ExprId} {events earlier added added' later : List Event}
  {marks marks' marks'' : Marks} {id parent child x : ExprId} {depth k : Nat} {closes : Bool}

/-! ## The path -/

/-- The path after one more event. -/
def Event.extend (path : List ExprId) : Event → List ExprId
  | .enter id _ => path ++ [id]
  | .leave _ _ _ => path.dropLast
  | _ => path

/-- Nodes entered and not left, the outermost first. -/
def path (events : List Event) : List ExprId :=
  events.foldl Event.extend []

theorem path_singleton (events : List Event) (e : Event) :
    path (events ++ [e]) = e.extend (path events) := by
  rw [path, List.foldl_append]
  rfl

/-- What is on the path was entered. -/
theorem mem_entered_of_mem_path (h : x ∈ path events) : x ∈ entered events := by
  induction events using List.reverseRecOn with
  | nil => cases h
  | append_singleton events e ih =>
      rw [path_singleton] at h
      rw [entered_append, List.mem_append]
      cases e with
      | enter id depth =>
          rw [Event.extend, List.mem_append] at h
          exact h.imp_left ih
      | leave id depth edges => exact Or.inl (ih (List.mem_of_mem_dropLast h))
      | missing | edge | cutoff | edgeDone => exact Or.inl (ih h)

/-- Nodes marked from the start, and nodes left. -/
def Known (marked : List ExprId) (events : List Event) (x : ExprId) : Prop :=
  x ∈ marked ∨ x ∈ left events

theorem Known.append (h : Known marked events x) (later : List Event) :
    Known marked (events ++ later) x := by
  refine h.imp_right fun hx => ?_
  rw [left_append]
  exact List.mem_append_left _ hx

/-- The walk has come to a node: it is a root, or a child of the end of the path. -/
def Leads (graph : Graph) (roots : List ExprId) (events : List Event) (x : ExprId) : Prop :=
  match (path events).getLast? with
  | none => x ∈ roots
  | some parent => Edge graph parent x

/-- What became of an edge: it closed a cycle on the path, or its end is known. -/
structure Settled (marked : List ExprId) (events : List Event) (child : ExprId) (closes : Bool) :
    Prop where
  closes_iff : closes = true ↔ child ∈ path events
  known : closes = false → Known marked events child

/-- What an event says, given the events before it and after it. -/
def Event.Holds (graph : Graph) (marked roots : List ExprId) (earlier later : List Event) :
    Event → Prop
  | .enter id depth =>
      depth = (path earlier).length ∧ id ∉ path earlier ∧ ¬ Known marked earlier id ∧
        Leads graph roots earlier id
  | .missing id => (path earlier).getLast? = some id ∧ graph id = none
  | .edge parent index child =>
      (path earlier).getLast? = some parent ∧ ((graph parent).getD [])[index]? = some child ∧
        ∀ k, later.head? = some (.cutoff parent child k) ↔ (path earlier)[k]? = some child
  | .cutoff parent child depth =>
      (path earlier).getLast? = some parent ∧ (path earlier)[depth]? = some child ∧
        ∃ index, earlier.getLast? = some (.edge parent index child)
  | .edgeDone parent index child closes =>
      (path earlier).getLast? = some parent ∧ ((graph parent).getD [])[index]? = some child ∧
        Settled marked earlier child closes
  | .leave id depth edges =>
      (∃ outer, path earlier = outer ++ [id] ∧ outer.length = depth) ∧ ¬ Known marked earlier id ∧
        edges.map Prod.fst = (graph id).getD [] ∧
        ∀ edge ∈ edges, Settled marked earlier edge.1 edge.2

/-! ## Every event of a list -/

/-- Every event of the second list stands in a relation to what comes before it and after it. -/
def Along (P : List Event → List Event → Event → Prop) :
    List Event → List Event → List Event → Prop
  | _, [], _ => True
  | earlier, e :: rest, later => P earlier (rest ++ later) e ∧ Along P (earlier ++ [e]) rest later

section Along

variable {P : List Event → List Event → Event → Prop}

theorem along_append :
    Along P earlier (added ++ added') later ↔
      Along P earlier added (added' ++ later) ∧ Along P (earlier ++ added) added' later := by
  induction added generalizing earlier with
  | nil => simp [Along]
  | cons e rest ih => simp [Along, ih, and_assoc]

theorem along_singleton {e : Event} : Along P earlier [e] later ↔ P earlier later e :=
  and_iff_left trivial

theorem Along.holds (h : Along P earlier events later) {before after : List Event} {e : Event}
    (hsplit : events = before ++ e :: after) : P (earlier ++ before) (after ++ later) e := by
  subst hsplit
  exact (along_append.mp h).2.1

end Along

/-! ## The marks -/

/-- The marks are the path with its depths, and the nodes that are known. -/
structure Tracks (marked : List ExprId) (events : List Event) (marks : Marks) : Prop where
  onPath : ∀ x k, OnPath marks x k ↔ (path events)[k]? = some x
  done : ∀ x, Done marks x ↔ Known marked events x

namespace Tracks

theorem mem_path (h : Tracks marked events marks) : x ∈ path events ↔ ∃ k, OnPath marks x k := by
  rw [List.mem_iff_getElem?]
  exact exists_congr fun k => (h.onPath x k).symm

/-- An event that neither enters nor leaves. -/
theorem quiet (h : Tracks marked events marks) {e : Event} (hpath : ∀ path, e.extend path = path)
    (hleft : left [e] = []) : Tracks marked (events ++ [e]) marks where
  onPath := by
    intro x k
    rw [path_singleton, hpath]
    exact h.onPath x k
  done := by
    intro x
    rw [Known, left_append, hleft, List.append_nil]
    exact h.done x

theorem enter (h : Tracks marked events marks) (hnew : marks.lookup id = none)
    (hdepth : (path events).length = depth) :
    Tracks marked (events ++ [.enter id depth]) ((id, .onPath depth) :: marks) where
  onPath := by
    intro x k
    rw [path_singleton, Event.extend]
    by_cases hx : x = id
    · subst hx
      -- it is on the path at one depth, the last
      rw [onPath_cons_self, Mark.onPath.injEq, List.getElem?_append]
      split
      · rename_i hk
        refine ⟨fun heq => by omega, fun hmem => ?_⟩
        cases hnew.symm.trans ((h.onPath x k).mpr hmem)
      · rw [List.getElem?_singleton]
        constructor
        · intro heq
          rw [if_pos (by omega)]
        · intro hmem
          split at hmem
          · omega
          · cases hmem
    · rw [onPath_cons_ne hx, h.onPath, List.getElem?_append]
      split
      · exact Iff.rfl
      · rename_i hk
        rw [List.getElem?_singleton, List.getElem?_eq_none (Nat.not_lt.mp hk)]
        split <;> simp [Ne.symm hx]
  done := by
    intro x
    have hleft : left (events ++ [.enter id depth]) = left events := by simp [left_append, left]
    rw [Known, hleft]
    refine Iff.trans ?_ (h.done x)
    by_cases hx : x = id
    · subst hx
      simp [Done, hnew]
    · exact done_cons_ne hx

theorem leave (h : Tracks marked events marks) {outer : List ExprId}
    (hpath : path events = outer ++ [id]) (edges : List (ExprId × Bool)) :
    Tracks marked (events ++ [.leave id depth edges]) ((id, .done) :: marks) where
  onPath := by
    intro x k
    have hinner : OnPath marks id outer.length := by
      rw [h.onPath, hpath, List.getElem?_concat_length]
    rw [path_singleton, Event.extend, hpath, List.dropLast_concat]
    by_cases hx : x = id
    · subst hx
      refine ⟨fun hon => absurd (onPath_cons_self.mp hon) (by simp), fun hmem => ?_⟩
      obtain ⟨hk, -⟩ := List.getElem?_eq_some_iff.mp hmem
      have hon : OnPath marks x k := by
        rw [h.onPath, hpath, List.getElem?_append_left hk, hmem]
      cases hinner.symm.trans hon
      exact absurd hk (Nat.lt_irrefl _)
    · rw [onPath_cons_ne hx, h.onPath, hpath, List.getElem?_append]
      split
      · exact Iff.rfl
      · rename_i hk
        rw [List.getElem?_singleton, List.getElem?_eq_none (Nat.not_lt.mp hk)]
        split <;> simp [Ne.symm hx]
  done := by
    intro x
    rw [Known, left_append, List.mem_append, ← or_assoc]
    by_cases hx : x = id
    · subst hx
      simp [Done, left]
    · rw [done_cons_ne hx, h.done]
      simp [Known, left, hx]

end Tracks

/-! ## VisitStretches -/

/-- A part of a walk after which the path is what it was before. -/
structure Stretch (graph : Graph) (marked roots : List ExprId) (earlier added : List Event)
    (marks' : Marks) : Prop where
  along : ∀ later, Along (Event.Holds graph marked roots) earlier added later
  tracks : Tracks marked (earlier ++ added) marks'
  path_eq : path (earlier ++ added) = path earlier

namespace Stretch

theorem nil (h : Tracks marked earlier marks) : Stretch graph marked roots earlier [] marks where
  along := fun _ => trivial
  tracks := by
    rw [List.append_nil]
    exact h
  path_eq := by rw [List.append_nil]

theorem trans (h : Stretch graph marked roots earlier added marks')
    (h' : Stretch graph marked roots (earlier ++ added) added' marks'') :
    Stretch graph marked roots earlier (added ++ added') marks'' where
  along := fun later => along_append.mpr ⟨h.along (added' ++ later), h'.along later⟩
  tracks := by
    rw [← List.append_assoc]
    exact h'.tracks
  path_eq := by
    rw [← List.append_assoc, h'.path_eq, h.path_eq]

/-- An event that neither enters nor leaves and that says nothing of what comes after it. -/
theorem quiet (h : Tracks marked earlier marks) {e : Event} (hpath : ∀ path, e.extend path = path)
    (hleft : left [e] = []) (he : ∀ later, e.Holds graph marked roots earlier later) :
    Stretch graph marked roots earlier [e] marks where
  along := fun later => along_singleton.mpr (he later)
  tracks := h.quiet hpath hleft
  path_eq := (path_singleton earlier e).trans (hpath _)

/-- An edge that is followed: a cutoff comes first behind it where its end is on the path. -/
theorem edge {index : Nat} (h : Tracks marked earlier marks)
    (hparent : (path earlier).getLast? = some parent)
    (hchild : ((graph parent).getD [])[index]? = some child)
    (hcut : ∀ k, OnPath marks child k → added.head? = some (.cutoff parent child k))
    (hadded : added ≠ [])
    (hrest : Stretch graph marked roots (earlier ++ [.edge parent index child]) added marks') :
    Stretch graph marked roots earlier (.edge parent index child :: added) marks' where
  along := by
    refine fun later => ⟨⟨hparent, hchild, fun k => ?_⟩, hrest.along later⟩
    obtain ⟨e, rest, rfl⟩ := List.exists_cons_of_ne_nil hadded
    refine ⟨fun hhead => ?_, fun hon => ?_⟩
    · cases hhead
      -- the cutoff itself says that its end is on the path
      have hdepth := (hrest.along later).1.2.1
      rwa [path_singleton] at hdepth
    · exact hcut k ((h.onPath child k).mpr hon)
  tracks := by
    rw [List.append_cons]
    exact hrest.tracks
  path_eq := by
    rw [List.append_cons, hrest.path_eq]
    exact path_singleton _ _

/-- A node that is entered, and left when its edges are settled. -/
theorem around {inside : List Event} {edges : List (ExprId × Bool)}
    (hinside : Stretch graph marked roots (earlier ++ [.enter id depth]) inside marks')
    (hdepth : (path earlier).length = depth) (hoff : id ∉ path earlier)
    (hunknown : ¬ Known marked earlier id) (hleads : Leads graph roots earlier id)
    (hends : edges.map Prod.fst = (graph id).getD [])
    (hsettled : ∀ edge ∈ edges,
      Settled marked (earlier ++ [.enter id depth] ++ inside) edge.1 edge.2) :
    Stretch graph marked roots earlier (.enter id depth :: (inside ++ [.leave id depth edges]))
        ((id, .done) :: marks') ∧
      Settled marked (earlier ++ .enter id depth :: (inside ++ [.leave id depth edges])) id
        false := by
  have hshape : earlier ++ .enter id depth :: (inside ++ [.leave id depth edges]) =
      earlier ++ [.enter id depth] ++ inside ++ [.leave id depth edges] := by simp
  have hback : path (earlier ++ [.enter id depth] ++ inside) = path earlier ++ [id] :=
    hinside.path_eq.trans (path_singleton _ _)
  have houter : path (earlier ++ [.enter id depth] ++ inside ++ [.leave id depth edges]) =
      path earlier := by
    rw [path_singleton, hback, Event.extend, List.dropLast_concat]
  refine ⟨⟨fun later => ?_, ?_, hshape ▸ houter⟩, ?_, fun _ => Or.inr ?_⟩
  · refine ⟨⟨hdepth.symm, hoff, hunknown, hleads⟩, along_append.mpr ⟨hinside.along _, ?_⟩⟩
    have hopen : ¬ Known marked (earlier ++ [.enter id depth] ++ inside) id := by
      rw [← hinside.tracks.done]
      obtain ⟨k, hon⟩ := hinside.tracks.mem_path.mp
        (hback ▸ List.mem_append_right _ (List.mem_singleton_self id))
      exact not_done_of_onPath hon
    exact along_singleton.mpr ⟨⟨path earlier, hback, hdepth⟩, hopen, hends, hsettled⟩
  · rw [hshape]
    exact hinside.tracks.leave hback edges
  · rw [hshape, houter]
    exact iff_of_false Bool.false_ne_true hoff
  · rw [hshape, left_append]
    exact List.mem_append_right _ (List.mem_singleton_self id)

end Stretch

theorem Settled.append (h : Settled marked events child closes)
    (hpath : path (events ++ added) = path events) : Settled marked (events ++ added) child closes where
  closes_iff := by
    rw [hpath]
    exact h.closes_iff
  known := fun hopen => (h.known hopen).append added

namespace Tracks

/-- An edge to a node on the path closes a cycle. -/
theorem settled_onPath {k : Nat} (h : Tracks marked earlier marks) (hid : OnPath marks id k) :
    Settled marked earlier id true where
  closes_iff := iff_of_true rfl (h.mem_path.mpr ⟨k, hid⟩)
  known := by
    intro hopen
    cases hopen

/-- An edge to a node that is done closes none. -/
theorem settled_done (h : Tracks marked earlier marks) (hid : marks.lookup id = some .done) :
    Settled marked earlier id false where
  closes_iff := by
    rw [h.mem_path]
    refine iff_of_false Bool.false_ne_true ?_
    rintro ⟨k, hon⟩
    exact not_done_of_onPath hon hid
  known := fun _ => (h.done id).mp hid

/-- A node without a mark is not on the path, and not known. -/
theorem fresh (h : Tracks marked earlier marks) (hid : marks.lookup id = none) :
    id ∉ path earlier ∧ ¬ Known marked earlier id := by
  rw [h.mem_path, ← h.done]
  refine ⟨?_, fun hdone => ?_⟩
  · rintro ⟨k, hon⟩
    cases hid.symm.trans hon
  · cases hid.symm.trans hdone

end Tracks

/-! ## The walk -/

/-- A visit of a node to which the walk has come is a stretch and settles the edge to the node. -/
def VisitStretches (graph : Graph) (marked roots : List ExprId) (depth : Nat)
    (visitChild : Marks → ExprId → Step) : Prop :=
  ∀ earlier marks id, HasPath graph depth marks → Tracks marked earlier marks →
    (path earlier).length = depth → Leads graph roots earlier id →
    Stretch graph marked roots earlier (visitChild marks id).events (visitChild marks id).marks ∧
      Settled marked (earlier ++ (visitChild marks id).events) id (visitChild marks id).closes

theorem cutoffEvents_stretch {index : Nat} (h : Tracks marked earlier marks)
    (hparent : (path earlier).getLast? = some parent)
    (hedge : earlier.getLast? = some (.edge parent index child)) :
    Stretch graph marked roots earlier (cutoffEvents marks parent child) marks := by
  rw [cutoffEvents]
  split
  · rename_i k hk
    exact .quiet h (fun _ => rfl) rfl fun _ => ⟨hparent, (h.onPath child k).mp hk, index, hedge⟩
  · exact .nil h

/-- One edge: what closes there, the visit of its end, and the end of the edge. -/
theorem edge_stretch {visitChild : Marks → ExprId → Step}
    (hvisit : VisitStretches graph marked roots depth visitChild) {index : Nat}
    (hpath : HasPath graph depth marks) (h : Tracks marked earlier marks)
    (hdepth : (path earlier).length = depth) (hparent : (path earlier).getLast? = some parent)
    (hchild : ((graph parent).getD [])[index]? = some child) :
    Stretch graph marked roots earlier
        (.edge parent index child :: (cutoffEvents marks parent child ++
          ((visitChild marks child).events ++
            [.edgeDone parent index child (visitChild marks child).closes])))
        (visitChild marks child).marks ∧
      Settled marked
        (earlier ++ .edge parent index child :: (cutoffEvents marks parent child ++
          ((visitChild marks child).events ++
            [.edgeDone parent index child (visitChild marks child).closes])))
        child (visitChild marks child).closes := by
  have hbegun : Tracks marked (earlier ++ [.edge parent index child]) marks := h.quiet (fun _ => rfl) rfl
  have hsame : path (earlier ++ [.edge parent index child]) = path earlier := path_singleton _ _
  have hcut : Stretch graph marked roots (earlier ++ [.edge parent index child])
      (cutoffEvents marks parent child) marks :=
    cutoffEvents_stretch hbegun (hsame ▸ hparent) List.getLast?_concat
  have hmet := hcut.path_eq.trans hsame
  have hleads : Leads graph roots (earlier ++ [.edge parent index child] ++
      cutoffEvents marks parent child) child := by
    rw [Leads, hmet, hparent]
    exact edge_iff.mpr (List.mem_of_getElem? hchild)
  obtain ⟨hstep, hsettled⟩ := hvisit _ marks child hpath hcut.tracks (hmet ▸ hdepth) hleads
  have hback := hstep.path_eq.trans hmet
  have hended : Stretch graph marked roots _
      [.edgeDone parent index child (visitChild marks child).closes] (visitChild marks child).marks :=
    .quiet hstep.tracks (fun _ => rfl) rfl fun _ => ⟨hback ▸ hparent, hchild, hsettled⟩
  have hrest := hcut.trans (hstep.trans hended)
  refine ⟨.edge h hparent hchild ?_ (by simp) hrest, ?_⟩
  · intro k hon
    rw [cutoffEvents, hon]
    rfl
  · rw [List.append_cons, ← List.append_assoc, ← List.append_assoc]
    exact hsettled.append hended.path_eq

/-- The edges of the end of the path from an index on. -/
theorem followEdges_stretch {visitChild : Marks → ExprId → Step}
    (hmarks : ∀ marks id, Marked graph marks (visitChild marks id).events (visitChild marks id).marks)
    (hvisit : VisitStretches graph marked roots depth visitChild) (children : List ExprId) (index : Nat)
    (hchildren : ∀ i c, children[i]? = some c → ((graph parent).getD [])[index + i]? = some c)
    (hpath : ∀ c ∈ children, HasPath graph depth marks) (h : Tracks marked earlier marks)
    (hdepth : (path earlier).length = depth) (hparent : (path earlier).getLast? = some parent) :
    Stretch graph marked roots earlier (followEdges visitChild parent index children marks).events
        (followEdges visitChild parent index children marks).marks ∧
      (followEdges visitChild parent index children marks).edges.map Prod.fst = children ∧
      ∀ edge ∈ (followEdges visitChild parent index children marks).edges,
        Settled marked (earlier ++ (followEdges visitChild parent index children marks).events)
          edge.1 edge.2 := by
  induction children generalizing index marks earlier with
  | nil => exact ⟨.nil h, rfl, fun _ hedge => absurd hedge (List.not_mem_nil)⟩
  | cons child rest ih =>
      have hhere : HasPath graph depth marks := hpath child (List.mem_cons_self ..)
      obtain ⟨hturn, hsettled⟩ :=
        edge_stretch hvisit hhere h hdepth hparent (hchildren 0 child rfl)
      obtain ⟨hlater, hends, hrest⟩ := ih (index + 1)
        (fun i c hc => by rw [Nat.add_right_comm]; exact hchildren (i + 1) c hc)
        (fun _ _ => hhere.kept (hmarks marks child).kept) hturn.tracks
        (hturn.path_eq ▸ hdepth) (hturn.path_eq ▸ hparent)
      have hevents : (followEdges visitChild parent index (child :: rest) marks).events =
          (.edge parent index child :: (cutoffEvents marks parent child ++
            ((visitChild marks child).events ++
              [.edgeDone parent index child (visitChild marks child).closes]))) ++
          (followEdges visitChild parent (index + 1) rest (visitChild marks child).marks).events := by
        simp [followEdges]
      rw [hevents]
      refine ⟨hturn.trans hlater, congrArg (child :: ·) hends, ?_⟩
      rw [← List.append_assoc]
      exact List.forall_mem_cons.mpr ⟨hsettled.append hlater.path_eq, hrest⟩

theorem visit_stretch {size : Nat} (hsize : ∀ x, (graph x).isSome → x < size) (bound : Nat)
    (hbound : size < bound + depth) :
    VisitStretches graph marked roots depth (visit graph bound depth) := by
  induction bound generalizing depth with
  | zero =>
      intro earlier marks id hpath
      have hle := hpath.le_size hsize
      omega
  | succ bound ih =>
      intro earlier marks id hpath h hdepth hleads
      rw [visit]
      cases hid : marks.lookup id with
      | some mark =>
          cases mark with
          | onPath k =>
              refine ⟨.nil h, ?_⟩
              rw [List.append_nil]
              exact h.settled_onPath hid
          | done =>
              refine ⟨.nil h, ?_⟩
              rw [List.append_nil]
              exact h.settled_done hid
      | none =>
          dsimp only
          obtain ⟨hoff, hunknown⟩ := h.fresh hid
          have hentered := h.enter hid hdepth
          have hon : path (earlier ++ [.enter id depth]) = path earlier ++ [id] :=
            path_singleton _ _
          have hlast : (path (earlier ++ [.enter id depth])).getLast? = some id := by
            rw [hon, List.getLast?_concat]
          -- a node outside the graph is noted, which changes nothing
          have habsent : Stretch graph marked roots (earlier ++ [.enter id depth])
              (if (graph id).isSome then [] else [.missing id]) ((id, .onPath depth) :: marks) := by
            split
            · exact .nil hentered
            · rename_i hmissing
              exact .quiet hentered (fun _ => rfl) rfl fun _ =>
                ⟨hlast, Option.not_isSome_iff_eq_none.mp hmissing⟩
          have hinner : ∀ c ∈ (graph id).getD [],
              HasPath graph (depth + 1) ((id, .onPath depth) :: marks) := by
            intro c hc
            obtain ⟨children, hchildren, -⟩ := edge_iff.mpr hc
            exact hpath.enter hid (Option.isSome_iff_exists.mpr ⟨children, hchildren⟩)
          obtain ⟨hfollowed, hends, hsettled⟩ := followEdges_stretch
            (visit_marked bound (depth + 1)) (ih (by omega)) ((graph id).getD []) 0
            (fun i c hc => by rw [Nat.zero_add]; exact hc) hinner habsent.tracks
            (by rw [habsent.path_eq, hon, List.length_append, hdepth]; rfl)
            (by rw [habsent.path_eq, hlast])
          generalize followEdges (visit graph bound (depth + 1)) id 0 ((graph id).getD [])
            ((id, .onPath depth) :: marks) = followed at hfollowed hends hsettled ⊢
          rw [List.append_assoc (earlier ++ [Event.enter id depth])] at hsettled
          exact (habsent.trans hfollowed).around hdepth hoff hunknown hleads hends hsettled

/-- Roots in turn. -/
theorem visitAll_stretch {size bound : Nat} (hsize : ∀ x, (graph x).isSome → x < size)
    (hbound : size < bound) (ahead : List ExprId) (hahead : ∀ r ∈ ahead, r ∈ roots)
    (hpath : path earlier = []) (h : Tracks marked earlier marks) :
    Stretch graph marked roots earlier (visitAll graph bound ahead marks).1
        (visitAll graph bound ahead marks).2 ∧
      ∀ r ∈ ahead, Known marked (earlier ++ (visitAll graph bound ahead marks).1) r := by
  induction ahead generalizing earlier marks with
  | nil => exact ⟨.nil h, fun _ hr => absurd hr (List.not_mem_nil)⟩
  | cons root rest ih =>
      obtain ⟨hroot, hrest⟩ := List.forall_mem_cons.mp hahead
      have hleads : Leads graph roots earlier root := by
        rw [Leads, hpath]
        exact hroot
      obtain ⟨hstep, hsettled⟩ := visit_stretch hsize bound hbound earlier marks root
        (hasPath_zero graph marks) h (by rw [hpath]; rfl) hleads
      have hback := hstep.path_eq.trans hpath
      obtain ⟨hlater, hknown⟩ := ih hrest hback hstep.tracks
      rw [visitAll]
      refine ⟨hstep.trans hlater, ?_⟩
      simp only
      rw [← List.append_assoc]
      refine List.forall_mem_cons.mpr ⟨(hsettled.known ?_).append _, hknown⟩
      -- nothing is on the path between two roots
      rw [Bool.eq_false_iff, Ne, hsettled.closes_iff, hback]
      exact List.not_mem_nil

/-- Marks before a walk: some nodes are done. -/
def doneMarks (marked : List ExprId) : Marks :=
  marked.map (·, .done)

theorem lookup_doneMarks (marked : List ExprId) (x : ExprId) :
    (doneMarks marked).lookup x = if x ∈ marked then some .done else none := by
  induction marked with
  | nil => rfl
  | cons y rest ih =>
      rw [doneMarks, List.map_cons, lookup_mark_cons, ← doneMarks, ih]
      by_cases hx : x = y
      · simp [hx]
      · simp [hx]

theorem tracks_doneMarks (marked : List ExprId) : Tracks marked [] (doneMarks marked) where
  onPath := by
    intro x k
    rw [OnPath, lookup_doneMarks]
    split <;> simp [path]
  done := by
    intro x
    rw [Done, lookup_doneMarks]
    split <;> simp_all [Known, left]

theorem visited_doneMarks (marked : List ExprId) : visited (doneMarks marked) = {x | x ∈ marked} := by
  refine Set.ext fun x => ?_
  change ((doneMarks marked).lookup x).isSome ↔ x ∈ marked
  rw [lookup_doneMarks]
  split <;> simp_all

end Packrat.Walk
