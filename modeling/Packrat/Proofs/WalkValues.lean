import Packrat.Proofs.WalkPaths

/-! # A walk is a depth-first search

    A visitor is called for every event of a walk, with a state of its own, and gives every node that
    is left a value (`Visitor`).  An edge passes on the value of its end, or none if it closed a
    cycle.  A node is known when it has a value, and A VALUE IS NEVER REPLACED: only a node on the
    path gets one, and what is on the path is not known (`Visitor.lookup_kept`).  So whatever an
    edge passes on is what the node at its end was given when it was left, or was marked with.

    The search itself is in `depth_first_search`: which nodes are entered and left, in which order,
    nested how, which edges close a cycle, and what the other edges pass on. -/

namespace Packrat.Walk

open Relation

variable {σ R : Type} {graph : Graph} {marked roots : List ExprId}
  {events earlier later : List Event} {id child x : ExprId} {closes : Bool}

/-! ## Visitors -/

/-- What is called on a walk. An edge that closes a cycle passes on no value. -/
structure Visitor (σ R : Type) where
  before : σ → ExprId → Nat → σ
  beforeEdge : σ → ExprId → Nat → ExprId → σ
  cutoff : σ → ExprId → ExprId → Nat → σ
  afterEdge : σ → ExprId → Nat → ExprId → Option R → σ
  after : σ → ExprId → Nat → List (ExprId × Option R) → R × σ

/-- State of the visitor, and the values of nodes, the latest first. -/
structure Run (σ R : Type) where
  state : σ
  values : List (ExprId × R)

/-- What an edge passes on. -/
def passes (values : List (ExprId × R)) (child : ExprId) (closes : Bool) : Option R :=
  if closes then none else values.lookup child

/-- What the edges of a node pass on. -/
def passesAll (values : List (ExprId × R)) (edges : List (ExprId × Bool)) :
    List (ExprId × Option R) :=
  edges.map fun (child, closes) => (child, passes values child closes)

namespace Visitor

variable (visitor : Visitor σ R) (run : Run σ R)

/-- The call for one event. -/
def step : Event → Run σ R
  | .enter id depth => { run with state := visitor.before run.state id depth }
  | .missing _ => run
  | .edge parent index child =>
      { run with state := visitor.beforeEdge run.state parent index child }
  | .cutoff parent child depth => { run with state := visitor.cutoff run.state parent child depth }
  | .edgeDone parent index child closes =>
      { run with
        state := visitor.afterEdge run.state parent index child (passes run.values child closes) }
  | .leave id depth edges =>
      let (value, state) := visitor.after run.state id depth (passesAll run.values edges)
      { state, values := (id, value) :: run.values }

/-- The calls for a list of events. -/
def calls (events : List Event) : Run σ R :=
  events.foldl visitor.step run

/-- Values that depend on the values of the children alone need no state. -/
def ofValues (after : ExprId → List (Option R) → R) : Visitor Unit R where
  before := fun _ _ _ => ()
  beforeEdge := fun _ _ _ _ => ()
  cutoff := fun _ _ _ _ => ()
  afterEdge := fun _ _ _ _ _ => ()
  after := fun _ id _ edges => (after id (edges.map Prod.snd), ())

/-- The outputs of a walk are the values that such a visitor gives. -/
theorem outputs_eq_calls (after : ExprId → List (Option R) → R) (known : List (ExprId × R))
    (events : List Event) :
    outputs after known events = ((ofValues after).calls ⟨(), known⟩ events).values := by
  induction events generalizing known with
  | nil => rfl
  | cons e rest ih =>
      cases e with
      | leave id depth edges =>
          have hvalues : (passesAll known edges).map Prod.snd =
              edges.map fun (child, closes) => if closes then none else known.lookup child := by
            rw [passesAll, List.map_map]
            rfl
          rw [outputs, ih, ← hvalues]
          rfl
      | enter | missing | edge | cutoff | edgeDone => exact ih known

/-! ## Values -/

theorem isSome_lookup_calls :
    ((visitor.calls run events).values.lookup x).isSome ↔
      (run.values.lookup x).isSome ∨ x ∈ left events := by
  induction events generalizing run with
  | nil => simp [calls, left]
  | cons e rest ih =>
      refine (ih (visitor.step run e)).trans ?_
      cases e with
      | leave id depth edges =>
          rw [step, left, List.mem_cons, ← or_assoc]
          refine or_congr_left ?_
          rw [List.lookup_cons]
          by_cases hx : x = id
          · simp [hx]
          · simp [hx, beq_eq_false_iff_ne.mpr hx]
      | enter | missing | edge | cutoff | edgeDone => exact Iff.rfl

/-- The value of a known node is never replaced. -/
theorem lookup_kept {after : List Event}
    (h : Along (Event.Holds graph marked roots) earlier later after)
    (hx : Known marked earlier x) :
    (visitor.calls run later).values.lookup x = run.values.lookup x := by
  induction later generalizing earlier run with
  | nil => rfl
  | cons e rest ih =>
      obtain ⟨hhere, hrest⟩ := h
      refine (ih (visitor.step run e) hrest (hx.append [e])).trans ?_
      cases e with
      | leave id depth edges =>
          -- what is left here was on the path and is not known yet
          have hne : x ≠ id := by
            rintro rfl
            exact hhere.2.1 hx
          rw [step, List.lookup_cons, beq_eq_false_iff_ne.mpr hne]
      | enter | missing | edge | cutoff | edgeDone => rfl

end Visitor

/-! ## The search -/

/-- What happens on a walk from some roots in turn, where some nodes are marked from the start. -/
structure DepthFirst (graph : Graph) (marked roots : List ExprId) (events : List Event) :
    Prop where
  /-- Nodes are entered in preorder. -/
  preorder : ∀ order, InPreorder graph {x | x ∈ marked} roots order ↔ order = entered events
  enters_once : (entered events).Nodup
  /-- Exactly the nodes within reach are entered, along paths that avoid what was marked. -/
  enters_iff : ∀ x, x ∈ entered events ↔
    ∃ r ∈ roots, r ∉ marked ∧ ReflTransGen (Avoiding graph {x | x ∈ marked}) r x
  /-- Each node that is entered is left, once. -/
  leaves : (left events).Perm (entered events)
  /-- Each edge of a node that is entered is followed, once. -/
  follows : (followed events).Perm ((entered events).flatMap (edgesOf graph))
  /-- Every event is nested as it says: entries and leaves, edges, cutoffs. -/
  nested : ∀ earlier e later, events = earlier ++ e :: later →
    e.Holds graph marked roots earlier later
  /-- Nothing stays on the path. -/
  closed : path events = []

/-- What a visitor is given on a walk, in terms of the values that nodes have at its end. -/
structure Answers (visitor : Visitor σ R) (start : Run σ R) (roots : List ExprId)
    (events : List Event) : Prop where
  /-- A marked node has the value it was marked with. -/
  marked : ∀ x, (start.values.lookup x).isSome →
    (visitor.calls start events).values.lookup x = start.values.lookup x
  /-- A node that was left has the value it was given then; edges that close no cycle passed on
      the values of their ends. -/
  left : ∀ earlier id depth edges later, events = earlier ++ .leave id depth edges :: later →
    (visitor.calls start events).values.lookup id = some (visitor.after
      (visitor.calls start earlier).state id depth
      (passesAll (visitor.calls start events).values edges)).1
  /-- An edge passes on the value of its end, unless its end is on the path. -/
  passed : ∀ earlier parent index child closes later,
    events = earlier ++ .edgeDone parent index child closes :: later →
    ∃ result, (visitor.calls start (earlier ++ [.edgeDone parent index child closes])).state =
        visitor.afterEdge (visitor.calls start earlier).state parent index child result ∧
      (child ∈ path earlier → result = none) ∧
      (child ∉ path earlier → result.isSome ∧
        result = (visitor.calls start events).values.lookup child)
  /-- A root is given a value. -/
  answered : ∀ r ∈ roots, ((visitor.calls start events).values.lookup r).isSome

section Search

variable {size bound : Nat} (hsize : ∀ x, (graph x).isSome → x < size) (hbound : size < bound)
include hsize hbound

theorem visitAll_depthFirst (marked roots : List ExprId) :
    DepthFirst graph marked roots (visitAll graph bound roots (doneMarks marked)).1 := by
  have horder : InPreorder graph {x | x ∈ marked} roots
      (entered (visitAll graph bound roots (doneMarks marked)).1) :=
    visited_doneMarks marked ▸ visitAll_preorder hsize hbound roots (doneMarks marked)
  have hstretch := (visitAll_stretch hsize hbound roots (fun _ hr => hr) rfl
    (tracks_doneMarks marked)).1
  refine ⟨fun order => ⟨fun h => h.unique horder, fun h => h ▸ horder⟩, horder.nodup.1,
    fun x => horder.mem_iff, visitAll_left .., visitAll_followed .., ?_, hstretch.path_eq⟩
  intro earlier e later hsplit
  have hholds := (hstretch.along []).holds hsplit
  rwa [List.nil_append, List.append_nil] at hholds

theorem visitAll_answers (visitor : Visitor σ R) (start : Run σ R) (roots : List ExprId) :
    Answers visitor start roots
      (visitAll graph bound roots (doneMarks (start.values.map Prod.fst))).1 := by
  have hmarked : ∀ x, (start.values.lookup x).isSome ↔ x ∈ start.values.map Prod.fst := by
    intro x
    simp [List.lookup_isSome_iff]
  obtain ⟨hstretch, hroots⟩ := visitAll_stretch hsize hbound roots
    (fun _ hr => hr) rfl (tracks_doneMarks (start.values.map Prod.fst))
  generalize (visitAll graph bound roots (doneMarks (start.values.map Prod.fst))).1 = events
    at hstretch hroots
  have halong := hstretch.along []
  -- from any moment on, the values of known nodes are those they have at the end
  have hfinal : ∀ {before after : List Event} {x : ExprId}, events = before ++ after →
      Known (start.values.map Prod.fst) before x →
      (visitor.calls start events).values.lookup x =
        (visitor.calls start before).values.lookup x := by
    rintro before after x rfl hx
    rw [Visitor.calls, List.foldl_append]
    exact visitor.lookup_kept _ (along_append.mp halong).2 hx
  have hpassed : ∀ {before after : List Event} {child : ExprId} {closes : Bool},
      events = before ++ after → Settled (start.values.map Prod.fst) before child closes →
      passes (visitor.calls start before).values child closes =
        passes (visitor.calls start events).values child closes := by
    intro before after child closes hsplit hsettled
    cases closes with
    | true => rfl
    | false => exact (hfinal hsplit (hsettled.known rfl)).symm
  have hhas : ∀ {before : List Event} {x : ExprId}, Known (start.values.map Prod.fst) before x →
      ((visitor.calls start before).values.lookup x).isSome := by
    intro before x hx
    rw [Visitor.isSome_lookup_calls, hmarked]
    exact hx
  refine ⟨?_, ?_, ?_, fun r hr => hhas (hroots r hr)⟩
  · intro x hx
    exact hfinal (List.nil_append events).symm (Or.inl ((hmarked x).mp hx))
  · intro earlier id depth edges later hsplit
    obtain ⟨-, -, -, hsettled⟩ := halong.holds hsplit
    rw [List.nil_append] at hsettled
    have hknown : Known (start.values.map Prod.fst) (earlier ++ [.leave id depth edges]) id := by
      refine Or.inr ?_
      rw [left_append]
      exact List.mem_append_right _ (List.mem_singleton_self id)
    have hedges : passesAll (visitor.calls start earlier).values edges =
        passesAll (visitor.calls start events).values edges := by
      refine List.map_congr_left fun edge hedge => ?_
      exact congrArg (edge.1, ·) (hpassed hsplit (hsettled edge hedge))
    rw [hfinal (List.append_cons _ _ _ ▸ hsplit) hknown, Visitor.calls, List.foldl_append]
    change List.lookup id ((id, _) :: _) = _
    rw [List.lookup_cons_self, ← hedges]
    rfl
  · intro earlier parent index child closes later hsplit
    obtain ⟨-, -, hsettled⟩ := halong.holds hsplit
    rw [List.nil_append] at hsettled
    refine ⟨passes (visitor.calls start earlier).values child closes, ?_, ?_, ?_⟩
    · rw [Visitor.calls, List.foldl_append]
      rfl
    · intro hon
      rw [hsettled.closes_iff.mpr hon]
      rfl
    · intro hoff
      have hopen : closes = false :=
        Bool.eq_false_iff.mpr fun hcloses => hoff (hsettled.closes_iff.mp hcloses)
      subst hopen
      exact ⟨hhas (hsettled.known rfl), hpassed hsplit hsettled⟩

end Search

end Packrat.Walk

namespace Packrat.Grammar

open Relation

/-- A list of the nodes within reach of the entry points, each once, in preorder. -/
structure ListsReachable (g : Grammar) (order : List ExprId) : Prop where
  preorder : Walk.InPreorder g.children? ∅ g.entryPoints order
  nodup : order.Nodup
  mem_iff : ∀ x, x ∈ order ↔ ∃ r ∈ g.entryPoints, ReflTransGen (Walk.Edge g.children?) r x

/-- The nodes in use are listed, unless one of them is not in the grammar. -/
theorem reachable_lists (g : Grammar) :
    (∃ order, g.reachable = .ok order ∧ g.ListsReachable order ∧ ∀ x ∈ order, x < g.size) ∨
      ∃ x, g.reachable = .error (.crash (.noSuchExpr x)) ∧ ¬ x < g.size ∧
        ∃ r ∈ g.entryPoints, ReflTransGen (Walk.Edge g.children?) r x := by
  have hsize : ∀ x, (g.children? x).isSome → x < g.size := fun _ => lt_size_of_children?
  have hwalk := Walk.visitAll_depthFirst hsize (Nat.lt_succ_self g.size) [] g.entryPoints
  generalize hevents : (Walk.visitAll g.children? (g.size + 1) g.entryPoints
    (Walk.doneMarks [])).1 = events at hwalk
  have hmem : ∀ x, x ∈ Walk.entered events ↔
      ∃ r ∈ g.entryPoints, ReflTransGen (Walk.Edge g.children?) r x := by
    intro x
    simpa [Walk.avoiding_empty] using hwalk.enters_iff x
  have hmarked : Walk.Marked g.children? [] events _ :=
    hevents ▸ Walk.visitAll_marked (g.size + 1) g.entryPoints []
  cases hmissing : Walk.missing? events with
  | none =>
      refine Or.inl ⟨Walk.entered events, ?_, ⟨?_, hwalk.enters_once, hmem⟩, fun x hx => ?_⟩
      · have hok : g.walk g.entryPoints = .ok events := walkOver_eq_ok.mpr ⟨hevents, hmissing⟩
        rw [reachable, hok]
        rfl
      · simpa using (hwalk.preorder (Walk.entered events)).mpr rfl
      · exact hsize x ((hmarked.known x hx).resolve_right (Walk.missing?_eq_none hmissing))
  | some x =>
      obtain ⟨earlier, later, hsplit⟩ := List.append_of_mem (Walk.missing?_eq_some hmissing)
      obtain ⟨hlast, habsent⟩ := hwalk.nested _ _ _ hsplit
      have hentered : x ∈ Walk.entered events := by
        rw [hsplit, Walk.entered_append]
        exact List.mem_append_left _
          (Walk.mem_entered_of_mem_path (List.mem_of_getLast? hlast))
      refine Or.inr ⟨x, ?_, fun hlt => ?_, (hmem x).mp hentered⟩
      · have herror : g.walk g.entryPoints = .error (.crash (.noSuchExpr x)) := by
          have hsame : (Walk.visitAll g.children? g.pathBound g.entryPoints []).1 = events := hevents
          rw [walk, walkOver]
          simp only [hsame, hmissing]
        rw [reachable, herror]
        rfl
      · have hsome := isSome_children? hlt
        rw [habsent] at hsome
        cases hsome

end Packrat.Grammar

namespace Packrat.Walk

/-- A walk is a depth-first search, and the list of nodes in use is the preorder of one. -/
theorem depth_first_search {σ R : Type} {graph : Graph} {size bound : Nat}
    (hsize : ∀ x, (graph x).isSome → x < size) (hbound : size < bound) (visitor : Visitor σ R)
    (start : Run σ R) (roots : List ExprId) :
    DepthFirst graph (start.values.map Prod.fst) roots
        (visitAll graph bound roots (doneMarks (start.values.map Prod.fst))).1 ∧
      Answers visitor start roots
        (visitAll graph bound roots (doneMarks (start.values.map Prod.fst))).1 ∧
      ∀ g : Grammar,
        (∃ order, g.reachable = .ok order ∧ g.ListsReachable order ∧ ∀ x ∈ order, x < g.size) ∨
        ∃ x, g.reachable = .error (.crash (.noSuchExpr x)) ∧ ¬ x < g.size ∧
          ∃ r ∈ g.entryPoints, Relation.ReflTransGen (Edge g.children?) r x :=
  ⟨visitAll_depthFirst hsize hbound _ roots, visitAll_answers hsize hbound visitor start roots,
    Grammar.reachable_lists⟩

/-- Two cycles and a shared node. -/
def twoCycles : Graph := fun x => [[1, 2], [2, 0, 3], [2, 3], []][x]?

/-- Counts the nodes below a node along edges that close no cycle. -/
def sizeBelow : Visitor Unit Nat :=
  .ofValues fun _ values => values.foldl (fun count value => count + value.getD 0) 1

theorem depth_first_search_twoCycles :
    (∀ x, (twoCycles x).isSome → x < 4) ∧ 4 < 5 ∧
      DepthFirst twoCycles [3] [0, 2] (visitAll twoCycles 5 [0, 2] (doneMarks [3])).1 ∧
      Answers sizeBelow ⟨(), [(3, 100)]⟩ [0, 2]
        (visitAll twoCycles 5 [0, 2] (doneMarks [3])).1 ∧
      entered (visitAll twoCycles 5 [0, 2] (doneMarks [3])).1 = [0, 1, 2] ∧
      (sizeBelow.calls ⟨(), [(3, 100)]⟩
        (visitAll twoCycles 5 [0, 2] (doneMarks [3])).1).values.lookup 0 = some 304 := by
  have hsize : ∀ x, (twoCycles x).isSome → x < 4 := by
    intro x hx
    obtain ⟨children, hchildren⟩ := Option.isSome_iff_exists.mp hx
    exact (List.getElem?_eq_some_iff.mp hchildren).1
  have hsearch := depth_first_search hsize (by decide : 4 < 5) sizeBelow ⟨(), [(3, 100)]⟩ [0, 2]
  exact ⟨hsize, by decide, hsearch.1, hsearch.2.1, by decide, by decide⟩

end Packrat.Walk
