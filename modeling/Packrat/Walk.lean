import Packrat.Grammar.Basic

/-!
# Walks: depth-first traversal as a list of events

A graph gives the ordered children of each node it has. Walking it marks every node as unvisited,
on the current path, or done. Reaching a node on the path closes a cycle, reaching a done node
goes no further. What a walk does is a list of events, and the passes over a grammar read that
list: which nodes are entered, over which edges, and which edges close a cycle.

* **`Walk.Event`** — what happens on a walk.
* **`Walk.visit`** — the events of visiting one node, with the marks after it.
* **`Walk.visitAll`** — several roots in turn; marks persist, so a node is entered once.
* **`Walk.outputs`** — a value for every node left, computed from the values of its children.
* **`Grammar.walk`** — the walk over all children of a grammar; an id outside it is a crash.
-/

namespace Packrat

namespace Walk

/-- The ordered children of a node, nothing for a node outside the graph. -/
abbrev Graph := ExprId → Option (List ExprId)

/-- State of a visited node. -/
inductive Mark where
  /-- On the current path, at a depth. -/
  | onPath (depth : Nat)
  | done
deriving DecidableEq, Inhabited, Repr

/-- Marks of the visited nodes, the latest first. -/
abbrev Marks := List (ExprId × Mark)

/-- What happens on a walk. -/
inductive Event where
  /-- A node is met for the first time, at a depth of the path. -/
  | enter (id : ExprId) (depth : Nat)
  /-- The node just entered is not in the graph. -/
  | missing (id : ExprId)
  /-- An edge is about to be followed. -/
  | edge (parent : ExprId) (index : Nat) (child : ExprId)
  /-- The edge leads to a node on the path, at the given depth. -/
  | cutoff (parent child : ExprId) (depth : Nat)
  /-- An edge was followed; `closes` tells whether it closed a cycle. -/
  | edgeDone (parent : ExprId) (index : Nat) (child : ExprId) (closes : Bool)
  /-- All edges of a node were followed; each is listed with whether it closed a cycle. -/
  | leave (id : ExprId) (depth : Nat) (edges : List (ExprId × Bool))
deriving DecidableEq, Repr

/-- Result of visiting a node. -/
structure Step where
  /-- The node was on the path. -/
  closes : Bool
  events : List Event
  marks : Marks

/-- Result of following the edges of a node. -/
structure EdgeSteps where
  events : List Event
  edges : List (ExprId × Bool)
  marks : Marks

/-- The event of meeting `child` while it is on the path. -/
def cutoffEvents (marks : Marks) (parent child : ExprId) : List Event :=
  match marks.lookup child with
  | some (.onPath depth) => [.cutoff parent child depth]
  | _ => []

/-- Follow edges in order, visiting each child with `visitChild`. -/
def followEdges (visitChild : Marks → ExprId → Step) (parent : ExprId) :
    Nat → List ExprId → Marks → EdgeSteps
  | _, [], marks => { events := [], edges := [], marks }
  | index, child :: rest, marks =>
      let step := visitChild marks child
      let later := followEdges visitChild parent (index + 1) rest step.marks
      { events :=
          .edge parent index child :: (cutoffEvents marks parent child ++ step.events ++
            .edgeDone parent index child step.closes :: later.events)
        edges := (child, step.closes) :: later.edges
        marks := later.marks }

/-- Visit a node at a depth of the path. The first argument bounds the length of the path that
    is still to come; a path through distinct nodes of a finite graph is no longer than that. -/
def visit (graph : Graph) : Nat → Nat → Marks → ExprId → Step
  | 0, _, marks, _ => { closes := false, events := [], marks }
  | bound + 1, depth, marks, id =>
      match marks.lookup id with
      | some (.onPath _) => { closes := true, events := [], marks }
      | some .done => { closes := false, events := [], marks }
      | none =>
          let absent : List Event := if (graph id).isSome then [] else [.missing id]
          let followed :=
            followEdges (visit graph bound (depth + 1)) id 0 ((graph id).getD [])
              ((id, .onPath depth) :: marks)
          { closes := false
            events := .enter id depth :: (absent ++ followed.events ++
              [.leave id depth followed.edges])
            marks := (id, .done) :: followed.marks }

/-- Walk from several roots in turn. -/
def visitAll (graph : Graph) (bound : Nat) : List ExprId → Marks → List Event × Marks
  | [], marks => ([], marks)
  | root :: rest, marks =>
      let step := visit graph bound 0 marks root
      let (events, marks) := visitAll graph bound rest step.marks
      (step.events ++ events, marks)

/-- Which of several roots, walked from in turn, had been visited before its turn. -/
def visitedBefore (graph : Graph) (bound : Nat) : List ExprId → Marks → List Bool
  | [], _ => []
  | root :: rest, marks =>
      (marks.lookup root).isSome ::
        visitedBefore graph bound rest (visit graph bound 0 marks root).marks

/-- Nodes entered, in order. -/
def entered : List Event → List ExprId
  | [] => []
  | .enter id _ :: rest => id :: entered rest
  | _ :: rest => entered rest

/-- Nodes left, in order. -/
def left : List Event → List ExprId
  | [] => []
  | .leave id _ _ :: rest => id :: left rest
  | _ :: rest => left rest

/-- The first node that is not in the graph. -/
def missing? : List Event → Option ExprId
  | [] => none
  | .missing id :: _ => some id
  | _ :: rest => missing? rest

/-- A value for every node left: `after` gets the values at the ends of its edges, nothing for an
    edge that closed a cycle. -/
def outputs {R : Type} (after : ExprId → List (Option R) → R) (known : List (ExprId × R)) :
    List Event → List (ExprId × R)
  | [] => known
  | .leave id _ edges :: rest =>
      let values := edges.map fun (child, closes) => if closes then none else known.lookup child
      outputs after ((id, after id values) :: known) rest
  | _ :: rest => outputs after known rest

end Walk

namespace Grammar

/-- Bound on the length of a path: every node, and one id outside the grammar. -/
def pathBound (g : Grammar) : Nat :=
  g.size + 1

/-- Events of a walk over `graph` from `roots`; meeting an id outside the graph is a crash. -/
def walkOver (g : Grammar) (graph : Walk.Graph) (roots : List ExprId) :
    Except Fault (List Walk.Event) :=
  let (events, _) := Walk.visitAll graph g.pathBound roots []
  match Walk.missing? events with
  | some id => .error (.crash (.noSuchExpr id))
  | none => .ok events

/-- Events of a walk over all children. -/
def walk (g : Grammar) (roots : List ExprId) : Except Fault (List Walk.Event) :=
  g.walkOver g.children? roots

/-- Root, rules and whitespace, where a walk over what is in use starts. -/
def entryPoints (g : Grammar) : List ExprId :=
  g.root.toList ++ g.ruleIds ++ g.whitespace.toList

/-- Nodes reachable from the root, the rules and the whitespace, in the order of visits. -/
def reachable (g : Grammar) : Except Fault (List ExprId) := do
  let events ← g.walk g.entryPoints
  return Walk.entered events

end Grammar

end Packrat
