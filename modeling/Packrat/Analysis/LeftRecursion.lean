import Packrat.Walk
import Packrat.Analysis.Nullability

/-!
# Left recursion: cycles through first positions

A child stands in first position if it may be matched where its parent starts: for a sequence the
items up to the first that is not nullable, otherwise every child. A cycle of such edges without a
boundary on it would recurse forever at one position. A walk over these edges selects a node of
each such cycle, the one where the cycle closes; breaking left recursion wraps the selected nodes
in left-recursive boundaries.

* **`Grammar.firsts`** — the children in first position.
* **`Detection`** — boundaries on the current path, by depth, and the nodes selected.
* **`Grammar.detectLeftRecursion`** — the nodes to wrap.
* **`Grammar.breakLeftRecursion`** — wrap them.
-/

namespace Packrat

/-- How left recursion is treated by preparation. -/
structure LeftRecursionOptions where
  /-- Wrap a node of each cycle; otherwise cycles are errors. -/
  inPlace : Bool := true
  /-- Associativity of the inserted boundaries. -/
  leftAssociative : Bool := false
deriving DecidableEq, Inhabited, Repr

/-- Items up to and including the first that is not nullable. -/
def upToFirstSolid (nullable : ExprId → Bool) : List ExprId → List ExprId
  | [] => []
  | item :: rest => if nullable item then item :: upToFirstSolid nullable rest else [item]

/-- Children of a shape in first position. -/
def Shape.firsts (nullable : ExprId → Bool) (s : Shape ExprId) : List ExprId :=
  match s with
  | .sequence items => upToFirstSolid nullable items
  | _ => s.children

/-- State of the search for cycles. -/
structure Detection where
  /-- Depths of the boundaries on the path, and of nodes selected on it. -/
  boundaries : List Nat := []
  /-- Nodes selected, the latest first. -/
  selected : List ExprId := []
deriving DecidableEq, Inhabited, Repr

namespace Detection

/-- Mark a depth of the path as broken. -/
def addBoundary (d : Detection) (depth : Nat) : Detection :=
  { d with boundaries := depth :: d.boundaries }

/-- A cycle closes on `id` at a depth: it is broken by a boundary there or deeper, else `id` is
    selected and becomes one. -/
def close (d : Detection) (id : ExprId) (depth : Nat) : Detection :=
  if d.boundaries.any (depth ≤ ·) then d
  else
    let d := d.addBoundary depth
    if d.selected.contains id then d else { d with selected := id :: d.selected }

/-- Follow one event of the walk. -/
def observe (isBoundary : ExprId → Bool) (d : Detection) : Walk.Event → Detection
  | .enter id depth => if isBoundary id then d.addBoundary depth else d
  | .cutoff _ child depth => d.close child depth
  | .leave _ depth _ => { d with boundaries := d.boundaries.filter (· ≠ depth) }
  | _ => d

end Detection

namespace Grammar

/-- The children of each node that may be matched where the node starts. -/
def firsts? (g : Grammar) (n : Nullability) : Walk.Graph := fun id =>
  (g.shape? id).map (Shape.firsts n.isNullable)

/-- The children of `id` that may be matched where it starts. -/
def firsts (g : Grammar) (n : Nullability) (id : ExprId) : Except Fault (List ExprId) :=
  match g.firsts? n id with
  | some children => .ok children
  | none => .error (.crash (.noSuchExpr id))

/-- Whether `id` is a recursion boundary. -/
def isBoundary (g : Grammar) (id : ExprId) : Bool :=
  (g.shape? id).any Shape.isBoundary

/-- Nodes that must become boundaries to break every cycle of first positions. The search starts
    at the root, goes on to the rules and then to every node, so its choice is determined. -/
def detectLeftRecursion (g : Grammar) (n : Nullability) : Except Fault (List ExprId) := do
  let events ← g.walkOver (g.firsts? n) (g.root.toList ++ g.ruleIds ++ g.ids)
  return (events.foldl (Detection.observe g.isBoundary) {}).selected.reverse

/-- Wrap nodes into left-recursive boundaries. -/
def wrapAll (leftAssociative : Bool) : List ExprId → Edit Unit
  | [] => pure ()
  | id :: rest => do
      let _ ← wrapInPlace id (.leftRecursive · leftAssociative)
      wrapAll leftAssociative rest

/-- Wrap a node of every cycle of first positions; returns the wrapped ids. The analysis `n` does
    not know the new nodes. -/
def breakLeftRecursion (n : Nullability) (options : LeftRecursionOptions) : Edit (List ExprId) := do
  let selected ← Edit.reading (·.detectLeftRecursion n)
  wrapAll options.leftAssociative selected
  return selected

end Grammar

end Packrat
