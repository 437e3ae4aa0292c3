import Packrat.Grammar.Basic

/-!
# Copies of a sub-graph

A copy duplicates every node reachable from a root, once each, and maps cycles onto copied cycles.
Shared nodes, and all that is only below them, are referred to and not duplicated. Copies keep
names and flags and are no rules.

A node is duplicated when it is met, before its children, and its duplicate is redirected to the
duplicates of the children once these are there. Meeting an id outside the grammar is a crash that
leaves behind what was copied until then.

* **`Grammar.deepCopySharing`**, **`Grammar.deepCopy`** — the id of the copied root.
-/

namespace Packrat.Grammar

/-- Duplicates made so far: each node met with the id of its duplicate, the latest first. -/
abbrev Copies := List (ExprId × ExprId)

/-- What stands for a node in the copy: its duplicate, or the node itself if it is shared. -/
def Copies.target (copies : Copies) (id : ExprId) : ExprId :=
  (copies.lookup id).getD id

/-- Redirect the children of the node `copy`, counted from `index`. -/
def redirect (copy : ExprId) : Nat → List ExprId → Grammar → Grammar
  | _, [], g => g
  | index, target :: rest, g =>
      match replaceChild copy index target g with
      | .ok _ g | .error _ g => redirect copy (index + 1) rest g

/-- Copy the children of a node in order. -/
def copyEach (copyChild : ExprId → Copies → Edit Copies) : List ExprId → Copies → Edit Copies
  | [], copies => pure copies
  | child :: rest, copies => do
      let copies ← copyChild child copies
      copyEach copyChild rest copies

/-- Copy a node that is neither shared nor copied, and what is below it. The first argument
    bounds the length of the path to come. -/
def copyFrom (shared : List ExprId) : Nat → ExprId → Copies → Edit Copies
  | 0, id, _ => throw (.crash (.noSuchExpr id))
  | bound + 1, id, copies =>
      if shared.contains id || (copies.lookup id).isSome then pure copies
      else do
        let e ← Edit.reading (·.node id)
        let copy ← modifyGet (·.push e)
        let copies ← copyEach (copyFrom shared bound) e.shape.children ((id, copy) :: copies)
        modify (redirect copy 0 (e.shape.children.map copies.target))
        return copies

/-- Number of edges of the grammar. -/
def edgeCount (g : Grammar) : Nat :=
  (g.nodes.toList.flatMap fun e => e.shape.children).length

/-- Copy what is reachable from `root` without passing through `shared`; returns the copy of
    `root`, or `root` itself if it is shared. -/
def deepCopySharing (root : ExprId) (shared : List ExprId) : Edit ExprId := do
  let g ← get
  let copies ← copyFrom shared (2 * (g.size + g.edgeCount) + 2) root []
  return copies.target root

/-- Copy everything reachable from `root`. -/
def deepCopy (root : ExprId) : Edit ExprId :=
  deepCopySharing root []

end Packrat.Grammar
