import Packrat.Walk
import Packrat.Analysis.Nullability

/-!
# Metrics: size and shape of a grammar

* **`Metrics`** — counts over the grammar and over what is reachable.
* **`Grammar.metrics`**, **`Metrics.summary`** — the counts and their one-line text.
-/

namespace Packrat

/-- Size and shape of a grammar. -/
structure Metrics where
  expressions : Nat
  reachable : Nat
  rules : Nat
  /-- Rules that are nullable. -/
  nullable : Nat
  /-- Reachable left-recursive boundaries. -/
  leftRecursive : Nat
  /-- Reachable clusters. -/
  clusters : Nat
  /-- Nesting below the root, not following cycles. -/
  depth : Nat
deriving DecidableEq, Inhabited, Repr

/-- Nesting of a node over the nestings of its children. -/
def nestingAfter (_ : ExprId) (below : List (Option Nat)) : Nat :=
  1 + (below.filterMap id).foldl max 0

namespace Grammar

/-- Whether `id` is a left-recursive boundary. -/
def isLeftRecursive (g : Grammar) (id : ExprId) : Bool :=
  match g.shape? id with
  | some (.leftRecursive _ _) => true
  | _ => false

/-- Whether `id` is a cluster. -/
def isCluster (g : Grammar) (id : ExprId) : Bool :=
  match g.shape? id with
  | some (.cluster _) => true
  | _ => false

/-- Nesting below `root`. -/
def nesting (g : Grammar) (root : ExprId) : Except Fault Nat := do
  let events ← g.walk [root]
  return ((Walk.outputs nestingAfter [] events).lookup root).getD 0

/-- Measure a grammar. -/
def metrics (g : Grammar) : Except Fault Metrics := do
  let n ← g.nullability
  let reachable ← g.reachable
  let depth ←
    match g.root with
    | none => pure 0
    | some root => g.nesting root
  return {
    expressions := g.size
    reachable := reachable.length
    rules := g.rules.length
    nullable := g.ruleIds.countP n.isNullable
    leftRecursive := reachable.countP g.isLeftRecursive
    clusters := reachable.countP g.isCluster
    depth }

end Grammar

/-- One-line text of the measures. -/
def Metrics.summary (m : Metrics) : String :=
  s!"Grammar summary: {m.rules} rules, {m.expressions} expressions ({m.reachable} reachable), " ++
    s!"max depth {m.depth}, {m.nullable} nullable, {m.leftRecursive} left-recursive, " ++
    s!"{m.clusters} clusters"

end Packrat
