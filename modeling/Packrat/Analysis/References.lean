import Packrat.Walk

/-!
# References: edges to rules by name become edges to nodes

A reference names a rule, or a named node if no rule has that name; of several named nodes the one
that a walk over the grammar meets first counts. A chain of references is followed up to a limit,
which also ends a circle of references. Every target is found before anything is changed, so a
name that leads nowhere leaves the grammar as it is.

* **`Grammar.nameTable`** — what each name stands for.
* **`Grammar.referenceTarget`** — the node at the end of a chain of references.
* **`Grammar.resolveReferences`** — redirect every edge and entry point, counting the edges.
-/

namespace Packrat.Grammar

/-- Names of the rules, then names of the nodes in the order in which they are met. -/
def nameTable (g : Grammar) (events : List Walk.Event) : List (String × ExprId) :=
  g.sortedRules ++ (Walk.entered events).filterMap fun id =>
    (g.node? id).bind fun e => e.name.map (·, id)

/-- Whether `id` is a reference. -/
def isReference (g : Grammar) (id : ExprId) : Bool :=
  (g.shape? id).any Shape.isReference

/-- Edges that lead to a reference, as parent, index and child. -/
def referenceEdges (g : Grammar) : List Walk.Event → List (ExprId × Nat × ExprId)
  | [] => []
  | .edge parent index child :: rest =>
      if g.isReference child then (parent, index, child) :: g.referenceEdges rest
      else g.referenceEdges rest
  | _ :: rest => g.referenceEdges rest

/-- Follow references from `id` for at most `hops` further steps; `first` and `limit` describe the
    chain if it is too long. -/
def followReference (g : Grammar) (names : List (String × ExprId)) (first : String) (limit : Nat) :
    Nat → ExprId → Except Fault ExprId
  | hops, id =>
      match g.shape? id with
      | none => .error (.crash (.noSuchExpr id))
      | some (.reference name) =>
          match hops with
          | 0 => .error (.grammar (.referenceChainTooLong first limit))
          | hops + 1 =>
              match names.lookup name with
              | none => .error (.grammar (.unresolvedReference name))
              | some next => g.followReference names first limit hops next
      | some _ => .ok id

/-- The node that `id` leads to through references. -/
def referenceTarget (g : Grammar) (names : List (String × ExprId)) (limit : Nat) (id : ExprId) :
    Except Fault ExprId :=
  let first :=
    match g.shape? id with
    | some (.reference name) => name
    | _ => ""
  g.followReference names first limit limit id

/-- Redirect edges to the given targets. -/
def redirectEdges : List (ExprId × Nat × ExprId) → Edit Unit
  | [] => pure ()
  | (parent, index, target) :: rest => do
      replaceChild parent index target
      redirectEdges rest

/-- Redirect every edge to a reference, and every rule, root and whitespace that is one, to the
    node that the reference leads to. Returns the number of edges. -/
def resolveReferences (limit : Nat) : Edit Nat := do
  let g ← get
  let events ← Edit.reading fun g => g.walk g.ids
  let names := g.nameTable events
  let edges := g.referenceEdges events
  let redirections ← Edit.reading fun g => edges.mapM fun (parent, index, child) => do
    return (parent, index, ← g.referenceTarget names limit child)
  let entries ← Edit.reading fun g =>
    (g.ruleIds ++ g.root.toList ++ g.whitespace.toList).mapM fun id => do
      return (id, ← g.referenceTarget names limit id)
  redirectEdges redirections
  modify (·.repoint fun id => (entries.lookup id).getD id)
  return edges.length

end Packrat.Grammar
