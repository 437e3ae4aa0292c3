import Packrat.Fault

/-!
# Grammars: an arena of expressions and a table of rules

Nodes refer to each other by id, so sharing and recursion are id reuse. A grammar is marked as
prepared once preparation has checked it; an edit that may change it clears the mark.

Edits that can fail are programs of **`Edit`**: they keep whatever they changed before a fault,
so a list of edits goes on from there.

* **`Grammar.push`**, **`Grammar.add`** — new nodes at the end of the arena.
* **`Grammar.modifyNode`**, **`Grammar.replaceChild`**, **`Grammar.wrapInPlace`** — changes to
  nodes that are there.
* **`Grammar.defineRule`**, **`Grammar.sortedRules`** — the rule table.
-/

namespace Packrat

/-- Arena of expressions with the rule table and the two entry points of a parse. -/
structure Grammar where
  nodes : Array Expr := #[]
  /-- Rules in the order of their definition; no name occurs twice. -/
  rules : List (String × ExprId) := []
  root : Option ExprId := none
  /-- Expression skipped after every token. -/
  whitespace : Option ExprId := none
  prepared : Bool := false
deriving Inhabited

/-- Programs that edit a grammar and keep what they did when they fail. -/
abbrev Edit := EStateM Fault Grammar

/-- An analysis of the grammar, as an edit that changes nothing. -/
def Edit.reading {α : Type} (f : Grammar → Except Fault α) : Edit α := fun g =>
  match f g with
  | .ok a => .ok a g
  | .error e => .error e g

namespace Grammar

-- ── Reading ──────────────────────────────────────────────────────────────────────

/-- Number of expressions. -/
def size (g : Grammar) : Nat :=
  g.nodes.size

/-- Every id, in the order of allocation. -/
def ids (g : Grammar) : List ExprId :=
  List.range g.size

/-- The node at `id`, if there is one. -/
def node? (g : Grammar) (id : ExprId) : Option Expr :=
  g.nodes[id]?

/-- The shape of the node at `id`, if there is one. -/
def shape? (g : Grammar) (id : ExprId) : Option (Shape ExprId) :=
  (g.node? id).map Expr.shape

/-- The children of the node at `id`, if there is one. -/
def children? (g : Grammar) (id : ExprId) : Option (List ExprId) :=
  (g.shape? id).map Shape.children

/-- The node at `id`; an id outside the grammar is a crash. -/
def node (g : Grammar) (id : ExprId) : Except Fault Expr :=
  match g.node? id with
  | some e => .ok e
  | none => .error (.crash (.noSuchExpr id))

/-- The expression that the rule `name` stands for. -/
def rule? (g : Grammar) (name : String) : Option ExprId :=
  g.rules.lookup name

-- ── Rules in id order ────────────────────────────────────────────────────────────

/-- Rules are listed by id, and by name where two rules share one. -/
def rulePrecedes (a b : String × ExprId) : Bool :=
  decide (a.2 < b.2) || (a.2 == b.2 && decide (a.1 < b.1))

/-- Insert a rule into an ordered list of rules. -/
def insertRule (r : String × ExprId) : List (String × ExprId) → List (String × ExprId)
  | [] => [r]
  | s :: rest => if rulePrecedes s r then s :: insertRule r rest else r :: s :: rest

/-- The rules in id order. -/
def sortedRules (g : Grammar) : List (String × ExprId) :=
  g.rules.foldr insertRule []

/-- The ids of the rules, in order. -/
def ruleIds (g : Grammar) : List ExprId :=
  g.sortedRules.map Prod.snd

-- ── Growing ──────────────────────────────────────────────────────────────────────

/-- Append a node and return its id. -/
def push (g : Grammar) (e : Expr) : ExprId × Grammar :=
  (g.size, { g with nodes := g.nodes.push e, prepared := false })

/-- Append an unnamed node of the given shape and return its id. -/
def add (g : Grammar) (shape : Shape ExprId) : ExprId × Grammar :=
  g.push (Expr.ofShape shape)

-- ── Changing nodes ───────────────────────────────────────────────────────────────

/-- Apply `f` to the node at `id`. The prepared mark is gone even if there is no such node. -/
def modifyNode (id : ExprId) (f : Expr → Expr) : Edit Unit := fun g =>
  let g := { g with prepared := false }
  match g.node? id with
  | some e => .ok () { g with nodes := g.nodes.setIfInBounds id (f e) }
  | none => .error (.crash (.noSuchExpr id)) g

/-- Replace the child at `index` of `parent`. -/
def replaceChild (parent : ExprId) (index : Nat) (child : ExprId) : Edit Unit := fun g =>
  match g.node? parent with
  | none => .error (.grammar (.noSuchChild index parent)) g
  | some e =>
      match e.shape.setChild? index child with
      | none => .error (.grammar (.noSuchChild index parent)) g
      | some shape =>
          .ok () { g with
            nodes := g.nodes.setIfInBounds parent { e with shape }
            prepared := false }

/-- Move the node at `id` to a fresh id and leave `wrap` of that id in its place.

    Whoever pointed at `id` now points at the wrapper, which keeps the name and the flags; the
    moved node is unnamed and has the flags of its shape. Returns the id of the moved node. -/
def wrapInPlace (id : ExprId) (wrap : ExprId → Shape ExprId) : Edit ExprId := fun g =>
  match g.node? id with
  | none => .error (.crash (.noSuchExpr id)) g
  | some e =>
      let (inner, g) := g.push (Expr.ofShape e.shape)
      let shape := wrap inner
      let wrapper : Expr :=
        { name := e.name, shape, flags := e.flags.union shape.defaultFlags }
      .ok inner { g with nodes := g.nodes.setIfInBounds id wrapper }

-- ── Rules and entry points ───────────────────────────────────────────────────────

/-- A rule table with `name` standing for `id`. -/
def setRule (name : String) (id : ExprId) : List (String × ExprId) → List (String × ExprId)
  | [] => [(name, id)]
  | (n, i) :: rest => if n = name then (n, id) :: rest else (n, i) :: setRule name id rest

/-- Make `id` the rule `name`: it is named, reports its failures and is memoized. A name that
    stands for another expression is refused. -/
def defineRule (name : String) (id : ExprId) : Edit ExprId := fun g =>
  if (g.rule? name).any (· ≠ id) then
    .error (.grammar (.duplicateRule name)) g
  else
    match modifyNode id (fun e => { e with name := some name, flags := e.flags.union .rule }) g with
    | .ok _ g => .ok id { g with rules := setRule name id g.rules }
    | .error e g => .error e g

/-- Make `id` the expression that a parse matches. -/
def setRoot (g : Grammar) (id : ExprId) : Grammar :=
  { g with root := some id, prepared := false }

/-- Make `id` the expression skipped after tokens. -/
def setWhitespace (g : Grammar) (id : ExprId) : Grammar :=
  { g with whitespace := some id, prepared := false }

/-- Send rules, root and whitespace to their images. -/
def repoint (g : Grammar) (f : ExprId → ExprId) : Grammar :=
  { g with
    rules := g.rules.map fun (name, id) => (name, f id)
    root := g.root.map f
    whitespace := g.whitespace.map f }

end Grammar

end Packrat
