import Packrat.Grammar.Basic

/-!
# Terms: expressions written as trees

A term is a shape whose children are terms, or an expression that is already in the grammar.
Inserting a term allocates the children from left to right and then the node itself, so every new
child has a smaller id than its parent. The groups of a cluster are stored by decreasing
precedence, in their given order where precedences are equal.

* **`Term`** — the trees, with a constructor function for each form.
* **`Term.insert`** — a term laid out in a grammar.
-/

namespace Packrat

/-- An expression tree over a grammar. -/
inductive Term where
  /-- An expression that is in the grammar. -/
  | existing (id : ExprId)
  | node (shape : Shape Term)

-- ── Writing terms ────────────────────────────────────────────────────────────────

namespace Term

/-- An exact string. -/
def lit (text : String) : Term := .node (.literal text)

/-- One character of an inclusive range. -/
def range (lo hi : Char) : Term := .node (.range lo hi)

/-- One character of a set. -/
def set (members : String) : Term := .node (.set members.toList)

/-- All items in order. -/
def seq (items : List Term) : Term := .node (.sequence items)

/-- The first item that matches. -/
def choice (items : List Term) : Term := .node (.choice items)

/-- Any number of matches. -/
def star (t : Term) : Term := .node (.zeroMore t)

/-- At least one match. -/
def plus (t : Term) : Term := .node (.oneMore t)

/-- A rule by name. -/
def rule (name : String) : Term := .node (.reference name)

/-- The term followed by the whitespace of the grammar. -/
def token (t : Term) : Term := .node (.token t)

/-- A captured node that keeps its text. -/
def text (t : Term) (accessor : String) : Term := .node (.capture t (.text accessor))

/-- A captured node around what the term captures. -/
def captured (t : Term) (accessor : String) : Term := .node (.capture t (.node accessor))

/-- Precedence levels. -/
def cluster (groups : List (Group Term)) : Term := .node (.cluster groups)

/-- The term with every precedence floor reset, as inside parentheses. -/
def dropPrecedence (t : Term) : Term := .node (.minPrecedence t 0)

end Term

-- ── Order of groups ──────────────────────────────────────────────────────────────

/-- Insert a group before the first group of lower or equal precedence. -/
def Group.insert {α : Type} (g : Group α) : List (Group α) → List (Group α)
  | [] => [g]
  | h :: rest => if g.precedence < h.precedence then h :: Group.insert g rest else g :: h :: rest

/-- Groups by decreasing precedence; equal ones keep their order. -/
def Group.sort {α : Type} (groups : List (Group α)) : List (Group α) :=
  groups.foldr Group.insert []

-- ── Laying out terms ─────────────────────────────────────────────────────────────

namespace Term

mutual

/-- Lay out a term and return the id of its node. -/
def insert : Term → StateM Grammar ExprId
  | .existing id, g => (id, g)
  | .node shape, g =>
      let (laid, g) := insertShape shape g
      g.add laid

/-- Lay out the children of a shape. -/
def insertShape : Shape Term → StateM Grammar (Shape ExprId)
  | .literal text, g => (.literal text, g)
  | .any, g => (.any, g)
  | .range lo hi, g => (.range lo hi, g)
  | .set members, g => (.set members, g)
  | .sequence items, g => let (ids, g) := insertAll items g; (.sequence ids, g)
  | .choice items, g => let (ids, g) := insertAll items g; (.choice ids, g)
  | .optional t, g => let (id, g) := t.insert g; (.optional id, g)
  | .zeroMore t, g => let (id, g) := t.insert g; (.zeroMore id, g)
  | .oneMore t, g => let (id, g) := t.insert g; (.oneMore id, g)
  | .lookahead t, g => let (id, g) := t.insert g; (.lookahead id, g)
  | .not t, g => let (id, g) := t.insert g; (.not id, g)
  | .token t, g => let (id, g) := t.insert g; (.token id, g)
  | .capture t mode, g => let (id, g) := t.insert g; (.capture id mode, g)
  | .leftRecursive t assoc, g => let (id, g) := t.insert g; (.leftRecursive id assoc, g)
  | .cluster groups, g =>
      let (laid, g) := insertGroups groups g
      (.cluster (Group.sort laid), g)
  | .minPrecedence t floor, g => let (id, g) := t.insert g; (.minPrecedence id floor, g)
  | .reference name, g => (.reference name, g)
  | .custom spec items, g => let (ids, g) := insertAll items g; (.custom spec ids, g)

/-- Lay out terms from left to right. -/
def insertAll : List Term → StateM Grammar (List ExprId)
  | [], g => ([], g)
  | t :: rest, g =>
      let (id, g) := t.insert g
      let (ids, g) := insertAll rest g
      (id :: ids, g)

/-- Lay out the alternatives of a group. -/
def insertGroup : Group Term → StateM Grammar (Group ExprId)
  | ⟨precedence, kind, alternatives⟩, g =>
      let (ids, g) := insertAll alternatives g
      ({ precedence, kind, alternatives := ids }, g)

/-- Lay out groups in the order in which they are written. -/
def insertGroups : List (Group Term) → StateM Grammar (List (Group ExprId))
  | [], g => ([], g)
  | group :: rest, g =>
      let (laid, g) := insertGroup group g
      let (others, g) := insertGroups rest g
      (laid :: others, g)

end

end Term

end Packrat
