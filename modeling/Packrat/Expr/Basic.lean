import Packrat.Expr.Program

/-!
# Parsing expressions

An expression has a shape over its children. In a grammar the children are ids, in a term they
are terms, so the shape is a type constructor `Shape α` with `map` and `children`.

* **`Shape`** — the eighteen forms of an expression.
* **`Shape.children`** — the ordered children; those of a cluster are the alternatives of its
  groups, group after group.
* **`Shape.setChild?`** — the shape with one child replaced.
* **`Expr`** — a node of a grammar: optional name, shape and flags.
-/

namespace Packrat

/-- Hints for the engine. -/
structure Flags where
  /-- Failures are reported. -/
  recordErrors : Bool := false
  /-- Outcomes are memoized when only rules are. -/
  memoize : Bool := false
deriving DecidableEq, Inhabited, Repr

namespace Flags

/-- The flags of a rule. -/
def rule : Flags := { recordErrors := true, memoize := true }

/-- Flags set in either operand. -/
def union (a b : Flags) : Flags :=
  { recordErrors := a.recordErrors || b.recordErrors, memoize := a.memoize || b.memoize }

end Flags

/-- Associativity of a precedence group. -/
inductive GroupKind where
  /-- Alternatives are tried once. -/
  | once
  /-- The level grows; right operands may recurse into the same level. -/
  | leftRecursive
  /-- The level grows; right operands bind tighter. -/
  | leftAssociative
deriving DecidableEq, Inhabited, Repr

/-- Whether a level takes part in seed growing. -/
def GroupKind.grows : GroupKind → Bool
  | .once => false
  | .leftRecursive | .leftAssociative => true

/-- One precedence level of a cluster. -/
structure Group (α : Type) where
  precedence : Precedence
  kind : GroupKind
  alternatives : List α

/-- The form of an expression over children of type `α`. -/
inductive Shape (α : Type) where
  /-- An exact string. -/
  | literal (text : String)
  /-- Any single character. -/
  | any
  /-- One character of an inclusive range. -/
  | range (lo hi : Char)
  /-- One character of a set. -/
  | set (members : List Char)
  | sequence (items : List α)
  /-- Ordered choice: the first success wins. -/
  | choice (items : List α)
  | optional (operand : α)
  | zeroMore (operand : α)
  | oneMore (operand : α)
  | lookahead (operand : α)
  | not (operand : α)
  /-- The operand followed by the whitespace of the grammar. -/
  | token (operand : α)
  | capture (operand : α) (mode : CaptureMode)
  /-- A boundary at which left recursion grows a seed. -/
  | leftRecursive (operand : α) (leftAssociative : Bool)
  /-- Precedence levels. -/
  | cluster (groups : List (Group α))
  /-- The operand with every precedence floor replaced. -/
  | minPrecedence (operand : α) (floor : Precedence)
  /-- A rule named but not yet resolved. -/
  | reference (name : String)
  | custom (spec : Custom) (children : List α)

namespace Shape

variable {α β : Type}

/-- Short name of the form. -/
def kindName : Shape α → String
  | .literal _ => "literal"
  | .any => "any"
  | .range _ _ => "char range"
  | .set _ => "char set"
  | .sequence _ => "sequence"
  | .choice _ => "choice"
  | .optional _ => "optional"
  | .zeroMore _ => "zero or more"
  | .oneMore _ => "one or more"
  | .lookahead _ => "lookahead"
  | .not _ => "not"
  | .token _ => "token"
  | .capture _ _ => "capture"
  | .leftRecursive _ _ => "left recursive"
  | .cluster _ => "cluster"
  | .minPrecedence _ _ => "with min precedence"
  | .reference _ => "reference"
  | .custom _ _ => "custom"

/-- Whether left recursion may pass through the expression. -/
def isBoundary : Shape α → Bool
  | .leftRecursive _ _ | .cluster _ => true
  | _ => false

/-- Whether the expression is decided by one look at the characters. -/
def isTerminal : Shape α → Bool
  | .literal _ | .any | .range _ _ | .set _ => true
  | _ => false

/-- Whether the expression still names a rule. -/
def isReference : Shape α → Bool
  | .reference _ => true
  | _ => false

/-- Terminals and tokens report their failures unless told otherwise. -/
def defaultFlags (s : Shape α) : Flags :=
  match s with
  | .token _ => { recordErrors := true }
  | _ => { recordErrors := s.isTerminal }

/-- Ordered children. -/
def children : Shape α → List α
  | .literal _ | .any | .range _ _ | .set _ | .reference _ => []
  | .sequence items | .choice items | .custom _ items => items
  | .optional e | .zeroMore e | .oneMore e | .lookahead e | .not e | .token e => [e]
  | .capture e _ | .leftRecursive e _ | .minPrecedence e _ => [e]
  | .cluster groups => groups.flatMap Group.alternatives

end Shape

/-- A group with every alternative replaced by its image. -/
def Group.map {α β : Type} (f : α → β) (g : Group α) : Group β :=
  { precedence := g.precedence, kind := g.kind, alternatives := g.alternatives.map f }

/-- Groups with the child at `index`, counted over all of them, replaced. -/
def Group.setChild? {α : Type} : List (Group α) → Nat → α → Option (List (Group α))
  | [], _, _ => none
  | g :: groups, index, child =>
      if index < g.alternatives.length then
        some ({ g with alternatives := g.alternatives.set index child } :: groups)
      else
        (Group.setChild? groups (index - g.alternatives.length) child).map (g :: ·)

/-- A list with the element at `index` replaced, if there is one. -/
def setItem? {α : Type} (items : List α) (index : Nat) (item : α) : Option (List α) :=
  if index < items.length then some (items.set index item) else none

namespace Shape

variable {α β : Type}

/-- The shape with every child replaced by its image. -/
def map (f : α → β) : Shape α → Shape β
  | .literal text => .literal text
  | .any => .any
  | .range lo hi => .range lo hi
  | .set members => .set members
  | .sequence items => .sequence (items.map f)
  | .choice items => .choice (items.map f)
  | .optional e => .optional (f e)
  | .zeroMore e => .zeroMore (f e)
  | .oneMore e => .oneMore (f e)
  | .lookahead e => .lookahead (f e)
  | .not e => .not (f e)
  | .token e => .token (f e)
  | .capture e mode => .capture (f e) mode
  | .leftRecursive e assoc => .leftRecursive (f e) assoc
  | .cluster groups => .cluster (groups.map (Group.map f))
  | .minPrecedence e floor => .minPrecedence (f e) floor
  | .reference name => .reference name
  | .custom spec items => .custom spec (items.map f)

/-- The shape with the child at `index` replaced, if it has one there. -/
def setChild? (s : Shape α) (index : Nat) (child : α) : Option (Shape α) :=
  match s with
  | .literal _ | .any | .range _ _ | .set _ | .reference _ => none
  | .sequence items => (setItem? items index child).map .sequence
  | .choice items => (setItem? items index child).map .choice
  | .custom spec items => (setItem? items index child).map (.custom spec)
  | .optional _ => if index = 0 then some (.optional child) else none
  | .zeroMore _ => if index = 0 then some (.zeroMore child) else none
  | .oneMore _ => if index = 0 then some (.oneMore child) else none
  | .lookahead _ => if index = 0 then some (.lookahead child) else none
  | .not _ => if index = 0 then some (.not child) else none
  | .token _ => if index = 0 then some (.token child) else none
  | .capture _ mode => if index = 0 then some (.capture child mode) else none
  | .leftRecursive _ assoc => if index = 0 then some (.leftRecursive child assoc) else none
  | .minPrecedence _ floor => if index = 0 then some (.minPrecedence child floor) else none
  | .cluster groups => (Group.setChild? groups index child).map .cluster

end Shape

/-- A node of a grammar. -/
structure Expr where
  name : Option String := none
  shape : Shape ExprId
  flags : Flags

/-- An unnamed node with the flags its shape has by default. -/
def Expr.ofShape (shape : Shape ExprId) : Expr :=
  { shape, flags := shape.defaultFlags }

end Packrat
