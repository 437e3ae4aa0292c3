import Packrat.Walk

/-!
# Nullability: which expressions can match without consuming

Each shape says how its nullability follows from its children. An expression is evaluated once
its children have been walked. One that cannot be decided yet waits for its undecided children,
and deciding a child re-evaluates those that wait for it. What is undecided in the end, pure
recursion such as a sequence of itself, is not nullable.

* **`Shape.strategy`** — the rule of a shape.
* **`Strategy.decide?`** — what a rule decides from what is decided already.
* **`Nullability.Search.consider`** — evaluate an expression that is not decided yet.
* **`Nullability.Search.propagate`** — re-evaluate those that waited, until none is left to tell.
* **`Grammar.nullability`** — the analysis; a child outside the grammar is a crash.
-/

namespace Packrat

/-- How nullability follows from the children. -/
inductive Strategy where
  | yes
  | no
  /-- Nullable when every child is. -/
  | all (children : List ExprId)
  /-- Nullable when some child is. -/
  | any (children : List ExprId)
  /-- As the child. -/
  | single (child : ExprId)
deriving DecidableEq, Inhabited, Repr

/-- The nullability rule of a shape. -/
def Shape.strategy (s : Shape ExprId) : Strategy :=
  match s with
  | .literal text => if text = "" then .yes else .no
  | .any | .range _ _ | .set _ | .reference _ => .no
  | .optional _ | .zeroMore _ | .lookahead _ | .not _ => .yes
  | .sequence items => .all items
  | .choice items => .any items
  | .cluster _ => .any s.children
  | .oneMore e | .token e | .capture e _ | .leftRecursive e _ | .minPrecedence e _ => .single e
  | .custom spec items =>
      match spec.nullable with
      | .yes => .yes
      | .no => .no
      | .allChildren => .all items
      | .anyChild => .any items

/-- What a rule decides about its expression, given what is decided about others. -/
def Strategy.decide? (value? : ExprId → Option Bool) : Strategy → Option Bool
  | .yes => some true
  | .no => some false
  | .all children =>
      if children.any (value? · == some false) then some false
      else if children.all (value? · == some true) then some true
      else none
  | .any children =>
      if children.any (value? · == some true) then some true
      else if children.all (value? · == some false) then some false
      else none
  | .single child => value? child

/-- Nullability of every expression of a grammar. -/
structure Nullability where
  values : Array Bool
deriving DecidableEq, Inhabited

namespace Nullability

/-- Whether `id` is nullable; an id that was not analysed is not. -/
def isNullable (n : Nullability) (id : ExprId) : Bool :=
  n.values.getD id false

/-- Whether the analysis knows every expression of `g`. -/
def covers (n : Nullability) (g : Grammar) : Bool :=
  n.values.size == g.size

/-- Number of nullable expressions. -/
def count (n : Nullability) : Nat :=
  n.values.toList.countP (·)

/-- State of the analysis. -/
structure Search where
  /-- Nullability of the expressions decided so far. -/
  values : Array (Option Bool)
  /-- Who waits for an expression to be decided. -/
  waiters : Array (List ExprId)
  /-- Decided expressions whose waiters are still to be told, the latest first. -/
  untold : List ExprId
deriving DecidableEq, Inhabited

namespace Search

/-- Nothing is decided. -/
def initial (g : Grammar) : Search where
  values := Array.replicate g.size none
  waiters := Array.replicate g.size []
  untold := []

/-- What is decided about `id`. -/
def value? (s : Search) (id : ExprId) : Option Bool :=
  s.values.getD id none

/-- Who waits for `id`. -/
def waiting (s : Search) (id : ExprId) : List ExprId :=
  s.waiters.getD id []

/-- Let `id` wait for `child`, once, unless the child is decided. -/
def await (id : ExprId) (s : Search) (child : ExprId) : Search :=
  if (s.value? child).isSome || (s.waiting child).contains id then s
  else { s with waiters := s.waiters.setIfInBounds child (s.waiting child ++ [id]) }

/-- Settle what `id` is. -/
def settle (s : Search) (id : ExprId) (nullable : Bool) : Search :=
  { s with
    values := s.values.setIfInBounds id (some nullable)
    untold := id :: s.untold }

/-- Evaluate the rule of `id` unless it is decided; without a decision it waits for its undecided
    children. -/
def consider (g : Grammar) (s : Search) (id : ExprId) : Search :=
  if (s.value? id).isSome then s
  else
    match g.shape? id with
    | none => s
    | some shape =>
        match shape.strategy.decide? s.value? with
        | some nullable => s.settle id nullable
        | none => shape.children.foldl (await id) s

/-- Nobody waits for `id` any more. -/
def release (s : Search) (id : ExprId) (untold : List ExprId) : Search :=
  { s with waiters := s.waiters.setIfInBounds id [], untold }

/-- Tell the waiters of everything that was decided; they are evaluated again, and may be decided
    in turn. The first argument bounds how many expressions have their waiters told; each is
    decided once. -/
def propagate (g : Grammar) : Nat → Search → Search
  | 0, s => s
  | bound + 1, s =>
      match s.untold with
      | [] => s
      | id :: rest => propagate g bound ((s.waiting id).foldl (consider g) (s.release id rest))

/-- An expression whose children have been walked. -/
def leave (g : Grammar) (s : Search) (id : ExprId) : Search :=
  (s.consider g id).propagate g g.size

/-- What is not decided is not nullable. -/
def nullability (s : Search) : Nullability :=
  ⟨s.values.map (·.getD false)⟩

end Search

end Nullability

namespace Grammar

/-- Which expressions are nullable. -/
def nullability (g : Grammar) : Except Fault Nullability := do
  let events ← g.walk g.ids
  return ((Walk.left events).foldl (Nullability.Search.leave g) (.initial g)).nullability

/-- The nullable expressions in id order. -/
def nullableIds (g : Grammar) (n : Nullability) : List ExprId :=
  g.ids.filter n.isNullable

end Grammar

end Packrat
