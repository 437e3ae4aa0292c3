import Packrat.Text
import Packrat.Walk

/-!
# Fast path: matching characters without a parse state

Whitespace after a token is skipped without captures, memoization or error records. Only forms
that need none of these have a fast path; the others never match on it.

The match re-enters the same expression at the same position only if it never ends, so nesting is
bounded by the number of expressions times the number of positions left.

* **`Grammar.fastPathCulprit`** — the first expression without a fast path, if any.
* **`Grammar.skip`** — the position after a fast match.
-/

namespace Packrat

/-- Whether a form can be matched on the fast path. -/
def Shape.hasFastPath {α : Type} : Shape α → Bool
  | .token _ | .leftRecursive _ _ | .cluster _ | .reference _ | .custom _ _ => false
  | _ => true

namespace FastPath

/-- Match `step` until it fails or stays in place, at most the given number of times. -/
def repeated (step : Nat → Except Fault (Option Nat)) : Nat → Nat → Except Fault Nat
  | 0, position => .ok position
  | rounds + 1, position => do
      match ← step position with
      | none => return position
      | some stop => if stop = position then return position else repeated step rounds stop

/-- Match items one after the other. -/
def inOrder (step : ExprId → Nat → Except Fault (Option Nat)) :
    List ExprId → Nat → Except Fault (Option Nat)
  | [], position => .ok (some position)
  | item :: rest, position => do
      match ← step item position with
      | none => return none
      | some stop => inOrder step rest stop

/-- Match the first item that matches. -/
def firstOf (step : ExprId → Nat → Except Fault (Option Nat)) :
    List ExprId → Nat → Except Fault (Option Nat)
  | [], _ => .ok none
  | item :: rest, position => do
      match ← step item position with
      | some stop => return some stop
      | none => firstOf step rest position

/-- Match one shape, matching its children with `step`. -/
def matchShape (text : Text) (step : ExprId → Nat → Except Fault (Option Nat))
    (shape : Shape ExprId) (position : Nat) : Except Fault (Option Nat) :=
  match shape with
  | .literal literal => .ok (text.matchLiteral position literal)
  | .any => .ok (text.matchOne position fun _ => true)
  | .range lo hi => .ok (text.matchOne position fun c => lo ≤ c && c ≤ hi)
  | .set members => .ok (text.matchOne position members.contains)
  | .sequence items => inOrder step items position
  | .choice items => firstOf step items position
  | .optional e => do return some ((← step e position).getD position)
  | .zeroMore e => do return some (← repeated (step e) (text.length - position + 1) position)
  | .oneMore e => do
      match ← step e position with
      | none => return none
      | some stop => return some (← repeated (step e) (text.length - stop + 1) stop)
  | .lookahead e => do return (← step e position).map fun _ => position
  | .not e => do return if (← step e position).isSome then none else some position
  | .capture e _ | .minPrecedence e _ => step e position
  | .token _ | .leftRecursive _ _ | .cluster _ | .reference _ | .custom _ _ => .ok none

end FastPath

namespace Grammar

/-- Fast match with at most the given nesting. -/
def skipWithin (g : Grammar) (text : Text) : Nat → ExprId → Nat → Except Fault (Option Nat)
  | 0, id, _ => .error (.crash (.endlessSkip id))
  | nesting + 1, id, position =>
      match g.shape? id with
      | none => .error (.crash (.noSuchExpr id))
      | some shape => FastPath.matchShape text (g.skipWithin text nesting) shape position

/-- Position after a fast match of `id` at `position`, nothing if it does not match. -/
def skip (g : Grammar) (text : Text) (id : ExprId) (position : Nat) : Except Fault (Option Nat) :=
  g.skipWithin text ((text.length - position + 1) * g.size + 1) id position

/-- Whether `id` has a fast path. -/
def hasFastPath (g : Grammar) (id : ExprId) : Bool :=
  (g.shape? id).any Shape.hasFastPath

/-- The first expression below `id` without a fast path. -/
def fastPathCulprit (g : Grammar) (id : ExprId) : Except Fault (Option ExprId) := do
  let events ← g.walk [id]
  return (Walk.entered events).find? fun e => !g.hasFastPath e

end Grammar

end Packrat
