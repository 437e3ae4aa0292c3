import Packrat.Engine.Machine

/-!
# Matching the plain forms

Each form is matched by a program that matches its children through a `call`. A form that fails
leaves the state as it was, and one that succeeds leaves its effects in the uncommitted view.

* **`Combinators.sequence`**, **`choice`**, **`optional`**, **`repetition`** — consuming forms.
* **`Combinators.lookahead`**, **`negation`** — predicates, which keep nothing.
* **`Combinators.token`**, **`capture`** — decorations.
-/

namespace Packrat.Combinators

open Matching

variable (call : Caller)

/-- Move to the end of a terminal that matched. -/
def terminal (stop : Option Nat) : Matching Bool :=
  match stop with
  | some stop => do
      onState (·.moveTo stop)
      return true
  | none => return false

/-- Match items one after the other, committing each. -/
def matchAll : List ExprId → Matching Bool
  | [] => return true
  | item :: rest => do
      if ← call item then
        commit
        matchAll rest
      else return false

/-- All items in order. -/
def sequence (items : List ExprId) : Matching Bool := do
  let mark := (← state).snapshot
  if ← matchAll call items then
    uncommit mark
    return true
  else
    onState (·.restore mark)
    return false

/-- The first item that matches. -/
def choice : List ExprId → Matching Bool
  | [] => return false
  | item :: rest => do
      if ← call item then return true
      else choice rest

/-- The operand, or nothing. -/
def optional (operand : ExprId) : Matching Bool := do
  let _ ← call operand
  return true

/-- Match the operand until it fails or stays in place, at most the given number of times, and
    count the matches that consumed something. -/
def matchMany (operand : ExprId) : Nat → Nat → Matching Nat
  | 0, count => return count
  | rounds + 1, count => do
      let before := (← state).stop
      if ← call operand then
        if (← state).stop = before then
          onState (·.discard)
          return count
        else
          commit
          matchMany operand rounds (count + 1)
      else return count

/-- At least `least` consuming matches of the operand. Every round but the last consumes, so there
    is one more round at most than there are characters left. -/
def repetition (text : Text) (least : Nat) (operand : ExprId) : Matching Bool := do
  let begun ← state
  let count ← matchMany call operand (text.length - begun.stop + 1) 0
  if count < least then
    onState (·.restore begun.snapshot)
    return false
  else
    uncommit begun.snapshot
    return true

/-- The operand matches here; nothing is consumed. -/
def lookahead (operand : ExprId) : Matching Bool := do
  if ← call operand then
    onState (·.discard)
    return true
  else return false

/-- The operand does not match here; its failures are not recorded. -/
def negation (operand : ExprId) : Matching Bool := do
  let recording := (← state).recording
  onState ({ · with recording := false })
  let matched ← thenAlways (call operand) ({ · with recording := recording })
  if matched then
    onState (·.discard)
    return false
  else return true

/-- The operand, followed by the whitespace of the grammar if that matches. -/
def token (setting : Setting) (operand : ExprId) : Matching Bool := do
  if ← call operand then
    match setting.grammar.whitespace with
    | none => return true
    | some whitespace =>
        let stop := (← state).stop
        match ← lift (setting.grammar.skip setting.text whitespace stop) with
        | some stop => onState (·.moveTo stop)
        | none => pure ()
        return true
  else return false

/-- The operand, with its captures wrapped or decorated. -/
def capture (text : Text) (operand : ExprId) (mode : CaptureMode) : Matching Bool := do
  let begun ← state
  if ← call operand then
    let stop := (← state).stop
    let kept := if mode.keepsText then some (text.slice begun.stop stop) else none
    onState fun s =>
      { s with captures := s.captures.close begun.captures.length mode begun.stop stop kept }
    return true
  else return false

end Packrat.Combinators
