import Packrat.Engine.Machine

/-!
# Running the programs of custom expressions

A program works on the uncommitted view. Moving and matching commit what was done before, so that
a child starts with an empty view; when the program is done, everything since its start is one
uncommitted view again, or is undone if it failed.

* **`Programs.run`** — run instructions in order; whether none of them failed.
* **`Programs.custom`** — match a custom expression.
-/

namespace Packrat.Programs

open Matching

/-- Move to a position; moving back or past the end is a crash. -/
def moveTo (text : Text) (target : Nat) : Matching Unit := do
  let position := (← state).stop
  if position ≤ target ∧ target ≤ text.length then
    onState (·.moveTo target)
    commit
  else throw (.crash (.illegalMove target position))

/-- Match an expression at the current position and commit what it did. -/
def enter (call : Caller) (id : ExprId) : Matching Bool := do
  commit
  if ← call id then
    commit
    return true
  else return false

/-- Match a child; a child that is not there fails. -/
def enterChild (call : Caller) (children : List ExprId) (index : Nat) : Matching Bool :=
  match children[index]? with
  | some id => enter call id
  | none => return false

/-- Match a child until it fails or stays in place, at most the given number of times. -/
def enterMany (call : Caller) (children : List ExprId) (index : Nat) : Nat → Matching Unit
  | 0 => return ()
  | rounds + 1 => do
      let before := (← state).stop
      if ← enterChild call children index then
        if (← state).stop = before then return ()
        else enterMany call children index rounds

/-- Append a name to a list of names; fails if there is no such list. -/
def pushName (slot : Nat) (name : String) : Matching Bool := do
  match (← state).pushName? slot name with
  | some s =>
      onState fun _ => s
      return true
  | none => return false

/-- Add to a counter; fails if there is no such counter. -/
def increase (slot amount : Nat) : Matching Bool := do
  match (← state).counter? slot with
  | some (committed, pending) =>
      transition (fun _ => pending + amount ≤ Slot.limit)
        (·.setCounter slot committed (pending + amount))
      return true
  | none => return false

/-- The longest run of characters at the current position. -/
def currentRun (text : Text) (members : List Char) : Matching String := do
  let position := (← state).stop
  return text.slice position (position + text.runLength position members)

/-- Whether a counter has reached an amount; fails if there is no such counter. -/
def countAtLeast (slot amount : Nat) : Matching Bool := do
  match (← state).counter? slot with
  | some (committed, pending) =>
      if committed + pending ≤ Slot.limit then return amount ≤ committed + pending
      else throw (.crash .slotRefusal)
  | none => return false

mutual

/-- Run one instruction; whether it did not fail. -/
def step (setting : Setting) (call : Caller) (id : ExprId) (children : List ExprId) :
    Instr → Matching Bool
  | .advance count => do
      moveTo setting.text ((← state).stop + count)
      return true
  | .goTo position => do
      moveTo setting.text position
      return true
  | .call child => enterChild call children child
  | .callExpr target => enter call target
  | .attempt child => do
      let _ ← enterChild call children child
      return true
  | .repeated child => do
      let position := (← state).stop
      enterMany call children child (setting.text.length - position + 1)
      return true
  | .branch child onMatch onFail => do
      if ← enterChild call children child then run setting call id children onMatch
      else run setting call id children onFail
  | .atPosition position body => do
      if (← state).stop = position then run setting call id children body
      else return true
  | .take members => do
      let position := (← state).stop
      let length := setting.text.runLength position members
      moveTo setting.text (position + length)
      return length != 0
  | .atEnd => do return setting.text.length ≤ (← state).stop
  | .beforeEnd => do return (← state).stop < setting.text.length
  | .fail => return false
  | .abortExtension message => throw (.engine (.extension message))
  | .abortInvariant message => throw (.engine (.invariant message))
  | .pushName slot name => pushName slot name
  | .pushRun slot members => do
      let found ← currentRun setting.text members
      if found = "" ∨ ((← state).pushName? slot found).isNone then return false
      else
        moveTo setting.text ((← state).stop + found.length)
        pushName slot found
  | .knownRun slot members => do
      let found ← currentRun setting.text members
      match (← state).slots[slot]? with
      | some (.names _ _ entries) =>
          if found ≠ "" ∧ entries.contains found then
            moveTo setting.text ((← state).stop + found.length)
            return true
          else return false
      | _ => return false
  | .increase slot amount => increase slot amount
  | .countAtLeast slot amount => countAtLeast slot amount
  | .note label => do
      let print ← fingerprint
      log (.note label id (← state) print)
      return true
  | .observe choose => do run setting call id children (choose setting.text (← state))

/-- Run instructions in order; whether none of them failed. -/
def run (setting : Setting) (call : Caller) (id : ExprId) (children : List ExprId) :
    List Instr → Matching Bool
  | [] => return true
  | instr :: rest => do
      if ← step setting call id children instr then run setting call id children rest
      else return false

end

/-- Match a custom expression: what its program did, or nothing if it failed. -/
def custom (setting : Setting) (call : Caller) (id : ExprId) (spec : Custom)
    (children : List ExprId) : Matching Bool := fun m =>
  let mark := m.state.snapshot
  match run setting call id children spec.program m with
  | .ok true m => (do uncommit mark; return true : Matching Bool) m
  | .ok false m => .ok false { m with state := m.state.restore mark }
  | .error e m => .error e { m with state := m.state.restore mark }

end Packrat.Programs
