import Packrat.Analysis.FastPath
import Packrat.Engine.Config
import Packrat.Failure.Report
import Packrat.Memo.Table
import Packrat.State.Basic

/-!
# The machine that matches

A match reads a setting, which never changes, and works on a machine: the parse state, which is
undone on backtracking, and the memo table, the recorded failures, the counters and the log, which
are not. Matching programs keep the machine as it is when they fail with a fault.

* **`Setting`**, **`Machine`** — what is fixed and what changes.
* **`Matching`** — programs on the machine.
* **`Matching.commit`**, **`uncommit`**, **`merge`** — transitions of the parse state that a slot may
  refuse.
* **`Matching.thenAlways`** — a clean-up that runs whether or not there was a fault.
-/

namespace Packrat

/-- What a parse reads. -/
structure Setting where
  grammar : Grammar
  text : Text
  config : Config

/-- Failures recorded so far, as the policy keeps them. -/
inductive Failures where
  | farthest (failures : Farthest)
  | first (failure : Option (ExprId × Nat))
  | silent
deriving DecidableEq, Repr

namespace Failures

/-- Nothing recorded. -/
def initial : FailurePolicy → Failures
  | .farthest | .farthestLogged => .farthest {}
  | .first => .first none
  | .silent => .silent

/-- Record that `id` failed at a position. -/
def record (f : Failures) (id : ExprId) (position : Nat) : Failures :=
  match f with
  | .farthest failures => .farthest (failures.record id position)
  | .first none => .first (some (id, position))
  | .first failure => .first failure
  | .silent => .silent

/-- The report of what was recorded, if anything was. -/
def report (f : Failures) (g : Grammar) (text : Text) : Except Fault (Option Report) :=
  match f with
  | .farthest failures => failures.report g text
  | .first (some (id, position)) => do
      return some (Report.make text position [← g.describe id])
  | .first none | .silent => .ok none

end Failures

/-- Counters of a parse. -/
structure Tally where
  /-- Matches begun, those answered by the memo table included. -/
  invocations : Nat := 0
  memoHits : Nat := 0
  memoMisses : Nat := 0
  /-- Seeds installed after growing. -/
  seedIterations : Nat := 0
deriving DecidableEq, Inhabited, Repr

/-- What a parse logs. -/
inductive LogEntry where
  /-- A failure was recorded. -/
  | failure (id : ExprId) (position : Nat)
  /-- The memo table was asked and answered. -/
  | lookup (key : MemoKey Fingerprint) (answer : Option (Option Changes))
  /-- An outcome was handed to the memo table. -/
  | store (key : MemoKey Fingerprint) (outcome : Option Changes)
  /-- Size of the memo table after an outcome was stored. -/
  | table (length positions capacity : Nat)
  /-- A custom expression noted the state. -/
  | note (label : String) (id : ExprId) (state : ParseState) (print : Fingerprint)

/-- What a parse changes. -/
structure Machine where
  state : ParseState
  /-- Outcomes kept; nothing is the outcome of a failure. -/
  memo : Table Fingerprint (Option Changes)
  failures : Failures
  tally : Tally
  /-- Log, the latest entry first. -/
  log : List LogEntry

/-- The machine at the start of a parse. -/
def Machine.initial (c : Config) : Machine :=
  { state := .initial c.slots, memo := .empty, failures := .initial c.failures, tally := {}
    log := [] }

/-- Programs on the machine. -/
abbrev Matching := EStateM Fault Machine

namespace Matching

/-- The parse state. -/
def state : Matching ParseState := fun m => .ok m.state m

/-- Change the parse state. -/
def onState (f : ParseState → ParseState) : Matching Unit := fun m =>
  .ok () { m with state := f m.state }

/-- Change the parse state; a slot that refuses the change is a crash. -/
def transition (allowed : ParseState → Bool) (f : ParseState → ParseState) : Matching Unit := fun m =>
  if allowed m.state then .ok () { m with state := f m.state }
  else .error (.crash .slotRefusal) { m with state := f m.state }

/-- Take over the uncommitted view. -/
def commit : Matching Unit :=
  transition (·.countersFit) (·.commit)

/-- Keep everything and move the commit point back to a snapshot. -/
def uncommit (mark : Snapshot) : Matching Unit :=
  transition (·.canUncommit mark) (·.uncommit mark)

/-- Replay changes on top of the uncommitted view. -/
def merge (changes : Changes) : Matching Unit :=
  transition (·.canMerge changes) (·.merge changes)

/-- The fingerprint of the parse state; there is none if a counter is out of its range. -/
def fingerprint : Matching Fingerprint := fun m =>
  if m.state.countersFit then .ok m.state.fingerprint m
  else .error (.crash .slotRefusal) m

/-- Change the seeds. -/
def onSeeds (f : Seeds ExactDigest → Seeds ExactDigest) : Matching Unit :=
  onState fun s => { s with seeds := f s.seeds }

/-- Change the counters. -/
def onTally (f : Tally → Tally) : Matching Unit := fun m =>
  .ok () { m with tally := f m.tally }

/-- Write to the log. -/
def log (entry : LogEntry) : Matching Unit := fun m =>
  .ok () { m with log := entry :: m.log }

/-- An analysis as a program that changes nothing. -/
def lift {α : Type} (x : Except Fault α) : Matching α := fun m =>
  match x with
  | .ok a => .ok a m
  | .error e => .error e m

/-- Run `body`, then change the parse state by `f`, also if there was a fault. -/
def thenAlways {α : Type} (body : Matching α) (f : ParseState → ParseState) : Matching α := fun m =>
  match body m with
  | .ok a m => .ok a { m with state := f m.state }
  | .error e m => .error e { m with state := f m.state }

end Matching

/-- Programs that match an expression: whether it matched. -/
abbrev Caller := ExprId → Matching Bool

end Packrat
