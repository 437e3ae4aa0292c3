import Packrat.State.Slot

/-!
# Parser configuration

* **`Memoization`** — which outcomes are kept.
* **`FailurePolicy`**, **`MemoPolicy`** — what is done with failures and with kept outcomes.
* **`Config`** — all settings of a parse.
-/

namespace Packrat

/-- Which matches are memoized. -/
inductive Memoization where
  | none
  /-- Expressions flagged for it, which are the rules. -/
  | rules
  /-- Everything but terminals. -/
  | all
deriving DecidableEq, Inhabited, Repr

/-- What becomes of recorded failures. -/
inductive FailurePolicy where
  /-- Keep those at the farthest position. -/
  | farthest
  /-- The same, and log each of them. -/
  | farthestLogged
  /-- Keep the first. -/
  | first
  /-- Keep none. -/
  | silent
deriving DecidableEq, Inhabited, Repr

/-- What becomes of outcomes to be memoized. -/
inductive MemoPolicy where
  /-- Keep them in a table. -/
  | table
  /-- The same, and log every access. -/
  | traced
  /-- Log every access and keep nothing. -/
  | off
deriving DecidableEq, Inhabited, Repr

/-- Settings of a parse. -/
structure Config where
  memoization : Memoization := .rules
  /-- Nesting of matches at which a parse is aborted. -/
  maxDepth : Nat := 512
  /-- Number of matches after which a parse is aborted. -/
  maxSteps : Option Nat := none
  failures : FailurePolicy := .farthest
  memo : MemoPolicy := .table
  /-- Slots of every parse, in order. -/
  slots : List SlotKind := []
deriving DecidableEq, Inhabited, Repr

/-- Short text of a list of slots to be made. -/
def inspectSlots (slots : List SlotKind) : String :=
  s!"SlotRegistry \x7b slots: {slots.length} \x7d"

/-- Short text of a configuration. -/
def Config.inspect (c : Config) : String :=
  let memoization :=
    match c.memoization with
    | .none => "None"
    | .rules => "Rules"
    | .all => "All"
  let maxSteps :=
    match c.maxSteps with
    | none => "None"
    | some limit => s!"Some({limit})"
  s!"ParserConfig \x7b memoization: {memoization}, max_depth: {c.maxDepth}, max_steps: {maxSteps}, " ++
    "slots: " ++ inspectSlots c.slots ++ ", .. \x7d"

end Packrat
