import Packrat.Expr.Basic

/-!
# Faults: why an operation gave no answer

A failed match is not a fault: it is an answer. Faults come in three kinds.

* **`GrammarError`** — a grammar that cannot be prepared or parsed with.
* **`EngineError`** — a parse that had to be aborted.
* **`Crash`** — a broken promise of the caller, such as an id outside the grammar, or a chase
  through the graph that never ends.

The wording of the first two is **`GrammarError.message`** and **`EngineError.message`**.
-/

namespace Packrat

/-- Reasons to refuse a grammar. -/
inductive GrammarError where
  | unresolvedReference (name : String)
  | referenceChainTooLong (name : String) (limit : Nat)
  | duplicateRule (name : String)
  | missingRoot (name : String)
  | noSuchChild (index : Nat) (parent : ExprId)
  | ambiguousPrecedence (cluster : String) (precedence : Precedence)
  | nullableRepetition (description : String)
  | whitespaceUnsupported (kindName : String)
  | unbrokenLeftRecursion (description : String)
  | unprepared
deriving DecidableEq, Inhabited, Repr

/-- Text of a grammar error. -/
def GrammarError.message : GrammarError → String
  | .unresolvedReference name => s!"reference to undefined rule `{name}`"
  | .referenceChainTooLong name limit => s!"reference chain starting at `{name}` exceeds {limit} hops"
  | .duplicateRule name => s!"rule `{name}` is defined more than once"
  | .missingRoot name => s!"no root rule: `{name}`"
  | .noSuchChild index parent => s!"unknown expression: child {index} of #{parent}"
  | .ambiguousPrecedence cluster precedence =>
      s!"cluster {cluster} has several groups with precedence {precedence}"
  | .nullableRepetition description =>
      s!"repetition {description} has a nullable operand and would loop forever"
  | .whitespaceUnsupported kindName =>
      s!"whitespace expression uses {kindName}, which has no fast path"
  | .unbrokenLeftRecursion description =>
      s!"left recursion through {description} is not broken by a recursion boundary"
  | .unprepared => "grammar must be prepared before parsing"

/-- Reasons to abort a parse. -/
inductive EngineError where
  | recursionLimit (limit position : Nat)
  | stepLimit (limit position : Nat)
  | invariant (message : String)
  | extension (message : String)
deriving DecidableEq, Inhabited, Repr

/-- Text of an engine error. -/
def EngineError.message : EngineError → String
  | .recursionLimit limit position => s!"recursion depth exceeded {limit} at offset {position}"
  | .stepLimit limit position => s!"step limit of {limit} reached at offset {position}"
  | .invariant message => s!"engine invariant violated: {message}"
  | .extension message => s!"extension failed: {message}"

/-- Broken promises of the caller and chases without end. -/
inductive Crash where
  /-- The id is not in the grammar. -/
  | noSuchExpr (id : ExprId)
  /-- A custom expression moved backwards or past the end. -/
  | illegalMove (target position : Nat)
  /-- A slot was handed what it refuses: a mark or delta of another kind, or an amount that takes a
      counter out of its range. -/
  | slotRefusal
  /-- A description is its own description. -/
  | endlessDescription (id : ExprId)
  /-- A fast match re-enters itself at the same position. -/
  | endlessSkip (id : ExprId)
  /-- A derivation of the grammar never ends. -/
  | endlessDerivation (id : ExprId)
  /-- A count went past the greatest word. -/
  | countOverflow
deriving DecidableEq, Inhabited, Repr

/-- Why an operation gave no answer. -/
inductive Fault where
  | grammar (error : GrammarError)
  | engine (error : EngineError)
  | crash (cause : Crash)
deriving DecidableEq, Inhabited, Repr

end Packrat
