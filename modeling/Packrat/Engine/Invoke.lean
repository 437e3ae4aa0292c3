import Packrat.Engine.Combinators
import Packrat.Engine.Growth
import Packrat.Engine.Programs

/-!
# Matching an expression

Every expression is matched through one entry point. It counts the match, enforces the limits,
asks the memo table, dispatches on the shape, hands the outcome to the memo table and records a
failure. The recursion is on the nesting that is still allowed.

* **`Engine.dispatch`** — match a shape, matching its children through a `call`.
* **`Engine.invoke`** — match an expression with a nesting still allowed.
-/

namespace Packrat.Engine

open Matching

variable (setting : Setting)

-- ── Limits ───────────────────────────────────────────────────────────────────────

/-- Count a match; one beyond the step limit is a fault. -/
def countStep : Matching Unit := do
  onTally fun t => { t with invocations := t.invocations + 1 }
  let m ← get
  match setting.config.maxSteps with
  | some limit =>
      if limit < m.tally.invocations then
        throw (.engine (.stepLimit limit m.state.stop))
  | none => return ()

-- ── Memoization ──────────────────────────────────────────────────────────────────

/-- Whether outcomes of an expression are memoized. -/
def memoizes (expr : Expr) : Bool :=
  match setting.config.memoization with
  | .none => false
  | .rules => expr.flags.memoize
  | .all => !expr.shape.isTerminal

/-- What an outcome in the current state is stored under. -/
def memoKey (id : ExprId) : Matching (MemoKey Fingerprint) := do
  let print ← fingerprint
  let s ← state
  return { expr := id, position := s.stop, print := { print with recording := s.recording } }

/-- Ask the memo table. -/
def consult (key : MemoKey Fingerprint) : Matching (Option (Option Changes)) := do
  match setting.config.memo with
  | .table => return (← get).memo.get? key
  | .traced =>
      let answer := (← get).memo.get? key
      log (.lookup key answer)
      return answer
  | .off =>
      log (.lookup key none)
      return none

/-- Hand an outcome to the memo table. -/
def store (key : MemoKey Fingerprint) (outcome : Option Changes) : Matching Unit := do
  match setting.config.memo with
  | .table => modify fun m => { m with memo := m.memo.insert key outcome }
  | .traced =>
      log (.store key outcome)
      modify fun m => { m with memo := m.memo.insert key outcome }
      let memo := (← get).memo
      log (.table memo.length memo.positions memo.capacity)
  | .off => log (.store key outcome)

-- ── Failures ─────────────────────────────────────────────────────────────────────

/-- Record that `id` failed at the current position, if it is to be recorded. -/
def recordFailure (id : ExprId) (expr : Expr) : Matching Unit := do
  let s ← state
  if s.recording && expr.flags.recordErrors then
    if setting.config.failures = .farthestLogged then log (.failure id s.stop)
    modify fun m => { m with failures := m.failures.record id s.stop }

-- ── Dispatch ─────────────────────────────────────────────────────────────────────

/-- Match the shape of the expression `id`. -/
def dispatch (call : Caller) (id : ExprId) (shape : Shape ExprId) : Matching Bool := do
  let position := (← state).stop
  let text := setting.text
  match shape with
  | .literal literal => Combinators.terminal (text.matchLiteral position literal)
  | .any => Combinators.terminal (text.matchOne position fun _ => true)
  | .range lo hi => Combinators.terminal (text.matchOne position fun c => lo ≤ c && c ≤ hi)
  | .set members => Combinators.terminal (text.matchOne position members.contains)
  | .sequence items => Combinators.sequence call items
  | .choice items => Combinators.choice call items
  | .optional operand => Combinators.optional call operand
  | .zeroMore operand => Combinators.repetition call text 0 operand
  | .oneMore operand => Combinators.repetition call text 1 operand
  | .lookahead operand => Combinators.lookahead call operand
  | .not operand => Combinators.negation call operand
  | .token operand => Combinators.token call setting operand
  | .capture operand mode => Combinators.capture call text operand mode
  | .leftRecursive operand assoc => Growth.leftRecursive call text id operand assoc
  | .cluster groups => Growth.cluster call text id groups
  | .minPrecedence operand floor => Growth.minPrecedence call operand floor
  | .reference name =>
      throw (.engine (.invariant s!"unresolved reference `{name}` reached the engine"))
  | .custom spec children => Programs.custom setting call id spec children

/-- Match an expression that the memo table does not answer for. -/
def evaluate (call : Caller) (id : ExprId) (expr : Expr) (key : Option (MemoKey Fingerprint)) :
    Matching Bool := do
  let matched ← dispatch setting call id expr.shape
  match key with
  | some key =>
      onTally fun t => { t with memoMisses := t.memoMisses + 1 }
      let s ← state
      store setting key (if matched then some s.extract else none)
  | none => pure ()
  if !matched then recordFailure setting id expr
  return matched

/-- Answer from the memo table. -/
def replayMemo (id : ExprId) (expr : Expr) (outcome : Option Changes) : Matching Bool := do
  onTally fun t => { t with memoHits := t.memoHits + 1 }
  match outcome with
  | some changes =>
      merge changes
      return true
  | none =>
      recordFailure setting id expr
      return false

/-- Match the expression `id` at the current position with the given nesting still allowed. -/
def invoke : Nat → ExprId → Matching Bool
  | 0, _ => do
      countStep setting
      throw (.engine (.recursionLimit setting.config.maxDepth (← state).stop))
  | nesting + 1, id => do
      countStep setting
      let expr ← lift (setting.grammar.node id)
      if memoizes setting expr then
        let key ← memoKey id
        match ← consult setting key with
        | some outcome => replayMemo setting id expr outcome
        | none => evaluate setting (invoke nesting) id expr (some key)
      else evaluate setting (invoke nesting) id expr none

end Packrat.Engine
