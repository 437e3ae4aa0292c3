import Packrat.Engine.Machine

/-!
# Growing seeds

A boundary matched at a position installs a failing seed there. Whoever meets the boundary again at
that position gets the seed instead of recursing. Whenever the operand gets farther than the seed,
what it did becomes the new seed and the operand runs again.

A left-associative boundary is blocked while it grows: met again elsewhere it matches its operand
once and does not grow.

A cluster runs its groups from the highest precedence down to its floor. While a group runs, the
floor of the cluster is the precedence of the group, or one more if it is left-associative, so
operands see only tighter levels.

* **`Growth.replay`** — the outcome of a seed.
* **`Growth.leftRecursive`**, **`Growth.cluster`** — the two kinds of boundary.
* **`Growth.minPrecedence`** — an operand with all floors replaced and nothing blocked.
-/

namespace Packrat.Growth

open Matching

variable (call : Caller)

/-- Replay a seed on top of the uncommitted view; a failing seed fails. -/
def replay (seed : Option Changes) : Matching Bool :=
  match seed with
  | some changes => do
      merge changes
      return true
  | none => return false

/-- Whether a position is farther than a seed reaches. -/
def advances (stop : Nat) (best : Option Changes) : Bool :=
  match best with
  | some seed => decide (seed.stop < stop)
  | none => true

/-- Go back to `mark` and make what was done the new seed. -/
def install (key : SeedKey) (mark : Snapshot) : Matching Changes := do
  let changes := (← state).extract
  onState (·.restore mark)
  onTally fun t => { t with seedIterations := t.seedIterations + 1 }
  onSeeds (·.insert key (some changes))
  return changes

-- ── Left recursion ───────────────────────────────────────────────────────────────

/-- Run the operand until it gets no farther than the seed, at most the given number of times;
    returns the last seed. -/
def grow (key : SeedKey) (operand : ExprId) (mark : Snapshot) :
    Nat → Option Changes → Matching (Option Changes)
  | 0, best => return best
  | runs + 1, best => do
      if ← call operand then
        if advances (← state).stop best then
          let changes ← install key mark
          grow key operand mark runs (some changes)
        else
          onState (·.restore mark)
          return best
      else return best

/-- A left-recursive boundary. Every accepted seed reaches farther than the one before, so there
    are at most two more runs than there are characters left. -/
def leftRecursive (text : Text) (id operand : ExprId) (leftAssociative : Bool) : Matching Bool := do
  let begun ← state
  let key : SeedKey := { expr := id, position := begun.stop }
  match begun.seeds.get? key with
  | some seed => replay seed
  | none =>
      if leftAssociative && begun.seeds.isBlocked id then
        onSeeds fun seeds => (seeds.insert key none).setBlocked id false
        thenAlways (call operand) fun s =>
          { s with seeds := (s.seeds.setBlocked id true).remove key }
      else
        onSeeds fun seeds =>
          let seeds := seeds.insert key none
          if leftAssociative then seeds.setBlocked id true else seeds
        let runs := text.length - begun.stop + 2
        let grown ← thenAlways (grow call key operand begun.snapshot runs none) fun s =>
          let seeds := if leftAssociative then s.seeds.setBlocked id false else s.seeds
          { s with seeds := seeds.remove key }
        replay grown

-- ── Clusters ─────────────────────────────────────────────────────────────────────

/-- Floor of a cluster while a group runs. -/
def levelFloor (group : Group ExprId) : Precedence :=
  match group.kind with
  | .leftAssociative => group.precedence.above
  | .once | .leftRecursive => group.precedence

/-- Try alternatives until one gets farther than the seed, and make it the seed. -/
def climbOnce (key : SeedKey) (mark : Snapshot) (best : Option Changes) :
    List ExprId → Matching (Option Changes)
  | [] => return none
  | alternative :: rest => do
      if ← call alternative then
        if advances (← state).stop best then
          let changes ← install key mark
          return some changes
        else
          onState (·.restore mark)
          climbOnce key mark best rest
      else climbOnce key mark best rest

/-- Run a group until none of its alternatives gets farther than the seed, at most the given
    number of times; a group that does not grow runs once. -/
def climb (key : SeedKey) (group : Group ExprId) (mark : Snapshot) :
    Nat → Option Changes → Matching (Option Changes)
  | 0, best => return best
  | rounds + 1, best => do
      match ← climbOnce call key mark best group.alternatives with
      | none => return best
      | some grown =>
          if group.kind.grows then climb key group mark rounds (some grown)
          else return some grown

/-- Run groups in order, handing the seed on. -/
def climbAll (text : Text) (key : SeedKey) :
    List (Group ExprId) → Option Changes → Matching (Option Changes)
  | [], best => return best
  | group :: rest, best => do
      onState fun s => { s with floors := s.floors.set key.expr (levelFloor group) }
      let mark := (← state).snapshot
      let best ← climb call key group mark (text.length - key.position + 2) best
      climbAll text key rest best

/-- A cluster: the groups at or above its floor. -/
def cluster (text : Text) (id : ExprId) (groups : List (Group ExprId)) : Matching Bool := do
  let begun ← state
  let key : SeedKey := { expr := id, position := begun.stop }
  match begun.seeds.get? key with
  | some seed => replay seed
  | none =>
      onSeeds (·.insert key none)
      let admitted := groups.takeWhile fun group => begun.floors.floor id ≤ group.precedence
      let best ← thenAlways (climbAll call text key admitted none) fun s =>
        { s with
          floors := s.floors.reset id (begun.floors.explicit? id)
          seeds := s.seeds.remove key }
      replay best

-- ── Precedence resets ────────────────────────────────────────────────────────────

/-- The operand with every floor set to `floor` and nothing blocked. -/
def minPrecedence (operand : ExprId) (floor : Precedence) : Matching Bool := do
  let begun ← state
  onState fun s => { s with floors := .uniform floor, seeds := s.seeds.unblockAll }
  thenAlways (call operand) fun s =>
    { s with floors := begun.floors, seeds := s.seeds.restoreBlocked begun.seeds.blocked }

end Packrat.Growth
