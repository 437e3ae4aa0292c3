import Packrat.Expr.Basic

/-!
# Memo table: outcomes by position

The table is open-addressed by position. An occupied bucket holds one position and the chain of
entries made there, the latest first. A lookup probes from the home bucket of its position onwards
to the bucket of that position or a free one. The number of buckets is a power of two; the table
doubles before an insertion that could fill more than three quarters of them.

* **`Table.get?`**, **`Table.insert`** — look up and store an outcome.
* **`Table.length`**, **`Table.positions`**, **`Table.capacity`** — entries, positions, buckets.
-/

namespace Packrat

variable {φ α : Type}

/-- What an outcome is stored under. -/
structure MemoKey (φ : Type) where
  expr : ExprId
  position : Nat
  print : φ
deriving DecidableEq, Repr

/-- An outcome at the position of its bucket. -/
structure MemoEntry (φ α : Type) where
  expr : ExprId
  print : φ
  outcome : α

/-- The entries made at one position. -/
structure Bucket (φ α : Type) where
  position : Nat
  chain : List (MemoEntry φ α)

/-- Memo table with `2 ^ bits` buckets. -/
structure Table (φ α : Type) where
  bits : Nat
  buckets : Array (Option (Bucket φ α))
  /-- Number of occupied buckets. -/
  positions : Nat := 0
  /-- Number of entries. -/
  length : Nat := 0

namespace Table

/-- Number of buckets. -/
def capacity (t : Table φ α) : Nat :=
  t.buckets.size

/-- A table without entries. -/
def withBits (bits : Nat) : Table φ α :=
  { bits, buckets := Array.replicate (Nat.pow 2 bits) none }

/-- A fresh table. -/
def empty : Table φ α :=
  withBits 6

/-- Odd multiplier that spreads consecutive positions over the buckets. -/
def spread : UInt64 := 0x9e3779b97f4a7c15

/-- The bucket at which probing for a position starts. -/
def home (bits position : Nat) : Nat :=
  ((position.toUInt64 * spread) >>> (64 - bits).toUInt64).toNat

-- ── Probing ──────────────────────────────────────────────────────────────────────

/-- Where probing for a position ends. -/
inductive Probe where
  /-- At the bucket of the position. -/
  | found (index : Nat)
  /-- At a free bucket. -/
  | free (index : Nat)
  /-- Nowhere: every bucket holds another position. -/
  | full
deriving DecidableEq, Inhabited, Repr

/-- Probe from `index` on, at most the given number of buckets. -/
def probeFrom (buckets : Array (Option (Bucket φ α))) (position : Nat) : Nat → Nat → Probe
  | 0, _ => .full
  | left + 1, index =>
      match buckets.getD index none with
      | none => .free index
      | some bucket =>
          if bucket.position = position then .found index
          else probeFrom buckets position left ((index + 1) % buckets.size)

/-- Probe for a position. -/
def probe (t : Table φ α) (position : Nat) : Probe :=
  probeFrom t.buckets position t.capacity (home t.bits position)

-- ── Growing ──────────────────────────────────────────────────────────────────────

/-- Put a bucket into a table that does not have its position. -/
def place (t : Table φ α) (bucket : Bucket φ α) : Table φ α :=
  match t.probe bucket.position with
  | .free index =>
      { t with
        buckets := t.buckets.setIfInBounds index (some bucket)
        positions := t.positions + 1 }
  | _ => t

/-- The same entries in twice as many buckets. -/
def grow (t : Table φ α) : Table φ α :=
  let grown := (t.buckets.toList.filterMap id).foldl place (withBits (t.bits + 1))
  { grown with length := t.length }

/-- Make room for one more position. -/
def reserve (t : Table φ α) : Table φ α :=
  if t.capacity * 3 < (t.positions + 1) * 4 then t.grow else t

-- ── Entries ──────────────────────────────────────────────────────────────────────

variable [DecidableEq φ]

/-- Outcome of a chain under an expression and fingerprint. -/
def chainGet? (expr : ExprId) (print : φ) : List (MemoEntry φ α) → Option α
  | [] => none
  | e :: rest => if e.expr = expr ∧ e.print = print then some e.outcome else chainGet? expr print rest

/-- Chain with the outcome of an entry that is there replaced. -/
def chainSet? (expr : ExprId) (print : φ) (outcome : α) :
    List (MemoEntry φ α) → Option (List (MemoEntry φ α))
  | [] => none
  | e :: rest =>
      if e.expr = expr ∧ e.print = print then some ({ e with outcome } :: rest)
      else (chainSet? expr print outcome rest).map (e :: ·)

/-- The outcome stored under a key. -/
def get? (t : Table φ α) (key : MemoKey φ) : Option α :=
  match t.probe key.position with
  | .found index =>
      match t.buckets.getD index none with
      | some bucket => chainGet? key.expr key.print bucket.chain
      | none => none
  | _ => none

/-- Store an outcome under a key, replacing one that is there. -/
def insert (t : Table φ α) (key : MemoKey φ) (outcome : α) : Table φ α :=
  let t := t.reserve
  let entry : MemoEntry φ α := { expr := key.expr, print := key.print, outcome }
  match t.probe key.position with
  | .found index =>
      match t.buckets.getD index none with
      | none => t
      | some bucket =>
          match chainSet? key.expr key.print outcome bucket.chain with
          | some chain =>
              { t with buckets := t.buckets.setIfInBounds index (some { bucket with chain }) }
          | none =>
              { t with
                buckets :=
                  t.buckets.setIfInBounds index (some { bucket with chain := entry :: bucket.chain })
                length := t.length + 1 }
  | .free index =>
      { t with
        buckets := t.buckets.setIfInBounds index
          (some { position := key.position, chain := [entry] })
        positions := t.positions + 1
        length := t.length + 1 }
  | .full => t

omit [DecidableEq φ] in
/-- Short text of a table. -/
def inspect (t : Table φ α) : String :=
  s!"PositionTable \x7b capacity: {t.capacity}, positions: {t.positions}, entries: {t.length} \x7d"

end Table

end Packrat
