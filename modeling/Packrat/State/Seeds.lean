import Packrat.Expr.Attributes
import Packrat.Ordered
import Packrat.State.Changes

/-!
# Seeds of left-recursive matches in progress

A seed is the best result so far of a boundary at a position; a failing seed is there before the
first result. The blocked set holds left-associative boundaries whose growth is running. Both are
put back by whoever changed them, so nothing is undone on backtracking, but they decide what nested
expressions match. A digest of the ends of the seeds and of the blocked set is kept up to date with
every change: entering and leaving an entry are the same toggle.

* **`SeedAtom`** — one entry, as far as the digest sees it.
* **`Digest`** — digests by toggling; **`ExactDigest`** keeps the entries apart without fail,
  **`Digest.hashed`** combines hashes by exclusive or.
* **`Seeds`** — the seeds, the blocked set and their digest.
-/

namespace Packrat

/-- Where a seed is installed. -/
structure SeedKey where
  expr : ExprId
  position : Nat
deriving DecidableEq, Inhabited, Repr

instance : Key SeedKey where
  before a b :=
    decide (a.expr < b.expr) || (a.expr == b.expr && decide (a.position < b.position))

/-- An entry of the seeds as the digest sees it. -/
inductive SeedAtom where
  /-- A seed with the position it reaches; a failing seed reaches none. -/
  | seed (key : SeedKey) (stop : Option Nat)
  | blocked (expr : ExprId)
deriving DecidableEq, Inhabited, Repr

/-- Order of the ends of seeds: failing first. -/
def stopBefore : Option Nat → Option Nat → Bool
  | none, some _ => true
  | some a, some b => decide (a < b)
  | _, none => false

instance : Key SeedAtom where
  before
    | .seed k s, .seed l t => Key.before k l || (k == l && stopBefore s t)
    | .seed _ _, .blocked _ => true
    | .blocked _, .seed _ _ => false
    | .blocked a, .blocked b => decide (a < b)

/-- Digests of sets of entries. -/
class Digest (δ : Type) where
  /-- Digest of no entry. -/
  empty : δ
  /-- Digest after an entry came or went. -/
  toggle : SeedAtom → δ → δ

/-- A word stirred with a number. -/
def stir (word : UInt64) (n : Nat) : UInt64 :=
  let mixed := (word ^^^ n.toUInt64) * 0x9e3779b97f4a7c15
  mixed ^^^ (mixed >>> 32)

/-- A word that seldom is the same for two entries. -/
def SeedAtom.code : SeedAtom → UInt64
  | .seed key none => stir (stir (stir 1 key.expr) key.position) 0
  | .seed key (some stop) => stir (stir (stir 1 key.expr) key.position) (stop + 1)
  | .blocked expr => stir 2 expr

/-- Exclusive or of the codes of entries. -/
def checksum : List SeedAtom → UInt64
  | [] => 0
  | a :: rest => a.code ^^^ checksum rest

theorem checksum_toggle (a : SeedAtom) (atoms : List SeedAtom) :
    checksum (Ordered.toggle a atoms) = a.code ^^^ checksum atoms := by
  induction atoms with
  | nil => rfl
  | cons b rest ih =>
      rw [Ordered.toggle]
      split
      · rename_i same
        rw [same, checksum, ← UInt64.xor_assoc, UInt64.xor_self, UInt64.zero_xor]
      · split
        · rfl
        · rw [checksum, ih, checksum, ← UInt64.xor_assoc, UInt64.xor_comm b.code, UInt64.xor_assoc]

/-- The entries themselves. Their checksum is compared first, so that digests which differ seldom
    cost more than one comparison. -/
structure ExactDigest where
  sum : UInt64 := 0
  atoms : List SeedAtom := []
  sum_eq : sum = checksum atoms := by rfl
deriving DecidableEq, Repr

instance : Inhabited ExactDigest :=
  ⟨{}⟩

instance : Digest ExactDigest where
  empty := {}
  toggle a d :=
    { sum := a.code ^^^ d.sum
      atoms := Ordered.toggle a d.atoms
      sum_eq := by rw [checksum_toggle, d.sum_eq] }

/-- Exclusive or of the hashes of the entries. -/
@[reducible] def Digest.hashed (hash : SeedAtom → UInt64) : Digest UInt64 where
  empty := 0
  toggle a d := d ^^^ hash a

/-- Seeds, blocked boundaries and their digest. -/
structure Seeds (δ : Type) where
  entries : List (SeedKey × Option Changes) := []
  blocked : List ExprId := []
  digest : δ

namespace Seeds

variable {δ : Type} [Digest δ]

/-- No seeds and nothing blocked. -/
def empty : Seeds δ :=
  { digest := Digest.empty }

omit [Digest δ] in
/-- The seed at a key, if one is installed; a failing seed is there and holds nothing. -/
def get? (s : Seeds δ) (key : SeedKey) : Option (Option Changes) :=
  s.entries.lookup key

omit [Digest δ] in
/-- Number of seeds. -/
def length (s : Seeds δ) : Nat :=
  s.entries.length

omit [Digest δ] in
/-- No seed and nothing blocked. -/
def isEmpty (s : Seeds δ) : Bool :=
  s.entries.isEmpty && s.blocked.isEmpty

/-- The entry of a seed. -/
def atom (key : SeedKey) (seed : Option Changes) : SeedAtom :=
  .seed key (seed.map Changes.stop)

/-- Install a seed, replacing one that is there. -/
def insert (s : Seeds δ) (key : SeedKey) (seed : Option Changes) : Seeds δ :=
  let digest :=
    match s.get? key with
    | some old => Digest.toggle (atom key old) s.digest
    | none => s.digest
  { s with
    entries := Ordered.insert key seed s.entries
    digest := Digest.toggle (atom key seed) digest }

/-- Remove a seed, if there is one. -/
def remove (s : Seeds δ) (key : SeedKey) : Seeds δ :=
  match s.get? key with
  | some old =>
      { s with
        entries := Ordered.erase key s.entries
        digest := Digest.toggle (atom key old) s.digest }
  | none => s

omit [Digest δ] in
/-- Whether a boundary is blocked. -/
def isBlocked (s : Seeds δ) (id : ExprId) : Bool :=
  s.blocked.contains id

/-- Block or unblock a boundary. -/
def setBlocked (s : Seeds δ) (id : ExprId) (blocked : Bool) : Seeds δ :=
  if s.isBlocked id = blocked then s
  else
    { s with
      blocked := if blocked then Ordered.add id s.blocked else Ordered.remove id s.blocked
      digest := Digest.toggle (.blocked id) s.digest }

/-- Digest after each of the given boundaries was blocked or unblocked. -/
def toggleBlocked (digest : δ) (ids : List ExprId) : δ :=
  ids.foldl (fun d id => Digest.toggle (.blocked id) d) digest

/-- Unblock everything. -/
def unblockAll (s : Seeds δ) : Seeds δ :=
  { s with blocked := [], digest := toggleBlocked s.digest s.blocked }

/-- Put back a blocked set. -/
def restoreBlocked (s : Seeds δ) (blocked : List ExprId) : Seeds δ :=
  { s with blocked, digest := toggleBlocked s.unblockAll.digest blocked }

end Seeds

end Packrat
