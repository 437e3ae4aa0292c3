/-!
# Ordered lists as finite sets and maps

Sets and maps that enter comparisons are kept as lists in strictly increasing key order, so that
equal contents are equal lists whatever operations led there.

* **`Key`** — keys with an order.
* **`Ordered.insert`**, **`Ordered.erase`** — maps as lists of pairs.
* **`Ordered.add`**, **`Ordered.remove`**, **`Ordered.toggle`** — sets as lists of keys.
-/

namespace Packrat

/-- Keys that have an order. -/
class Key (κ : Type) where
  /-- Whether the first key stands before the second. -/
  before : κ → κ → Bool

instance : Key Nat where
  before a b := decide (a < b)

namespace Ordered

variable {κ α : Type} [DecidableEq κ] [Key κ]

-- ── Maps ─────────────────────────────────────────────────────────────────────────

/-- The map with `k` sent to `a`. -/
def insert (k : κ) (a : α) : List (κ × α) → List (κ × α)
  | [] => [(k, a)]
  | (j, b) :: rest =>
      if j = k then (k, a) :: rest
      else if Key.before k j then (k, a) :: (j, b) :: rest
      else (j, b) :: insert k a rest

omit [Key κ] in
/-- The map without `k`. -/
def erase (k : κ) : List (κ × α) → List (κ × α)
  | [] => []
  | (j, b) :: rest => if j = k then rest else (j, b) :: erase k rest

-- ── Sets ─────────────────────────────────────────────────────────────────────────

/-- The set with `k`. -/
def add (k : κ) : List κ → List κ
  | [] => [k]
  | j :: rest =>
      if j = k then j :: rest
      else if Key.before k j then k :: j :: rest
      else j :: add k rest

omit [Key κ] in
/-- The set without `k`. -/
def remove (k : κ) : List κ → List κ
  | [] => []
  | j :: rest => if j = k then rest else j :: remove k rest

/-- The set with `k` if it was not in it, and without it if it was. -/
def toggle (k : κ) : List κ → List κ
  | [] => [k]
  | j :: rest =>
      if j = k then rest
      else if Key.before k j then k :: j :: rest
      else j :: toggle k rest

end Ordered

end Packrat
