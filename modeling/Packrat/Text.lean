/-!
# Text: input addressed by character index

Every position of the library is a number of characters. A text answers what stands at a
position, whether a literal stands there, and on which line and column a position lies.

* **`Text.at?`** — the character at a position, nothing at the end.
* **`Text.matchLiteral`** — the position after a literal that stands at a position.
* **`Text.lineCol`** — the 1-based line and column, found in the table **`Text.lineStarts`**.
-/

namespace Packrat

/-- Input text with random access. -/
structure Text where
  chars : Array Char
deriving DecidableEq, Inhabited

namespace Text

/-- The text of a string. -/
def ofString (source : String) : Text :=
  ⟨source.toList.toArray⟩

/-- Number of characters. -/
def length (t : Text) : Nat :=
  t.chars.size

/-- Character at `position`, or nothing at the end of input. -/
def at? (t : Text) (position : Nat) : Option Char :=
  t.chars[position]?

/-- Position after the characters `expected` if they stand at the given position. -/
def matchChars (t : Text) : List Char → Nat → Option Nat
  | [], position => some position
  | c :: expected, position =>
      if t.at? position = some c then t.matchChars expected (position + 1) else none

/-- Position after `literal` if it stands at `position`. -/
def matchLiteral (t : Text) (position : Nat) (literal : String) : Option Nat :=
  t.matchChars literal.toList position

/-- Position after the character at `position` if `accepts` holds of it. -/
def matchOne (t : Text) (position : Nat) (accepts : Char → Bool) : Option Nat :=
  match t.at? position with
  | some c => if accepts c then some (position + 1) else none
  | none => none

/-- Length of the longest run of characters of `members` at `position`, looking at no more than the
    given number of characters. -/
def runWithin (t : Text) (members : List Char) : Nat → Nat → Nat
  | 0, _ => 0
  | left + 1, position =>
      match t.matchOne position members.contains with
      | some next => t.runWithin members left next + 1
      | none => 0

/-- Length of the longest run of characters of `members` at `position`. -/
def runLength (t : Text) (position : Nat) (members : List Char) : Nat :=
  t.runWithin members (t.length - position) position

/-- The characters from `start` to before `stop`, cut off at the end of input. -/
def slice (t : Text) (start stop : Nat) : String :=
  String.ofList (t.chars.extract start stop).toList

/-- Positions at which a line starts, given the index of the first of `rest`. -/
def startsAfter : Nat → List Char → List Nat
  | _, [] => []
  | i, c :: rest => if c = '\n' then (i + 1) :: startsAfter (i + 1) rest else startsAfter (i + 1) rest

/-- Positions at which a line starts, in increasing order. -/
def lineStarts (t : Text) : List Nat :=
  0 :: startsAfter 0 t.chars.toList

/-- Line and column of `position`, both counted from 1. -/
def lineCol (t : Text) (position : Nat) : Nat × Nat :=
  let upTo := t.lineStarts.takeWhile (· ≤ position)
  (upTo.length, position - upTo.getLastD 0 + 1)

end Text

end Packrat
