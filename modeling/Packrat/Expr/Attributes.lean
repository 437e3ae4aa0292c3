/-!
# Ids, precedences and capture modes

What the expressions of a grammar and the state of a parse both speak of.

* **`ExprId`** — an expression, by its index.
* **`Precedence`** — the levels of clusters; **`Precedence.above`** is the next higher one.
* **`CaptureMode`** — what a capture adds to the capture tree.
-/

namespace Packrat

/-- Index of an expression in its grammar. -/
abbrev ExprId := Nat

/-- Precedence levels are 32-bit words. -/
abbrev Precedence := UInt32

/-- The next higher precedence; the highest stays. -/
def Precedence.above (p : Precedence) : Precedence :=
  if p = 0xffffffff then p else p + 1

/-- How a capture contributes to the capture tree. -/
structure CaptureMode where
  /-- Wrap what the operand captured into a new node; otherwise decorate it. -/
  wraps : Bool := false
  /-- Keep the matched text on the new node. -/
  keepsText : Bool := false
  /-- The accessor names a list rather than a single child. -/
  multiple : Bool := false
  accessor : Option String := none
  tags : List String := []
deriving DecidableEq, Inhabited, Repr

namespace CaptureMode

/-- A wrapping node reachable through `accessor`. -/
def node (accessor : String) : CaptureMode :=
  { wraps := true, accessor := some accessor }

/-- A wrapping node that keeps the matched text. -/
def text (accessor : String) : CaptureMode :=
  { wraps := true, keepsText := true, accessor := some accessor }

end CaptureMode

end Packrat
