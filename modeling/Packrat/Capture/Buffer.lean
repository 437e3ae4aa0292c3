import Packrat.Expr.Attributes
import Packrat.Capture.Node

/-!
# Capture buffer: nodes not yet claimed by an enclosing capture

The buffer is a list of nodes with a commit point: nodes before it belong to the committed view.
A capture remembers the length of the buffer when it starts and, once its operand has matched,
folds what was appended since into one node, or decorates it.

* **`CaptureBuffer.close`** — the end of a capture.
* **`CaptureBuffer.mark`**, **`restore`**, **`uncommit`**, **`discard`**, **`commit`**,
  **`extract`**, **`merge`** — the transitions of the parse state.
-/

namespace Packrat

/-- Captured nodes with a commit point. -/
structure CaptureBuffer where
  nodes : List CaptureNode := []
  committed : Nat := 0
deriving Inhabited

/-- What is needed to go back to a buffer. -/
structure CaptureMark where
  committed : Nat
  length : Nat
deriving DecidableEq, Inhabited, Repr

/-- A node with the accessor and the tags of a mode. -/
def CaptureMode.decorate (mode : CaptureMode) (n : CaptureNode) : CaptureNode :=
  let n := if mode.accessor.isSome then
      { n with accessor := mode.accessor, multiple := mode.multiple }
    else n
  { n with tags := n.tags ++ mode.tags }

namespace CaptureBuffer

/-- Number of nodes. -/
def length (b : CaptureBuffer) : Nat :=
  b.nodes.length

/-- Finish a capture over the characters from `start` to `stop` whose operand started when the
    buffer had `base` nodes. -/
def close (b : CaptureBuffer) (base : Nat) (mode : CaptureMode) (start stop : Nat)
    (text : Option String) : CaptureBuffer :=
  if mode.wraps then
    let node : CaptureNode :=
      { accessor := mode.accessor, multiple := mode.multiple, tags := mode.tags
        start, stop, text, children := b.nodes.drop base }
    { b with nodes := b.nodes.take base ++ [node] }
  else
    { b with nodes := b.nodes.take base ++ (b.nodes.drop base).map mode.decorate }

/-- Remember the buffer. -/
def mark (b : CaptureBuffer) : CaptureMark :=
  { committed := b.committed, length := b.length }

/-- Go back to a mark. -/
def restore (b : CaptureBuffer) (m : CaptureMark) : CaptureBuffer :=
  { nodes := b.nodes.take m.length, committed := m.committed }

/-- Keep the nodes and move the commit point back to a mark. -/
def uncommit (b : CaptureBuffer) (m : CaptureMark) : CaptureBuffer :=
  { b with committed := m.committed }

/-- Drop the nodes after the commit point. -/
def discard (b : CaptureBuffer) : CaptureBuffer :=
  { b with nodes := b.nodes.take b.committed }

/-- Move the commit point to the end. -/
def commit (b : CaptureBuffer) : CaptureBuffer :=
  { b with committed := b.length }

/-- The nodes after the commit point. -/
def extract (b : CaptureBuffer) : List CaptureNode :=
  b.nodes.drop b.committed

/-- Append nodes. -/
def merge (b : CaptureBuffer) (nodes : List CaptureNode) : CaptureBuffer :=
  { b with nodes := b.nodes ++ nodes }

end CaptureBuffer

end Packrat
