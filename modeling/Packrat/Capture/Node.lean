/-!
# Capture trees

Captures contribute nodes to a tree and everything else is transparent. A node is reached through
its accessor, alone or as a member of a list, or through its tags.

* **`CaptureNode`** — a node with the characters it spans.
* **`CaptureNode.get?`**, **`CaptureNode.group`**, **`CaptureNode.tagged`** — ways to the children.
* **`CaptureNode.toSexpr`** — the tree as an s-expression.
-/

namespace Packrat

/-- A node of the capture tree, spanning the characters from `start` to before `stop`. -/
structure CaptureNode where
  accessor : Option String := none
  /-- Member of the list named by the accessor rather than a single child. -/
  multiple : Bool := false
  tags : List String := []
  start : Nat := 0
  stop : Nat := 0
  text : Option String := none
  children : List CaptureNode := []
deriving Inhabited

namespace CaptureNode

/-- An unnamed node around `children`. -/
def root (start stop : Nat) (children : List CaptureNode) : CaptureNode :=
  { start, stop, children }

/-- The first single child reached through `accessor`. -/
def get? (n : CaptureNode) (accessor : String) : Option CaptureNode :=
  n.children.find? fun c => !c.multiple && c.accessor == some accessor

/-- Every member of the list reached through `accessor`. -/
def group (n : CaptureNode) (accessor : String) : List CaptureNode :=
  n.children.filter fun c => c.multiple && c.accessor == some accessor

/-- Whether the node carries `tag`. -/
def hasTag (n : CaptureNode) (tag : String) : Bool :=
  n.tags.contains tag

/-- Children that carry `tag`. -/
def tagged (n : CaptureNode) (tag : String) : List CaptureNode :=
  n.children.filter (·.hasTag tag)

/-- The child at `index`. -/
def child? (n : CaptureNode) (index : Nat) : Option CaptureNode :=
  n.children[index]?

/-- What an s-expression calls a node: its accessor, else its first tag. -/
def label (accessor : Option String) (tags : List String) : String :=
  accessor.getD (tags.headD "_")

mutual

/-- A leaf is its text or its label; an inner node is its label and its children in parentheses. -/
def toSexpr : CaptureNode → String
  | { accessor, tags, text, children, .. } =>
      match children with
      | [] => text.getD (label accessor tags)
      | c :: rest => "(" ++ label accessor tags ++ sexprTail (c :: rest) ++ ")"

/-- Each node after a blank. -/
def sexprTail : List CaptureNode → String
  | [] => ""
  | c :: rest => " " ++ c.toSexpr ++ sexprTail rest

end

mutual

/-- Whether two trees are equal node by node. -/
def same : CaptureNode → CaptureNode → Bool
  | { accessor, multiple, tags, start, stop, text, children }, other =>
      accessor == other.accessor && multiple == other.multiple && tags == other.tags &&
        start == other.start && stop == other.stop && text == other.text &&
        sameAll children other.children

/-- Whether two lists of trees are equal. -/
def sameAll : List CaptureNode → List CaptureNode → Bool
  | [], [] => true
  | c :: rest, d :: others => same c d && sameAll rest others
  | _, _ => false

end

end CaptureNode

end Packrat
