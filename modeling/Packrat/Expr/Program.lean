import Packrat.State.Basic
import Packrat.Text

/-!
# Programs of custom expressions

A custom expression runs a program at the current position. Instructions run in order; one that
fails makes the whole program fail, and running off the end succeeds. Children are named by their
index among the children of the expression, slots by their index among the slots of the parse.

What a program does next may depend on all that it can see, which is the text and the parse state.
So a program is a tree: it branches on what it sees and on whether an expression matched. It does not
see an error: a child that ends in one ends the program, and the parse with it.

* **`Instr`** — the instructions.
* **`NullableRule`** — what the author of a custom expression declares about matching nothing.
* **`Custom`** — description, declaration and program.
-/

namespace Packrat

/-- One instruction of a custom expression.  Where a child is matched, an engine error of the child
    always ends the program with that error: whether the child matched or failed is all that comes
    back, and no instruction handles an error and goes on. -/
inductive Instr where
  /-- Skip a number of characters. -/
  | advance (count : Nat)
  /-- Move to a position that is neither behind nor past the end. -/
  | goTo (position : Nat)
  /-- Match a child; fail if it fails. -/
  | call (child : Nat)
  /-- Match any expression of the grammar; fail if it fails. -/
  | callExpr (id : Nat)
  /-- Match a child and ignore whether it fails. -/
  | attempt (child : Nat)
  /-- Match a child until it fails or stays in place. -/
  | repeated (child : Nat)
  /-- Match a child, then run the first program if it matched and the second if not. -/
  | branch (child : Nat) (onMatch onFail : List Instr)
  /-- Run the program if the position is the given one. -/
  | atPosition (position : Nat) (body : List Instr)
  /-- Skip the longest run of the given characters; fail if it is empty. -/
  | take (members : List Char)
  /-- Fail unless the input is used up. -/
  | atEnd
  /-- Fail if the input is used up. -/
  | beforeEnd
  /-- Fail. -/
  | fail
  /-- Abort the parse with an extension error. -/
  | abortExtension (message : String)
  /-- Abort the parse with an invariant error. -/
  | abortInvariant (message : String)
  /-- Append a name to a list of names. -/
  | pushName (slot : Nat) (name : String)
  /-- Skip the longest run of the given characters and append it to a list of names. -/
  | pushRun (slot : Nat) (members : List Char)
  /-- Skip the longest run of the given characters if it is in a list of names. -/
  | knownRun (slot : Nat) (members : List Char)
  /-- Add to a counter. -/
  | increase (slot amount : Nat)
  /-- Fail unless a counter has reached the amount. -/
  | countAtLeast (slot amount : Nat)
  /-- Write the current state to the log. -/
  | note (label : String)
  /-- Run the program that is chosen in view of the text and the parse state. -/
  | observe (choose : Text → ParseState → List Instr)

/-- Declared nullability of a custom expression. -/
inductive NullableRule where
  | yes
  | no
  /-- Nullable when every child is. -/
  | allChildren
  /-- Nullable when some child is. -/
  | anyChild
deriving DecidableEq, Inhabited, Repr

/-- What makes up a custom expression besides its children. -/
structure Custom where
  description : String
  nullable : NullableRule := .no
  program : List Instr := []

end Packrat
