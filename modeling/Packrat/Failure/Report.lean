import Packrat.Text
import Packrat.Grammar.Describe

/-!
# Failure reports

Failures of expressions that record errors are collected while a text is matched. Of them the
ones at the farthest position tell best what was expected there. A report gives that position with
its line and column and the descriptions of the expressions that failed, in order and each once.

* **`Farthest.record`** — keep the failures at the farthest position.
* **`Report.make`** — a report from descriptions.
* **`Report.phrase`**, **`Report.display`** — the expectation as prose, and the whole report.
-/

namespace Packrat

/-- Failures at the farthest position, in the order in which they were recorded. -/
structure Farthest where
  position : Option Nat := none
  failed : List ExprId := []
deriving DecidableEq, Inhabited, Repr

/-- Record that `id` failed at a position. -/
def Farthest.record (f : Farthest) (id : ExprId) (position : Nat) : Farthest :=
  match f.position with
  | none => { position := some position, failed := [id] }
  | some farthest =>
      if position < farthest then f
      else if position = farthest then
        if f.failed.contains id then f else { f with failed := f.failed ++ [id] }
      else { position := some position, failed := [id] }

/-- What was expected at the farthest failure. -/
structure Report where
  position : Nat
  line : Nat
  column : Nat
  /-- Descriptions in increasing order, each once. -/
  expected : List String
deriving DecidableEq, Inhabited, Repr

/-- Insert a text into an increasing list of texts. -/
def insertText (s : String) : List String → List String
  | [] => [s]
  | t :: rest =>
      if s = t then t :: rest
      else if s < t then s :: t :: rest
      else t :: insertText s rest

/-- Texts in increasing order, each once. -/
def sortTexts (texts : List String) : List String :=
  texts.foldr insertText []

/-- Alternatives as prose. -/
def alternatives : List String → String
  | [] => "nothing"
  | [a] => a
  | [a, b] => s!"{a} or {b}"
  | several => ", ".intercalate several.dropLast ++ ", or " ++ several.getLastD ""

namespace Report

/-- The report of an expectation at a position. -/
def make (text : Text) (position : Nat) (expected : List String) : Report :=
  let (line, column) := text.lineCol position
  { position, line, column, expected := sortTexts expected }

/-- The expectation as prose. -/
def phrase (r : Report) : String :=
  alternatives r.expected

/-- The report as one sentence. -/
def display (r : Report) : String :=
  "failed to match any of: \x7b" ++ ", ".intercalate r.expected ++
    s!"\x7d at line {r.line}, column {r.column} (offset {r.position})"

end Report

/-- The report of the farthest failures, if there is one. -/
def Farthest.report (f : Farthest) (g : Grammar) (text : Text) : Except Fault (Option Report) :=
  match f.position with
  | none => .ok none
  | some position => do
      let expected ← f.failed.mapM g.describe
      return some (Report.make text position expected)

end Packrat
