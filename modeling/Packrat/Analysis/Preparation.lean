import Packrat.Grammar.Describe
import Packrat.Analysis.References
import Packrat.Analysis.LeftRecursion
import Packrat.Analysis.FastPath

/-!
# Preparation: a grammar made ready for parsing

Preparation resolves references, decides nullability, breaks left recursion and refuses what the
engine cannot run; then it marks the grammar as prepared. A fault leaves the changes made so far.

* **`Grammar.validate`** — the checks, in a fixed order.
* **`Grammar.prepare`** — all passes, with a report of what they did.
-/

namespace Packrat

/-- Options of preparation. -/
structure PrepareOptions where
  /-- Hops allowed from a reference to a node that is none. -/
  referenceChainLimit : Nat := 100
  leftRecursion : LeftRecursionOptions := {}
  /-- Refuse a repetition of something nullable. -/
  rejectNullableRepetition : Bool := true
deriving DecidableEq, Inhabited, Repr

/-- What preparation did. -/
structure PrepareReport where
  /-- Edges redirected. -/
  references : Nat
  /-- Nodes wrapped into boundaries. -/
  leftRecursive : List ExprId
  /-- Number of nullable expressions afterwards. -/
  nullable : Nat
deriving DecidableEq, Inhabited, Repr

/-- The precedence shared by the first two neighbouring groups that share one. -/
def Group.sharedPrecedence? {α : Type} : List (Group α) → Option Precedence
  | a :: b :: rest =>
      if a.precedence = b.precedence then some a.precedence else sharedPrecedence? (b :: rest)
  | _ => none

namespace Grammar

/-- Check one reachable node. -/
def validateNode (g : Grammar) (n : Nullability) (options : PrepareOptions) (id : ExprId) :
    Except Fault Unit := do
  match (← g.node id).shape with
  | .reference name => throw (.grammar (.unresolvedReference name))
  | .zeroMore operand | .oneMore operand =>
      if options.rejectNullableRepetition && n.isNullable operand then
        throw (.grammar (.nullableRepetition (← g.describe id)))
  | .cluster groups =>
      match Group.sharedPrecedence? groups with
      | some precedence => throw (.grammar (.ambiguousPrecedence (← g.describe id) precedence))
      | none => return ()
  | _ => return ()

/-- Check the whitespace expression. -/
def validateWhitespace (g : Grammar) : Except Fault Unit := do
  match g.whitespace with
  | none => return ()
  | some whitespace =>
      match ← g.fastPathCulprit whitespace with
      | none => return ()
      | some culprit => throw (.grammar (.whitespaceUnsupported (← g.node culprit).shape.kindName))

/-- Check a resolved grammar before it is handed to the engine. -/
def validate (g : Grammar) (n : Nullability) (options : PrepareOptions) : Except Fault Unit := do
  if g.root.isNone then throw (.grammar (.missingRoot "<unset>"))
  (← g.reachable).forM (g.validateNode n options)
  g.validateWhitespace
  match ← g.detectLeftRecursion n with
  | [] => return ()
  | cycle :: _ => throw (.grammar (.unbrokenLeftRecursion (← g.describe cycle)))

/-- Run every pass and mark the grammar as prepared. -/
def prepare (options : PrepareOptions) : Edit PrepareReport := do
  if (← get).root.isNone then throw (.grammar (.missingRoot "<unset>"))
  let references ← resolveReferences options.referenceChainLimit
  let before ← Edit.reading Grammar.nullability
  let leftRecursive ←
    if options.leftRecursion.inPlace then breakLeftRecursion before options.leftRecursion
    else pure []
  let after ← Edit.reading Grammar.nullability
  Edit.reading fun g => g.validate after options
  modify fun g => { g with prepared := true }
  return { references, leftRecursive, nullable := after.count }

end Grammar

end Packrat
