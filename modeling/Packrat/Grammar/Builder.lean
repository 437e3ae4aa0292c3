import Packrat.Grammar.Term
import Packrat.Analysis.Preparation

/-!
# Builders: grammars put together rule by rule

Terms are laid out as they are added. A rule that cannot be defined is remembered and reported
when the grammar is built. The root is the rule chosen by name, or else the first rule.

* **`Builder`** — a grammar under construction.
* **`Builder.buildUnprepared`**, **`Builder.build`** — the grammar as it is, or prepared.
-/

namespace Packrat

/-- A grammar under construction. -/
structure Builder where
  grammar : Grammar := {}
  root : Option String := none
  options : PrepareOptions := {}
  /-- Why the first rule that was refused was refused; a crash comes before any refusal. -/
  fault : Option Fault := none
deriving Inhabited

/-- The fault to report after `earlier` when `e` has happened too. -/
def Fault.following (e : Fault) : Option Fault → Fault
  | none => e
  | some (.crash cause) => .crash cause
  | some earlier =>
      match e with
      | .crash cause => .crash cause
      | _ => earlier

namespace Builder

/-- Lay out a term; its id is not kept. -/
def node (b : Builder) (t : Term) : Builder :=
  { b with grammar := (t.insert b.grammar).2 }

/-- Define a rule by a term. -/
def rule (b : Builder) (name : String) (t : Term) : Builder :=
  let (id, g) := t.insert b.grammar
  match Grammar.defineRule name id g with
  | .ok _ g => { b with grammar := g }
  | .error e g => { b with grammar := g, fault := some (e.following b.fault) }

/-- Choose the rule that a parse matches. -/
def withRoot (b : Builder) (name : String) : Builder :=
  { b with root := some name }

/-- Set what is skipped after tokens. -/
def withWhitespace (b : Builder) (t : Term) : Builder :=
  let (id, g) := t.insert b.grammar
  { b with grammar := g.setWhitespace id }

/-- Set the options of preparation. -/
def withOptions (b : Builder) (options : PrepareOptions) : Builder :=
  { b with options }

/-- The expression that a parse is to match. -/
def rootId (b : Builder) : Except Fault ExprId :=
  match b.root with
  | some name =>
      match b.grammar.rule? name with
      | some id => .ok id
      | none => .error (.grammar (.missingRoot name))
  | none =>
      match b.grammar.ruleIds with
      | id :: _ => .ok id
      | [] => .error (.grammar (.missingRoot "<no rules>"))

/-- The grammar as it was put together. -/
def buildUnprepared (b : Builder) : Except Fault Grammar :=
  match b.fault with
  | some e => .error e
  | none => do return b.grammar.setRoot (← b.rootId)

/-- The grammar, prepared. -/
def build (b : Builder) : Except Fault Grammar := do
  match Grammar.prepare b.options (← b.buildUnprepared) with
  | .ok _ g => return g
  | .error e _ => throw e

end Builder

end Packrat
