import Packrat.Grammar.Basic
import Packrat.Text.Quoted

/-!
# Descriptions of expressions for error reports

A name describes its expression; an unnamed token, or a capture without accessor, is described by
its operand. The chain of operands may run in a circle, which is a crash: a chain longer than the
grammar has met an expression twice.

* **`Grammar.describe`** — the description of an expression.
-/

namespace Packrat.Grammar

/-- Description found by following at most `steps` expressions. -/
def describeWithin (g : Grammar) : Nat → ExprId → Except Fault String
  | 0, id => .error (.crash (.endlessDescription id))
  | steps + 1, id =>
      match g.node? id with
      | none => .error (.crash (.noSuchExpr id))
      | some e =>
          match e.name with
          | some name => .ok name
          | none =>
              match e.shape with
              | .literal text => .ok (Quoted.string text)
              | .any => .ok "any character"
              | .range lo hi => .ok ("[" ++ Quoted.char lo ++ "-" ++ Quoted.char hi ++ "]")
              | .set members => .ok ("[" ++ String.ofList members ++ "]")
              | .token operand => g.describeWithin steps operand
              | .capture operand mode =>
                  match mode.accessor with
                  | some accessor => .ok accessor
                  | none => g.describeWithin steps operand
              | .reference name => .ok name
              | .custom spec _ => .ok spec.description
              | shape => .ok s!"{shape.kindName} #{id}"

/-- Human-readable description of the expression at `id`. -/
def describe (g : Grammar) (id : ExprId) : Except Fault String :=
  g.describeWithin (g.size + 1) id

/-- The inner form of a custom expression, as a record; other expressions have none. -/
def inspectCustom (shape : Shape ExprId) : Option String :=
  match shape with
  | .custom spec children =>
      let ids := ", ".intercalate (children.map fun id => s!"ExprId({id})")
      let nullable :=
        match spec.nullable with
        | .yes => "Yes"
        | .no => "No"
        | .allChildren => "AllChildren"
        | .anyChild => "AnyChild"
      some ("CustomExpr \x7b description: " ++ Quoted.string spec.description ++
        ", children: [" ++ ids ++ "], nullability: " ++ nullable ++ ", .. \x7d")
  | _ => none

end Packrat.Grammar
