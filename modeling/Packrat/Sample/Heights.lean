import Packrat.Grammar.Basic

/-!
# Heights of smallest derivations

A derivation of an expression picks an alternative of every choice and every item of a sequence.
The height of an expression is that of its smallest derivation; an expression that only leads to
itself has none. Expressions start without heights, and the heights of all are lowered in turn, in
place, until nothing changes.

* **`HeightRule`** — how a height follows from those of the children.
* **`Grammar.settleHeights`** — heights lowered until they stay as they are.
* **`Grammar.heights`** — the height of every expression.
-/

namespace Packrat

/-- How the height of an expression follows from heights of others. -/
inductive HeightRule where
  /-- One more than the greatest, or one if there is none. -/
  | deepest (ids : List ExprId)
  /-- One more than the least, or one if there is none. -/
  | shallowest (ids : List ExprId)
deriving DecidableEq, Inhabited, Repr

/-- The expressions that a rule asks for. -/
def HeightRule.ids : HeightRule → List ExprId
  | .deepest ids | .shallowest ids => ids

/-- Whether the first height is less; no height is the greatest. -/
def heightLess : Option Nat → Option Nat → Bool
  | some a, some b => decide (a < b)
  | some _, none => true
  | none, _ => false

/-- The greater of two heights. -/
def heightMax (a b : Option Nat) : Option Nat :=
  if heightLess a b then b else a

/-- The lesser of two heights. -/
def heightMin (a b : Option Nat) : Option Nat :=
  if heightLess b a then b else a

/-- The height by a rule. -/
def HeightRule.apply (height : ExprId → Option Nat) : HeightRule → Option Nat
  | .deepest ids => ((ids.map height).foldl heightMax (some 0)).map (· + 1)
  | .shallowest [] => some 1
  | .shallowest (id :: ids) => ((ids.map height).foldl heightMin (height id)).map (· + 1)

namespace Grammar

/-- The height rule of a shape. Nothing is derived from what may be left out, from predicates and
    from custom expressions. -/
def heightRule (g : Grammar) (shape : Shape ExprId) : HeightRule :=
  match shape with
  | .literal _ | .any | .range _ _ | .set _ | .optional _ | .zeroMore _ | .lookahead _ | .not _
  | .custom _ _ => .deepest []
  | .sequence items => .deepest items
  | .choice items => .shallowest items
  | .oneMore e | .token e | .capture e _ | .leftRecursive e _ | .minPrecedence e _ => .deepest [e]
  | .cluster groups => .shallowest (groups.flatMap Group.alternatives)
  | .reference name => .deepest (g.rule? name).toList

end Grammar

-- ── Lowering heights ─────────────────────────────────────────────────────────────

/-- The height of an expression in a table; there is none outside the table. -/
def heightAt (heights : Array (Option Nat)) (id : ExprId) : Option Nat :=
  heights.getD id none

/-- Number of expressions without a height, and the sum of the other heights. -/
def heightSlack (heights : List (Option Nat)) : Nat × Nat :=
  (heights.countP Option.isNone, heights.foldr (fun height total => height.getD 0 + total) 0)

/-- Whether the slack of the first table is less: it has fewer expressions without a height, or as
    many and a lesser sum. -/
def Slacker (heights heights' : List (Option Nat)) : Prop :=
  (heightSlack heights).1 < (heightSlack heights').1 ∨
    (heightSlack heights).1 = (heightSlack heights').1 ∧
      (heightSlack heights).2 < (heightSlack heights').2

/-- Lowering one height lessens the slack. -/
theorem slacker_set {heights : List (Option Nat)} {index : Nat} {old new : Option Nat}
    (hold : heights[index]? = some old) (hless : heightLess new old = true) :
    Slacker (heights.set index new) heights := by
  induction heights generalizing index with
  | nil => cases hold
  | cons first rest ih =>
      cases index with
      | zero =>
          obtain rfl : first = old := by simpa using hold
          cases new <;> cases first <;> simp [heightLess, Slacker, heightSlack] at hless ⊢
          all_goals omega
      | succ index =>
          have hrest : Slacker (rest.set index new) rest := ih (by simpa using hold)
          simp only [Slacker, heightSlack, List.set_cons_succ, List.countP_cons,
            List.foldr_cons] at hrest ⊢
          omega

namespace Grammar

/-- Lower the height of an expression to what its rule gives, if that is less. -/
def lowerHeight (g : Grammar) (heights : Array (Option Nat)) (id : ExprId) :
    Array (Option Nat) :=
  match g.shape? id with
  | none => heights
  | some shape =>
      let height := (g.heightRule shape).apply (heightAt heights)
      if heightLess height (heightAt heights id) then heights.setIfInBounds id height else heights

/-- Lower the height of every expression in turn. -/
def sweepHeights (g : Grammar) (heights : Array (Option Nat)) : Array (Option Nat) :=
  g.ids.foldl g.lowerHeight heights

theorem lowerHeight_slacker (g : Grammar) (heights : Array (Option Nat)) (id : ExprId) :
    g.lowerHeight heights id = heights ∨
      Slacker (g.lowerHeight heights id).toList heights.toList := by
  rw [lowerHeight]
  split
  · exact .inl rfl
  · dsimp only
    split
    · rename_i hless
      by_cases hid : id < heights.size
      · refine .inr ?_
        rw [Array.toList_setIfInBounds]
        exact slacker_set (by simp [heightAt, hid]) hless
      · exact .inl (Array.setIfInBounds_eq_of_size_le (Nat.le_of_not_lt hid))
    · exact .inl rfl

/-- Changing heights lessens the slack. -/
theorem foldl_lowerHeight_slacker (g : Grammar) (ids : List ExprId)
    (heights : Array (Option Nat)) :
    ids.foldl g.lowerHeight heights = heights ∨
      Slacker (ids.foldl g.lowerHeight heights).toList heights.toList := by
  induction ids generalizing heights with
  | nil => exact .inl rfl
  | cons id rest ih =>
      rw [List.foldl_cons]
      rcases g.lowerHeight_slacker heights id with hstep | hstep
      · rw [hstep]
        exact ih heights
      · refine .inr ?_
        rcases ih (g.lowerHeight heights id) with hrest | hrest
        · rw [hrest]
          exact hstep
        · simp only [Slacker] at hstep hrest ⊢
          omega

/-- Sweep until nothing changes. -/
def settleHeights (g : Grammar) (heights : Array (Option Nat)) : Array (Option Nat) :=
  let swept := g.sweepHeights heights
  if swept = heights then heights else g.settleHeights swept
termination_by heightSlack heights.toList
decreasing_by
  rename_i hchanged
  rcases g.foldl_lowerHeight_slacker g.ids heights with hsame | hfewer | ⟨hasMany, hless⟩
  · exact absurd hsame hchanged
  · exact Prod.Lex.left _ _ hfewer
  · exact Prod.Lex.right' _ (Nat.le_of_eq hasMany) hless

/-- The height of every expression; a rule that asks for an id outside the grammar is a crash. -/
def heights (g : Grammar) : Except Fault (Array (Option Nat)) :=
  match (g.nodes.toList.flatMap fun e => (g.heightRule e.shape).ids).find? (g.size ≤ ·) with
  | some id => .error (.crash (.noSuchExpr id))
  | none => .ok (g.settleHeights (Array.replicate g.size none))

end Grammar

end Packrat
