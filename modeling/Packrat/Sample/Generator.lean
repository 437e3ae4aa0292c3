import Packrat.Sample.Heights
import Packrat.Sample.Words

/-!
# Generating texts from a grammar

A generator follows the expressions from the root: literals are written out, character classes and
choices pick a member, optional parts and repetitions are drawn. Below a nesting depth it leaves
out what it can and otherwise takes the alternative of least height, so that it comes to an end.
Ordered choice and predicates are not looked at, so a generated text is close to the language but
need not be in it.

* **`Generator.emit`** — characters derived from an expression.
* **`Generator.generate`** — one text from the root.
* **`Generator.mutate`**, **`Generator.generateMutated`** — a text with random edits.
-/

namespace Packrat

/-- Settings of generation. The depth and the number of repetitions are 64-bit words. -/
structure GeneratorConfig where
  /-- Nesting below which the shortest way out is taken. -/
  maxDepth : UInt64 := 6
  maxRepetitions : UInt64 := 3
  /-- Probability of taking an optional part. -/
  optionalProbability : Float := 0.5

/-- A grammar ready for generation. -/
structure Generator where
  grammar : Grammar
  config : GeneratorConfig
  heights : Array (Option Nat)

/-- Programs that draw words. -/
abbrev Drawing (σ : Type) := StateT σ (Except Fault)

namespace Generator

variable {σ : Type} [WordSource σ]

/-- A generator for a grammar. -/
def make (g : Grammar) (config : GeneratorConfig) : Except Fault Generator := do
  return { grammar := g, config, heights := ← g.heights }

/-- A number below `bound`. -/
def below (bound : Nat) : Drawing σ Nat := fun source =>
  .ok (Draw.below bound source)

/-- The first candidate of least height. -/
def shallowest (gen : Generator) : List ExprId → Option ExprId
  | [] => none
  | id :: rest =>
      some (rest.foldl (fun best next =>
        if heightLess (heightAt gen.heights next) (heightAt gen.heights best) then next
        else best) id)

/-- A character of an inclusive range, counted from its start; the start itself if the count hits
    no character. -/
def pickInRange (lo : Char) (offset : Nat) : Char :=
  if (lo.toNat + offset).isValidChar then Char.ofNat (lo.toNat + offset) else lo

/-- Derive expressions one after the other. -/
def emitAll (emit : ExprId → Drawing σ (List Char)) : List ExprId → Drawing σ (List Char)
  | [] => return []
  | id :: rest => do
      let chars ← emit id
      return chars ++ (← emitAll emit rest)

/-- Derive an expression a number of times. -/
def emitTimes (emit : Drawing σ (List Char)) : Nat → Drawing σ (List Char)
  | 0 => return []
  | n + 1 => do
      let chars ← emit
      return chars ++ (← emitTimes emit n)

/-- Derive a picked expression, if one was picked. -/
def emitPicked (emit : ExprId → Drawing σ (List Char)) : Option ExprId → Drawing σ (List Char)
  | some id => emit id
  | none => return []

/-- One more than a count, as a word; after the greatest word it is a crash. -/
def countOneMore (count : Nat) : Drawing σ Nat :=
  if count + 1 < UInt64.size then return count + 1 else throw (.crash .countOverflow)

/-- Derive at least `least` repetitions: just these below the depth, a drawn number above it. -/
def emitRepetition (gen : Generator) (emit : Drawing σ (List Char)) (deep : Bool) (least : Nat) :
    Drawing σ (List Char) := do
  let more ←
    if deep then pure 0
    else do below (← countOneMore (gen.config.maxRepetitions.toNat - least))
  emitTimes emit (least + more)

/-- Derive one shape, deriving its children with `emit`. -/
def emitShape (gen : Generator) (emit : ExprId → Drawing σ (List Char)) (deep : Bool)
    (shape : Shape ExprId) : Drawing σ (List Char) := do
  match shape with
  | .literal text => return text.toList
  | .any => return ['x']
  | .range lo hi =>
      let offset ← below (hi.toNat - lo.toNat + 1)
      return [pickInRange lo offset]
  | .set members =>
      let index ← below members.length
      return members[index]?.toList
  | .sequence items => emitAll emit items
  | .choice items =>
      if deep then emitPicked emit (gen.shallowest items)
      else
        let index ← below items.length
        emitPicked emit items[index]?
  | .optional operand =>
      if deep then return []
      else if ← fun source => .ok (Draw.chance gen.config.optionalProbability source) then
        emit operand
      else return []
  | .zeroMore operand => gen.emitRepetition (emit operand) deep 0
  | .oneMore operand => gen.emitRepetition (emit operand) deep 1
  | .lookahead _ | .not _ | .custom _ _ => return []
  | .token operand =>
      let chars ← emit operand
      if gen.grammar.whitespace.isSome then
        let coin ← below 2
        return if coin = 0 then chars ++ [' '] else chars
      else return chars
  | .capture operand _ | .leftRecursive operand _ | .minPrecedence operand _ => emit operand
  | .cluster groups =>
      if deep then emitPicked emit (gen.shallowest (groups.flatMap Group.alternatives))
      else
        let index ← below groups.length
        match groups[index]? with
        | none => return []
        | some group =>
            let index ← below group.alternatives.length
            emitPicked emit group.alternatives[index]?
  | .reference name => emitPicked emit (gen.grammar.rule? name)

/-- Derive an expression at a depth, with at most the given nesting. The depth counts the
    expressions around it that are still being derived, of which memory holds fewer than there are
    words, so it cannot overflow. -/
def emit (gen : Generator) : Nat → Nat → ExprId → Drawing σ (List Char)
  | 0, _, id => throw (.crash (.endlessDerivation id))
  | nesting + 1, depth, id =>
      match gen.grammar.shape? id with
      | none => throw (.crash (.noSuchExpr id))
      | some shape =>
          gen.emitShape (gen.emit nesting (depth + 1)) (decide (gen.config.maxDepth.toNat < depth))
            shape

/-- Characters derived from the root; past the greatest depth, heights decrease from an expression
    to what it derives, so nesting is bounded by the depth and the number of expressions. -/
def generateChars (gen : Generator) : Drawing σ (List Char) :=
  match gen.grammar.root with
  | none => return []
  | some root => gen.emit (gen.config.maxDepth.toNat + gen.grammar.size + 2) 0 root

/-- One text from the root. -/
def generate (gen : Generator) : Drawing σ String :=
  String.ofList <$> gen.generateChars

-- ── Edits ────────────────────────────────────────────────────────────────────────

/-- A list with two places exchanged. -/
def exchange (chars : List Char) (i j : Nat) : List Char :=
  match chars[i]?, chars[j]? with
  | some a, some b => (chars.set i b).set j a
  | _, _ => chars

/-- One random edit: drop, insert a question mark, exchange two places, or double a character. -/
def edit (chars : List Char) : Drawing σ (List Char) := do
  if chars.isEmpty then return ['?']
  else
    let index ← below chars.length
    match ← below 4 with
    | 0 => return chars.eraseIdx index
    | 1 => return chars.take index ++ '?' :: chars.drop index
    | 2 =>
        let other ← below chars.length
        return exchange chars index other
    | _ => return chars.take index ++ chars[index]?.toList ++ chars.drop index

/-- A number of random edits. -/
def mutate : Nat → List Char → Drawing σ (List Char)
  | 0, chars => return chars
  | n + 1, chars => do mutate n (← edit chars)

/-- One text from the root after a number of random edits. -/
def generateMutated (gen : Generator) (mutations : Nat) : Drawing σ String := do
  let chars ← gen.generateChars
  return String.ofList (← mutate mutations chars)

end Generator

end Packrat
