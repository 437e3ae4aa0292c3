import Packrat.Grammar.Builder

/-!
# Sample grammars

Small prepared grammars of sums and arithmetic. Numbers are captured as leaves called `num` and
every binary operator as a node named after the operator, so the s-expression of a result shows
how it nests.

* **`Sample.arithmeticCluster`** — four operators as one precedence cluster.
* **`Sample.arithmeticLeftRecursive`** — the same language with a left-recursive rule per tier.
* **`Sample.leftRecursiveSum`**, **`Sample.rightRecursiveSum`** — sums that nest to one side.
* **`Sample.ambiguousSum`** — a sum whose boundary is left-associative.
-/

namespace Packrat.Sample

/-- A captured number. -/
def number : Term :=
  ((Term.plus (.range '0' '9')).text "num").token

/-- Blanks and line ends. -/
def blanks : Term :=
  .star (.set " \t\r\n")

/-- A captured binary operation. -/
def binary (left : Term) (op : String) (right : Term) : Term :=
  (Term.seq [left, (Term.lit op).token, right]).captured op

/-- A term in parentheses. -/
def parenthesized (t : Term) : Term :=
  .seq [(Term.lit "(").token, t, (Term.lit ")").token]

/-- The grammar of a builder whose rules are known to be right. -/
def grammar (b : Builder) : Grammar :=
  match b.build with
  | .ok g => g
  | .error _ => {}

/-- Arithmetic as one cluster: `*` and `/` bind tighter than `+` and `-`, all four are
    left-associative, and parentheses reset the floor. -/
def arithmeticCluster : Grammar :=
  let expr := Term.rule "expr"
  grammar <|
    ({} : Builder)
      |>.rule "expr" (.cluster [
        { precedence := 3, kind := .once
          alternatives := [number, parenthesized expr.dropPrecedence] },
        { precedence := 2, kind := .leftAssociative
          alternatives := [binary expr "*" expr, binary expr "/" expr] },
        { precedence := 1, kind := .leftAssociative
          alternatives := [binary expr "+" expr, binary expr "-" expr] }])
      |>.withWhitespace blanks

/-- Arithmetic with one left-recursive rule per tier. -/
def arithmeticLeftRecursive : Grammar :=
  grammar <|
    ({} : Builder)
      |>.rule "sum" (.choice [
        binary (.rule "sum") "+" (.rule "product"),
        binary (.rule "sum") "-" (.rule "product"),
        .rule "product"])
      |>.rule "product" (.choice [
        binary (.rule "product") "*" (.rule "atom"),
        binary (.rule "product") "/" (.rule "atom"),
        .rule "atom"])
      |>.rule "atom" (.choice [number, parenthesized (.rule "sum")])
      |>.withWhitespace blanks

/-- Sums that nest to the left. -/
def leftRecursiveSum : Grammar :=
  grammar <|
    ({} : Builder).rule "E" (.choice [binary (.rule "E") "+" number, number])

/-- Sums that nest to the right. -/
def rightRecursiveSum : Grammar :=
  grammar <|
    ({} : Builder).rule "E" (.choice [binary number "+" (.rule "E"), number])

/-- Sums of sums, with a left-associative boundary. -/
def ambiguousSum : Grammar :=
  grammar <|
    ({} : Builder)
      |>.rule "E" (.choice [
        binary (.rule "E") "+" (.rule "E"), parenthesized (.rule "E"), number])
      |>.withOptions { leftRecursion := { inPlace := true, leftAssociative := true } }

end Packrat.Sample
