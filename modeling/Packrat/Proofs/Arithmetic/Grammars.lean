import Mathlib
import Packrat.Proofs.Preparation.Idempotence
import Packrat.Sample.Grammars

/-! # Two grammars of arithmetic

    The grammars as they are prepared, node by node: one with a left-recursive rule per tier, and one
    with a single cluster. -/

namespace Packrat.Arithmetic

/-- The grammar with a rule per tier. -/
def tiered : Grammar :=
  { nodes := #[.ofShape (.reference "sum"), .ofShape (.literal "+"), .ofShape (.token 1),
      .ofShape (.reference "product"), .ofShape (.sequence [13, 2, 27]),
      .ofShape (.capture 4 (.node "+")), .ofShape (.reference "sum"), .ofShape (.literal "-"),
      .ofShape (.token 7), .ofShape (.reference "product"), .ofShape (.sequence [13, 8, 27]),
      .ofShape (.capture 10 (.node "-")), .ofShape (.reference "product"),
      { name := some "sum", shape := .leftRecursive 41 false, flags := .rule },
      .ofShape (.reference "product"), .ofShape (.literal "*"), .ofShape (.token 15),
      .ofShape (.reference "atom"), .ofShape (.sequence [27, 16, 38]),
      .ofShape (.capture 18 (.node "*")), .ofShape (.reference "product"), .ofShape (.literal "/"),
      .ofShape (.token 21), .ofShape (.reference "atom"), .ofShape (.sequence [27, 22, 38]),
      .ofShape (.capture 24 (.node "/")), .ofShape (.reference "atom"),
      { name := some "product", shape := .leftRecursive 42 false, flags := .rule },
      .ofShape (.range '0' '9'), .ofShape (.oneMore 28), .ofShape (.capture 29 (.text "num")),
      .ofShape (.token 30), .ofShape (.literal "("), .ofShape (.token 32),
      .ofShape (.reference "sum"), .ofShape (.literal ")"), .ofShape (.token 35),
      .ofShape (.sequence [33, 13, 36]),
      { name := some "atom", shape := .choice [31, 37], flags := .rule },
      .ofShape (.set [' ', '\t', '\r', '\n']), .ofShape (.zeroMore 39),
      .ofShape (.choice [5, 11, 27]), .ofShape (.choice [19, 25, 38])]
    rules := [("sum", 13), ("product", 27), ("atom", 38)]
    root := some 13
    whitespace := some 40
    prepared := true }

/-- Only its blanks are nullable. -/
def tieredNullability : Nullability :=
  ⟨(Array.replicate 43 false).set! 40 true⟩

set_option maxRecDepth 10000 in
/-- Of the prepared tiers only the blanks are nullable. -/
theorem nullability_tiered : tiered.nullability = .ok tieredNullability := by
  cbv

/-- The rules per tier before they are checked. -/
def unchecked : Grammar :=
  { tiered with prepared := false }

/-- The rules per tier before their left recursion is broken. -/
def recursive : Grammar :=
  { tiered with
    nodes := ((tiered.nodes.extract 0 41).set! 13
      { name := some "sum", shape := .choice [5, 11, 27], flags := .rule }).set! 27
      { name := some "product", shape := .choice [19, 25, 38], flags := .rule }
    prepared := false }

/-- Only their blanks are nullable. -/
def recursiveNullability : Nullability :=
  ⟨(Array.replicate 41 false).set! 40 true⟩

set_option maxRecDepth 10000 in
theorem nullability_recursive : recursive.nullability = .ok recursiveNullability := by
  cbv

/-- The rules per tier before their references are resolved. -/
def referring : Grammar :=
  { recursive with
    nodes := (((((((recursive.nodes.set! 4 (.ofShape (.sequence [0, 2, 3]))).set! 10
      (.ofShape (.sequence [6, 8, 9]))).set! 13
      { name := some "sum", shape := .choice [5, 11, 12], flags := .rule }).set! 18
      (.ofShape (.sequence [14, 16, 17]))).set! 24 (.ofShape (.sequence [20, 22, 23]))).set! 27
      { name := some "product", shape := .choice [19, 25, 26], flags := .rule }).set! 37
      (.ofShape (.sequence [33, 34, 36]))) }

/-- A sample is known once its arena was built and prepared, each by evaluation. -/
theorem grammar_of_prepare {b : Builder} {options : PrepareOptions} {g₀ g : Grammar}
    {report : PrepareReport} (hbuild : b.buildUnprepared = .ok g₀) (hoptions : b.options = options)
    (h : Grammar.prepare options g₀ = .ok report g) : Sample.grammar b = g := by
  have hbuilt : b.build = .ok g := by
    rw [Builder.build, hbuild, hoptions]
    simp only [bind, Except.bind, h]
    rfl
  rw [Sample.grammar, hbuilt]

-- pass by pass: the passes together are too much to evaluate at once
set_option maxRecDepth 10000 in
/-- The prepared tiers, node by node. -/
theorem arithmeticLeftRecursive_eq : Sample.arithmeticLeftRecursive = tiered := by
  have hresolve : Grammar.resolveReferences ({} : PrepareOptions).referenceChainLimit referring =
      .ok 11 recursive := by
    cbv
  have hbreak : Grammar.breakAsAsked {} recursiveNullability recursive =
      .ok [13, 27] unchecked := by
    cbv
  have hafter : unchecked.nullability = .ok tieredNullability :=
    (Grammar.nullability_mark tiered false).trans nullability_tiered
  have hvalid : unchecked.validate tieredNullability {} = .ok () := by
    cbv
  have hprepare : Grammar.prepare {} referring =
      .ok ⟨11, [13, 27], tieredNullability.count⟩ { unchecked with prepared := true } :=
    Grammar.prepare_of_passes rfl hresolve nullability_recursive hbreak hafter hvalid
  exact grammar_of_prepare (by cbv) (by cbv) hprepare

/-- The grammar with a cluster. -/
def climbing : Grammar :=
  { nodes := #[.ofShape (.range '0' '9'), .ofShape (.oneMore 0), .ofShape (.capture 1 (.text "num")),
      .ofShape (.token 2), .ofShape (.literal "("), .ofShape (.token 4),
      .ofShape (.reference "expr"), .ofShape (.minPrecedence 35 0), .ofShape (.literal ")"),
      .ofShape (.token 8), .ofShape (.sequence [5, 7, 9]), .ofShape (.reference "expr"),
      .ofShape (.literal "*"), .ofShape (.token 12), .ofShape (.reference "expr"),
      .ofShape (.sequence [35, 13, 35]), .ofShape (.capture 15 (.node "*")),
      .ofShape (.reference "expr"), .ofShape (.literal "/"), .ofShape (.token 18),
      .ofShape (.reference "expr"), .ofShape (.sequence [35, 19, 35]),
      .ofShape (.capture 21 (.node "/")), .ofShape (.reference "expr"), .ofShape (.literal "+"),
      .ofShape (.token 24), .ofShape (.reference "expr"), .ofShape (.sequence [35, 25, 35]),
      .ofShape (.capture 27 (.node "+")), .ofShape (.reference "expr"), .ofShape (.literal "-"),
      .ofShape (.token 30), .ofShape (.reference "expr"), .ofShape (.sequence [35, 31, 35]),
      .ofShape (.capture 33 (.node "-")),
      { name := some "expr"
        shape := .cluster [
          { precedence := 3, kind := .once, alternatives := [3, 10] },
          { precedence := 2, kind := .leftAssociative, alternatives := [16, 22] },
          { precedence := 1, kind := .leftAssociative, alternatives := [28, 34] }]
        flags := .rule },
      .ofShape (.set [' ', '\t', '\r', '\n']), .ofShape (.zeroMore 36)]
    rules := [("expr", 35)]
    root := some 35
    whitespace := some 37
    prepared := true }

set_option maxRecDepth 10000 in
/-- The prepared cluster, node by node. -/
theorem arithmeticCluster_eq : Sample.arithmeticCluster = climbing := by
  cbv

/-- Only its blanks are nullable. -/
def climbingNullability : Nullability :=
  ⟨(Array.replicate 38 false).set! 37 true⟩

set_option maxRecDepth 10000 in
theorem nullability_climbing : climbing.nullability = .ok climbingNullability := by
  cbv

end Packrat.Arithmetic
