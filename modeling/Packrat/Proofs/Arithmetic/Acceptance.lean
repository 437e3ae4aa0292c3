import Packrat.Proofs.Arithmetic.Cluster
import Packrat.Proofs.Arithmetic.Expressions
import Packrat.Proofs.Termination.Parses
import Packrat.Proofs.Transparency.Extensions

/-! # Expressions are matched by the cluster

    What a parse without a memo table shows is what a sum finds (`Cluster.parseWith_arith`), and an
    expression is found as a sum, all of it.  Such a parse has a result within limits that are wide
    enough (`exists_result`).  Every other parse with a result ends where that one does, whatever it
    memoizes and records and whatever its limits are (`parseWith_ends_alike`). -/

namespace Packrat.Arithmetic

open Relation Engine Matching

/-! ## Parses with a result -/

/-- Neither a name nor custom. -/
def isBuiltIn : Shape ExprId → Bool
  | .reference _ | .custom _ _ => false
  | _ => true

/-- The expressions below the cluster. -/
def below : List ExprId :=
  [0, 1, 2, 3, 4, 5, 7, 8, 9, 10, 12, 13, 15, 16, 18, 19, 21, 22, 24, 25, 27, 28, 30, 31, 33, 34,
    35]

/-- Neither a reference nor a custom node is below the cluster. -/
theorem builtIn_of_below {id : ExprId} {s : Shape ExprId}
    (h : ReflTransGen climbing.Child Cluster.cluster id) (hs : climbing.shape? id = some s) :
    isBuiltIn s = true := by
  have hclosed : ∀ i ∈ below, ∀ s ∈ climbing.shape? i, ∀ child ∈ s.children, child ∈ below := by
    decide
  have hbuiltIn : ∀ i ∈ below, ∀ s ∈ climbing.shape? i, isBuiltIn s = true := by decide
  have hbelow : id ∈ below := by
    clear hs
    induction h with
    | refl => decide
    | tail _ hchild ih =>
        obtain ⟨s, hs, hmem⟩ := hchild
        exact hclosed _ ih s hs _ hmem
  exact hbuiltIn id hbelow s hs

/-- But for the cluster, an expression is numbered after those that it begins with. -/
def order (id : ExprId) : Nat :=
  if id = Cluster.cluster then 0 else id + 1

/-- The order descends from what is no boundary to each operand that it may begin with. -/
theorem order_lt_of_bareEdge {u v : ExprId} (h : climbing.BareEdge climbingNullability u v) :
    order v < order u := by
  obtain ⟨⟨children, hchildren, hv⟩, hbare⟩ := h
  have hedges : ∀ u < climbing.size, climbing.isBoundary u = false →
      ∀ v ∈ (climbing.firsts? climbingNullability u).getD [], order v < order u := by
    decide
  have hu : u < climbing.size := Grammar.lt_size_of_firsts? (Option.isSome_of_eq_some hchildren)
  exact hedges u hu hbare v (by rw [hchildren]; exact hv)

/-- So no chain of operands in place comes back to where it began without passing the cluster. -/
theorem guarded_climbing : climbing.Guarded climbingNullability Cluster.cluster := by
  refine ⟨nullability_climbing, by decide, ?_, ?_, Grammar.cycles_broken_iff.mpr ?_, ?_⟩
  · intro id name h hs
    cases builtIn_of_below h hs
  · intro id spec children h hs
    cases builtIn_of_below h hs
  · have hfalls : ∀ u v, TransGen (climbing.BareEdge climbingNullability) u v →
        order v < order u := by
      intro u v h
      induction h with
      | single hedge => exact order_lt_of_bareEdge hedge
      | tail _ hedge ih => exact (order_lt_of_bareEdge hedge).trans ih
    exact fun v hcycle => Nat.lt_irrefl _ (hfalls v v hcycle)
  · rintro ws ⟨⟩
    cbv

/-- Matching the cluster runs built-in nodes alone. -/
theorem customFree_climbing : climbing.CustomFree Cluster.cluster :=
  fun id h spec children => guarded_climbing.custom id spec children h

/-- A parse has a result if its steps are not limited and matches may nest as deep as the text
    needs. -/
theorem exists_result {source : String} {c : Config} (hsteps : c.maxSteps = none)
    (hdepth : ((Text.ofString source).length + 1) * climbing.span ≤ c.maxDepth) :
    ∃ r, (parseWith climbing c source).outcome = .ok r := by
  let p : Parser := ⟨climbing, Cluster.cluster, c⟩
  have hsheltered : climbing.Sheltered climbingNullability Cluster.cluster False :=
    guarded_climbing.sheltered
  have hserves := invoke_ending hsheltered (.ofString source) c id (.inr hsteps) c.maxDepth
  have htwins := hserves.told Cluster.cluster (.initial c) (ready_initial climbing c)
    (Protocol.ending_initial c) (asked_initial hsheltered c (.inr hdepth))
  cases hrun : p.run (.ofString source) with
  | error e m => exact (htwins.fault hrun).elim
  | ok b m =>
      obtain ⟨r, hr⟩ := p.conclude_answers guarded_climbing.describes b
        (htwins.answer hrun).keeps.recorded
      refine ⟨r, ?_⟩
      show (p.parse source).outcome = _
      rw [Parser.parse, hrun]
      exact hr

/-! ## Expressions -/

/-- Every parse of an expression that has a result matches the whole text. -/
theorem matched_of_expression {source : String} (hexpression : Expression source.toList)
    {c : Config} {r : ParseResult} (h : (parseWith climbing c source).outcome = .ok r) :
    r.matched = true ∧ r.stop = (Text.ofString source).length := by
  let c₀ : Config :=
    { memoization := .none, maxDepth := ((Text.ofString source).length + 1) * climbing.span }
  obtain ⟨r₀, h₀⟩ : ∃ r, (parseWith climbing c₀ source).outcome = .ok r :=
    exists_result rfl le_rfl
  obtain ⟨o, harith, hshows⟩ := Cluster.parseWith_arith rfl h₀
  obtain ⟨f, hsum, hstop⟩ := hexpression.sum
  obtain rfl := harith.unique (LeftRecursive.lexer_proper _) hsum
  obtain ⟨hmatched, hends⟩ := parseWith_ends_alike rfl customFree_climbing h h₀
  refine ⟨?_, ?_⟩
  · rw [hmatched, hshows.matched]
    simp [hstop]
  · rw [hends, hshows.stop]
    exact hstop

end Packrat.Arithmetic
