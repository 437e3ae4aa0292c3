import Packrat.Proofs.Arithmetic.Cluster

/-! # Both grammars of arithmetic agree

    Parses with either grammar show what a sum at the start of the text finds, and there is only one
    thing it can find. -/

namespace Packrat.Arithmetic

/-- Climbing precedence levels and a left-recursive rule per tier build the same tree. -/
theorem parseWith_cluster_eq_leftRecursive {c c' : Config} (hc : c.memoization = .none)
    (hc' : c'.memoization = .none) {source : String} {r r' : ParseResult}
    (h : (parseWith Sample.arithmeticCluster c source).outcome = .ok r)
    (h' : (parseWith Sample.arithmeticLeftRecursive c' source).outcome = .ok r') :
    r.matched = r'.matched ∧ r.succeeded = r'.succeeded ∧ r.stop = r'.stop ∧ r.tree = r'.tree := by
  rw [arithmeticCluster_eq] at h
  rw [arithmeticLeftRecursive_eq] at h'
  obtain ⟨o, harith, hshows⟩ := Cluster.parseWith_arith hc h
  obtain ⟨o', harith', hshows'⟩ := LeftRecursive.parseWith_arith hc' h'
  obtain rfl := harith.unique (LeftRecursive.lexer_proper _) harith'
  exact hshows.agree hshows'

theorem parseWith_cluster_eq_leftRecursive_nested :
    ∃ r r', (parseWith Sample.arithmeticCluster { memoization := .none } "8-4/2*(3+1) -1)").outcome
        = .ok r ∧
      (parseWith Sample.arithmeticLeftRecursive { memoization := .none } "8-4/2*(3+1) -1)").outcome
        = .ok r' ∧
      r.stop = 14 ∧ r.matched = r'.matched ∧ r.succeeded = r'.succeeded ∧ r.stop = r'.stop ∧
      r.tree = r'.tree := by
  obtain ⟨r, h, hstop⟩ := exists_of_toOption (f := ParseResult.stop) (b := 14)
    (x := (parseWith climbing { memoization := .none } "8-4/2*(3+1) -1)").outcome)
    (by decide +kernel)
  obtain ⟨r', h', -⟩ := exists_of_toOption (f := ParseResult.stop) (b := 14)
    (x := (parseWith tiered { memoization := .none } "8-4/2*(3+1) -1)").outcome)
    (by decide +kernel)
  rw [← arithmeticCluster_eq] at h
  rw [← arithmeticLeftRecursive_eq] at h'
  exact ⟨r, r', h, h', hstop, parseWith_cluster_eq_leftRecursive rfl rfl h h'⟩

end Packrat.Arithmetic
