import Mathlib
import Packrat.Proofs.UpTo

/-! # A match depends on what it asks for

    Of one match it is said that another answer could change what comes out (`Asks`).  Here a caller
    may differ in as many matches as it likes: if it agrees wherever the caller is asked, an answer
    stays as it is (`attempt_of_asked`).

    All that is not asked for is aborted at once, and each abort leaves a note of the match it stands
    for.  If one is met after all, the note tells which was the first, and to abort that one alone
    would have come out the same: so it was asked for. -/

namespace Packrat.Engine

open Matching

variable {setting : Setting} {call other : Caller} {m m' n n' : Machine} {id i i' : ExprId}

/-- The machine with a note of an expression and of the parse state. -/
def noted (i : ExprId) (n : Machine) : Machine :=
  { n with log := .note "" i n.state n.state.fingerprint :: n.log }

/-- The machine has the note, whatever became of the parse state. -/
def Bears (m : Machine) (i : ExprId) (n : Machine) : Prop :=
  ∃ s, m = (noted i n).withState s

/-- The note tells the match. -/
theorem Bears.inj (h : Bears m i n) (h' : Bears m i' n') : i = i' ∧ n = n' := by
  obtain ⟨s, rfl⟩ := h
  obtain ⟨s', heq⟩ := h'
  obtain ⟨state, memo, failures, tally, log⟩ := n
  obtain ⟨state', memo', failures', tally', log'⟩ := n'
  simp only [noted, Machine.withState, Machine.mk.injEq, List.cons.injEq,
    LogEntry.note.injEq] at heq
  obtain ⟨-, rfl, rfl, rfl, ⟨-, rfl, rfl, -⟩, rfl⟩ := heq
  exact ⟨rfl, rfl⟩

open Classical in
/-- The caller, with some of its matches aborted. -/
noncomputable def aborting (call : Caller) (aborts : ExprId → Machine → Prop) : Caller := fun i n =>
  if aborts i n then .error (.engine (.invariant "")) (noted i n) else call i n

/-- To abort matches makes no difference up to the first of them that is met. -/
theorem attempt_aborting {aborts met : ExprId → Machine → Prop}
    (h : ∀ i n, aborting call aborts i n = other i n ∨ aborts i n ∧ met i n) (id : ExprId) :
    UpTo (fun _ m => ∃ i n, met i n ∧ Bears m i n) (attempt setting (aborting call aborts) id)
      (attempt setting other id) := by
  refine attempt_upTo ?_ setting.grammar setting.text ?_ (.refl _) id
  · rintro _ m s ⟨i, n, hmet, t, rfl⟩
    exact ⟨i, n, hmet, s, rfl⟩
  · intro i n
    rcases h i n with hsame | ⟨haborts, hmet⟩
    · exact Or.inl hsame
    · exact Or.inr ⟨_, _, if_pos haborts, i, n, hmet, n.state, rfl⟩

/-- An answer is the same over a caller that agrees wherever the first one is asked. -/
theorem attempt_of_asked {b : Bool} (hrun : attempt setting call id m = .ok b m')
    (hagree : ∀ i n, Asks (fun call => attempt setting call id) call m i n → other i n = call i n) :
    attempt setting other id m = .ok b m' := by
  classical
  let unasked : ExprId → Machine → Prop := fun i n =>
    ¬ Asks (fun call => attempt setting call id) call m i n
  have hcall : ∀ i n, aborting call unasked i n = call i n ∨ unasked i n ∧ unasked i n := by
    intro i n
    by_cases hn : unasked i n
    · exact Or.inr ⟨hn, hn⟩
    · exact Or.inl (if_neg hn)
  rcases attempt_aborting hcall id m with hsame | ⟨e, m₁, hfault, i, n, hunasked, hbears⟩
  · -- nothing is met, so whatever the other caller does instead is not met either
    have hother : ∀ i n, aborting call unasked i n = other i n ∨ unasked i n ∧ unasked i n := by
      intro i n
      by_cases hn : unasked i n
      · exact Or.inr ⟨hn, hn⟩
      · exact Or.inl ((if_neg hn).trans (hagree i n (not_not.mp hn)).symm)
    rcases attempt_aborting hother id m with hsame' | ⟨e, m₁, hfault, -⟩
    · exact hsame' ▸ hsame.trans hrun
    · cases hfault.symm.trans (hsame.trans hrun)
  · -- the match that is met first would be met first if it were aborted alone
    let alone : ExprId → Machine → Prop := fun j k => j = i ∧ k = n
    have halone : ∀ j k, aborting call unasked j k = aborting call alone j k ∨
        unasked j k ∧ (unasked j k ∧ ¬ alone j k) := by
      intro j k
      by_cases hk : alone j k
      · obtain ⟨rfl, rfl⟩ := hk
        exact Or.inl ((if_pos hunasked).trans (if_pos ⟨rfl, rfl⟩).symm)
      · by_cases hn : unasked j k
        · exact Or.inr ⟨hn, hn, hk⟩
        · exact Or.inl ((if_neg hn).trans (if_neg hk).symm)
    refine absurd ⟨aborting call alone, ?_, ?_⟩ hunasked
    · intro j k hne
      refine if_neg ?_
      rintro ⟨rfl, rfl⟩
      exact hne rfl
    · rcases attempt_aborting halone id m with hsame | ⟨e', m₂, hfault', j, k, ⟨-, hne⟩, hbears'⟩
      · show attempt setting (aborting call alone) id m ≠ attempt setting call id m
        rw [← hsame, hfault, hrun]
        rintro ⟨⟩
      · cases hfault.symm.trans hfault'
        exact absurd (hbears'.inj hbears) hne

end Packrat.Engine
