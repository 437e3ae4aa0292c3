import Mathlib
import Packrat.Proofs.Relabeling.Skipping
import Packrat.Proofs.Termination.Skipping

/-! # The nesting that skipping needs

    Skipping that answers with some nesting answers with the nesting that it is given: once for every
    expression and every position left.  No assumption on the grammar is needed.  More nesting
    lets it answer for more expressions and positions (`answered`).  What it answers for depends on
    what it answers for with one level less, so these sets grow no more once they stop to grow; and
    they are too small to grow for long (`answered_eq`). -/

namespace Packrat.Grammar

open Finset

variable {g : Grammar} {text : Text} {first nesting nesting' : Nat} {e : ExprId} {p : Nat}
variable {r : Option Nat}

/-! ## Shapes whose children are skipped alike -/

section Congruence

open FastPath

variable {step step' : ExprId → Nat → Except Fault (Option Nat)} {s : Shape ExprId}

theorem inOrder_congr {items : List ExprId} (h : ∀ i ∈ items, step i = step' i) :
    inOrder step items = inOrder step' items := by
  induction items with
  | nil => rfl
  | cons item rest ih =>
      obtain ⟨hitem, hrest⟩ := List.forall_mem_cons.mp h
      funext p
      simp only [inOrder, hitem, ih hrest]

theorem firstOf_congr {items : List ExprId} (h : ∀ i ∈ items, step i = step' i) :
    firstOf step items = firstOf step' items := by
  induction items with
  | nil => rfl
  | cons item rest ih =>
      obtain ⟨hitem, hrest⟩ := List.forall_mem_cons.mp h
      funext p
      simp only [firstOf, hitem, ih hrest]

/-- A shape is matched alike if its children are. -/
theorem matchShape_congr (h : ∀ i ∈ s.children, step i = step' i) :
    matchShape text step s = matchShape text step' s := by
  funext p
  cases s with
  | sequence items => exact congrFun (inOrder_congr h) p
  | choice items => exact congrFun (firstOf_congr h) p
  | optional e | zeroMore e | oneMore e | lookahead e | not e | capture e | minPrecedence e =>
      have he : step e = step' e := h e (List.mem_singleton_self e)
      simp only [matchShape, he]
  | _ => rfl

end Congruence

/-! ## What skipping answers for -/

/-- What skipping answers for is in the grammar. -/
theorem lt_size_of_skipWithin (h : g.skipWithin text nesting e p = .ok r) : e < g.size := by
  cases nesting with
  | zero => cases h
  | succ nesting =>
      cases hs : g.shape? e with
      | some s => exact lt_size_of_shape? hs
      | none =>
          rw [skipWithin, hs] at h
          cases h

/-- The expressions and positions that skipping answers for: the positions from `first` on, or `first`
    alone if the text has ended there. -/
def answered (g : Grammar) (text : Text) (first nesting : Nat) : Finset (ExprId × Nat) :=
  (range g.size ×ˢ Icc first (max first text.length)).filter fun a =>
    (g.skipWithin text nesting a.1 a.2).toBool

theorem mem_answered : (e, p) ∈ g.answered text first nesting ↔
    first ≤ p ∧ p ≤ max first text.length ∧ ∃ r, g.skipWithin text nesting e p = .ok r := by
  have hok : (g.skipWithin text nesting e p).toBool = true ↔
      ∃ r, g.skipWithin text nesting e p = .ok r := by
    cases g.skipWithin text nesting e p <;> simp [Except.toBool]
  rw [answered, mem_filter, mem_product, mem_range, mem_Icc, hok]
  refine ⟨fun ⟨⟨_, hfirst, hp⟩, hanswer⟩ => ⟨hfirst, hp, hanswer⟩, ?_⟩
  rintro ⟨hfirst, hp, r, hr⟩
  exact ⟨⟨lt_size_of_skipWithin hr, hfirst, hp⟩, r, hr⟩

theorem answered_mono (hle : nesting ≤ nesting') :
    g.answered text first nesting ⊆ g.answered text first nesting' := by
  rintro ⟨e, p⟩ hmem
  obtain ⟨hfirst, hp, r, hr⟩ := mem_answered.mp hmem
  exact mem_answered.mpr ⟨hfirst, hp, r, skipWithin_mono hle hr⟩

/-- What skipping answers for with one level more depends on what it answers for. -/
theorem answered_stable
    (h : g.answered text first nesting = g.answered text first (nesting + 1)) :
    g.answered text first (nesting + 1) = g.answered text first (nesting + 2) := by
  refine (answered_mono (Nat.le_succ _)).antisymm ?_
  rintro ⟨e, p⟩ hmem
  obtain ⟨hfirst, hp, r, hr⟩ := mem_answered.mp hmem
  cases hs : g.shape? e with
  | none =>
      rw [skipWithin, hs] at hr
      cases hr
  | some s =>
      rw [skipWithin, hs] at hr
      -- every answer that the children gave, they give with one level less
      have hchildren : ∀ i ∈ s.children, FastPath.Carried 0
          (fun q => first ≤ q ∧ q ≤ max first text.length) (g.skipWithin text (nesting + 1) i)
          (g.skipWithin text nesting i) := by
        rintro i - q r' ⟨hq, hle⟩ hr'
        have hmem' : (i, q) ∈ g.answered text first nesting :=
          h ▸ mem_answered.mpr ⟨hq, hle, r', hr'⟩
        obtain ⟨-, -, r'', hr''⟩ := mem_answered.mp hmem'
        obtain rfl : r'' = r' :=
          Except.ok.inj ((skipWithin_mono (Nat.le_succ _) hr'').symm.trans hr')
        refine ⟨hr''.trans (by simp), ?_⟩
        exact (skipWithin_carried g.renames_self (text.shifts_left first) le_rfl trivial q _
          ⟨hq, hle⟩ hr').2
      obtain ⟨hrun, -⟩ := FastPath.matchShape_carried (f := id) (text.shifts_left first)
        hchildren p r ⟨hfirst, hp⟩ hr
      rw [Shape.map_id] at hrun
      refine mem_answered.mpr ⟨hfirst, hp, r.map (· + 0), ?_⟩
      rw [skipWithin, hs]
      exact hrun

/-- Once for every expression and every position left is enough. -/
theorem answered_eq (hle : (text.length - first + 1) * g.size ≤ nesting) :
    g.answered text first nesting = g.answered text first ((text.length - first + 1) * g.size) := by
  have hcard : ∀ nesting, #(g.answered text first nesting) ≤ (text.length - first + 1) * g.size := by
    intro nesting
    refine (card_filter_le _ _).trans ?_
    rw [card_product, card_range, Nat.card_Icc, Nat.mul_comm]
    exact Nat.mul_le_mul_right _ (by omega)
  have hstops : ∀ nesting, #(g.answered text first nesting) = #(g.answered text first (nesting + 1)) →
      #(g.answered text first (nesting + 1)) = #(g.answered text first (nesting + 2)) := by
    intro nesting heq
    rw [← answered_stable (eq_of_subset_of_card_le (answered_mono (Nat.le_succ _)) heq.ge)]
  have hmono : Monotone fun nesting => #(g.answered text first nesting) :=
    fun _ _ h => card_le_card (answered_mono h)
  have hsame := Nat.stabilises_of_monotone hmono hcard hstops hle
  exact (eq_of_subset_of_card_le (answered_mono hle) hsame.le).symm

/-- What skipping answers with some nesting, it answers. -/
theorem skip_of_skipWithin (h : g.skipWithin text nesting e p = .ok r) :
    g.skip text e p = .ok r := by
  obtain ⟨enough, hle, hge⟩ : ∃ enough, nesting ≤ enough ∧
      (text.length - p + 1) * g.size ≤ enough := ⟨_, le_max_left .., le_max_right ..⟩
  have hrun := skipWithin_mono hle h
  have hmem : (e, p) ∈ g.answered text p ((text.length - p + 1) * g.size) :=
    answered_eq hge ▸ mem_answered.mpr ⟨le_rfl, le_max_left _ _, r, hrun⟩
  obtain ⟨-, -, r', hr'⟩ := mem_answered.mp hmem
  obtain rfl : r' = r := Except.ok.inj ((skipWithin_mono hge hr').symm.trans hrun)
  exact skipWithin_mono (Nat.le_succ _) hr'

end Packrat.Grammar
