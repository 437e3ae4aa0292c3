import Mathlib
import Packrat.Proofs.Sums.Language

/-! # Which sums in parentheses are phrases

    Parentheses swap free for blocked.  So of the pairs of parentheses around a sum only the parity
    counts: a free boundary reads the sum in an even number of pairs just as it reads it bare, and
    in an odd number it reads no sum at all.  Sentences are balanced, and that is why the first
    parenthesis is closed by the last.

    * **`Sentence.balanced`** — the parentheses of a sentence match.
    * **`phrase_enclosed_sum`** — a sum in parentheses is a phrase if and only if they come in an
      even number and the sum is one. -/

namespace Packrat.Sums

variable {b : Bool} {n : Nat} {t u v : List Char}

/-- A text in `n` pairs of parentheses. -/
def enclosed : Nat → List Char → List Char
  | 0, t => t
  | n + 1, t => '(' :: (enclosed n t ++ [')'])

theorem Sentence.enclosed (h : Sentence t) (n : Nat) : Sentence (enclosed n t) := by
  induction n with
  | zero => exact h
  | succ n ih => exact .group ih

/-! ## Balance -/

/-- No parenthesis is closed before it is opened, and in the end all are closed. -/
structure Balanced (t : List Char) : Prop where
  opened : ∀ v, v <+: t → v.count ')' ≤ v.count '('
  closed : t.count '(' = t.count ')'

/-- Numbers have no signs in them. -/
theorem Number.count_eq_zero (h : Number t) (hv : v <+: t) {c : Char} (hc : isDigit c = false) :
    v.count c = 0 := by
  refine List.count_eq_zero.mpr fun hmem => ?_
  rw [h.2 c (hv.subset hmem)] at hc
  cases hc

theorem Balanced.group (h : Balanced t) : Balanced ('(' :: (t ++ [')'])) := by
  refine ⟨?_, by simp [h.closed]⟩
  intro v hv
  rcases List.prefix_cons_iff.mp hv with rfl | ⟨w, rfl, hw⟩
  · exact le_rfl
  · rcases List.prefix_concat_iff.mp hw with rfl | hw
    · simp [h.closed]
    · simpa using (h.opened w hw).trans (Nat.le_succ _)

theorem Balanced.sum (ht : Balanced t) (hu : Balanced u) : Balanced (t ++ '+' :: u) := by
  refine ⟨?_, by simp [ht.closed, hu.closed]⟩
  intro v hv
  rcases List.prefix_or_prefix_of_prefix hv (List.prefix_append t _) with hv | ⟨w, rfl⟩
  · exact ht.opened v hv
  · have hw := (List.prefix_append_right_inj t).mp hv
    rcases List.prefix_cons_iff.mp hw with rfl | ⟨w', rfl, hw'⟩
    · simp [ht.closed]
    · simpa [ht.closed] using hu.opened w' hw'

/-- The parentheses of a sentence match. -/
theorem Sentence.balanced (h : Sentence t) : Balanced t := by
  induction h with
  | number hnumber =>
      refine ⟨fun v hv => ?_, ?_⟩
      · rw [hnumber.count_eq_zero hv (by decide), hnumber.count_eq_zero hv (by decide)]
      · rw [hnumber.count_eq_zero (List.prefix_refl _) (by decide),
          hnumber.count_eq_zero (List.prefix_refl _) (by decide)]
  | group _ ih => exact ih.group
  | sum _ _ iht ihu => exact iht.sum ihu

/-- What is in the first pair of parentheses is all of a sentence that stands in parentheses. -/
theorem Balanced.eq_of_append (ht : Balanced t) (hu : Balanced u)
    (h : u ++ ')' :: v = t ++ [')']) : v = [] ∧ u = t := by
  rcases List.eq_nil_or_concat v with rfl | ⟨w, c, rfl⟩
  · exact ⟨rfl, List.append_cancel_right h⟩
  · exfalso
    -- otherwise `t` closes more than it has opened
    have hassoc : (u ++ ')' :: w) ++ [c] = t ++ [')'] := by simpa using h
    obtain ⟨rfl, -⟩ := List.append_inj' hassoc rfl
    have hopened : u.count ')' + 1 ≤ u.count '(' := by
      simpa using ht.opened (u ++ [')']) ⟨w, by simp⟩
    rw [hu.closed] at hopened
    exact Nat.not_succ_le_self _ hopened

/-! ## Phrases in parentheses -/

/-- An atom is a number or stands in parentheses. -/
theorem Phrase.atom_cases (h : Phrase (.atom b) t) :
    Number t ∨ ∃ u, t = '(' :: (u ++ [')']) ∧ Phrase (.entry b) u := by
  cases h with
  | atom_group h =>
      cases h with
      | group h => exact Or.inr ⟨_, rfl, h⟩
  | atom_number h => exact Or.inl h

/-- Parentheses swap free for blocked. -/
theorem Sentence.phrase_group (h : Sentence t) :
    Phrase (.entry b) ('(' :: (t ++ [')'])) ↔ Phrase (.entry !b) t := by
  constructor
  · intro hphrase
    -- the atom in front is all of it, whether or not operations might follow
    have hfront : ∃ s v, s ++ v = '(' :: (t ++ [')']) ∧ Phrase (.atom !b) s := by
      generalize '(' :: (t ++ [')']) = s at hphrase
      cases hphrase with
      | blocked hatom => exact ⟨s, [], List.append_nil s, hatom⟩
      | free hatom _ => exact ⟨_, _, rfl, hatom⟩
    obtain ⟨s, v, hs, hatom⟩ := hfront
    rcases hatom.atom_cases with hnumber | ⟨u, rfl, hinner⟩
    · cases s with
      | nil => exact absurd rfl hnumber.1
      | cons c s =>
          obtain ⟨rfl, -⟩ := List.cons.inj hs
          exact absurd (hnumber.2 '(' (List.mem_cons_self ..)) (by decide)
    · have hsame : u ++ ')' :: v = t ++ [')'] := by simpa using hs
      obtain ⟨-, rfl⟩ := h.balanced.eq_of_append hinner.sentence.balanced hsame
      exact hinner
  · intro hphrase
    have hatom : Phrase (.atom !b) ('(' :: (t ++ [')'])) := .atom_group (.group hphrase)
    cases b with
    | true => exact .blocked hatom
    | false => exact List.append_nil ('(' :: (t ++ [')'])) ▸ .free hatom .grown_nil

/-- A blocked boundary reads no sum. -/
theorem not_phrase_sum (ht : Sentence t) : ¬ Phrase (.entry true) (t ++ '+' :: u) := by
  intro h
  have hatom : Phrase (.atom false) (t ++ '+' :: u) := by
    cases h with
    | blocked hatom => exact hatom
  rcases hatom.atom_cases with hnumber | ⟨s, hs, hinner⟩
  · exact absurd (hnumber.2 '+' (by simp)) (by decide)
  · cases t with
    | nil => cases hs
    | cons c t =>
        obtain ⟨rfl, hrest⟩ := List.cons.inj hs
        have hprefix : t <+: s ++ [')'] := ⟨'+' :: u, hrest⟩
        rcases List.prefix_concat_iff.mp hprefix with rfl | hprefix
        · simp at hrest
        · -- the first operand would close the parenthesis in which it stands
          have hopened := hinner.sentence.balanced.opened t hprefix
          have hclosed : t.count '(' + 1 = t.count ')' := by simpa using ht.balanced.closed
          omega

/-- Of the parentheses around a sum only the parity of their number counts. -/
theorem phrase_enclosed_sum (ht : Sentence t) (hu : Sentence u) (n : Nat) :
    Phrase (.entry false) (enclosed n (t ++ '+' :: u)) ↔
      Even n ∧ Phrase (.entry false) (t ++ '+' :: u) := by
  have hsum : Sentence (t ++ '+' :: u) := .sum ht hu
  -- the induction turns free into blocked and back
  have hboth : (Phrase (.entry false) (enclosed n (t ++ '+' :: u)) ↔
      Even n ∧ Phrase (.entry false) (t ++ '+' :: u)) ∧
      (Phrase (.entry true) (enclosed n (t ++ '+' :: u)) ↔
        ¬ Even n ∧ Phrase (.entry false) (t ++ '+' :: u)) := by
    induction n with
    | zero => exact ⟨by simp [enclosed], by simpa [enclosed] using not_phrase_sum ht⟩
    | succ n ih =>
        have hswap : ∀ b, Phrase (.entry b) (enclosed (n + 1) (t ++ '+' :: u)) ↔
            Phrase (.entry !b) (enclosed n (t ++ '+' :: u)) :=
          fun b => (hsum.enclosed n).phrase_group
        rw [hswap false, hswap true, Nat.even_add_one, not_not]
        exact ⟨ih.2, ih.1⟩
  exact hboth.1

end Packrat.Sums
