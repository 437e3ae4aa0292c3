import Mathlib.Data.List.Sort
import Mathlib.Data.String.Basic
import Packrat.Failure.Report

/-! # What a report tells of the failures

    The order in which failures were recorded, and how often each was, does not show in a report.
    Recording is best seen through what the farthest failures *cover*: every position before
    theirs, and at theirs the expressions that failed.  A failure that is covered adds nothing, and
    records that cover the same give the same report. -/

namespace Packrat

/-! ## Coverage -/

namespace Farthest

variable {f f₁ f₂ : Farthest} {id i : ExprId} {position q p : Nat}

/-- A failure of `id` at the position would add nothing. -/
def Covers (f : Farthest) (id : ExprId) (position : Nat) : Prop :=
  ∃ p, f.position = some p ∧ (position < p ∨ position = p ∧ id ∈ f.failed)

/-- A report covers all that failed before its position, and at it what is in its list. -/
theorem covers_iff (hp : f.position = some p) :
    f.Covers i q ↔ q < p ∨ q = p ∧ i ∈ f.failed := by
  constructor
  · rintro ⟨p', hp', h⟩
    cases hp.symm.trans hp'
    exact h
  · intro h
    exact ⟨p, hp, h⟩

/-- Recording a failure adds that failure and all earlier ones to what is covered, and nothing else.
    -/
theorem covers_record (f : Farthest) (id i : ExprId) (position q : Nat) :
    (f.record id position).Covers i q ↔ f.Covers i q ∨ q < position ∨ q = position ∧ i = id := by
  rw [record]
  cases hp : f.position with
  | none =>
      have hnone : ¬ f.Covers i q := by
        rintro ⟨p, hp', -⟩
        cases hp.symm.trans hp'
      rw [covers_iff (p := position) rfl]
      simp [hnone]
  | some p =>
      dsimp only
      rw [covers_iff hp]
      by_cases hless : position < p
      · rw [if_pos hless, covers_iff hp]
        constructor
        · exact Or.inl
        · rintro (h | h | ⟨rfl, -⟩)
          · exact h
          · exact Or.inl (h.trans hless)
          · exact Or.inl hless
      · rw [if_neg hless]
        by_cases hsame : position = p
        · subst hsame
          rw [if_pos rfl]
          by_cases hmem : f.failed.contains id
          · rw [if_pos hmem, covers_iff hp]
            have hid : id ∈ f.failed := List.contains_iff_mem.mp hmem
            constructor
            · exact Or.inl
            · rintro (h | h | ⟨rfl, rfl⟩)
              · exact h
              · exact Or.inl h
              · exact Or.inr ⟨rfl, hid⟩
          · rw [if_neg hmem, covers_iff (p := position) rfl]
            simp only [List.mem_append, List.mem_singleton]
            tauto
        · rw [if_neg hsame, covers_iff (p := position) rfl]
          have hgreater : p < position := by omega
          simp only [List.mem_singleton]
          constructor
          · exact Or.inr
          · rintro ((h | ⟨rfl, -⟩) | h)
            · exact Or.inl (h.trans hgreater)
            · exact Or.inl hgreater
            · exact h

/-- What is recorded is covered. -/
theorem covers_record_self (f : Farthest) (id : ExprId) (position : Nat) :
    (f.record id position).Covers id position :=
  (covers_record f id id position position).mpr (Or.inr (Or.inr ⟨rfl, rfl⟩))

/-- What is covered stays covered: a farther failure drops the list but passes its position. -/
theorem Covers.record (h : f.Covers i q) (id : ExprId) (position : Nat) :
    (f.record id position).Covers i q :=
  (covers_record f id i position q).mpr (Or.inl h)

/-- A covered failure is not recorded again. -/
theorem Covers.record_eq (h : f.Covers id position) : f.record id position = f := by
  obtain ⟨p, hp, hcovers⟩ := h
  simp only [Farthest.record, hp]
  rcases hcovers with hlt | ⟨rfl, hid⟩
  · rw [if_pos hlt]
  · rw [if_neg (Nat.lt_irrefl _), if_pos rfl, if_pos (List.contains_iff_mem.mpr hid)]

/-- Recording failures that `f` covers leads from `f₀` to the last record. -/
inductive Repeats (f f₀ : Farthest) : Farthest → Prop where
  | none : f.Repeats f₀ f₀
  | record {f' : Farthest} {id : ExprId} {position : Nat} : f.Repeats f₀ f' →
      f.Covers id position → f.Repeats f₀ (f'.record id position)

/-- A stretch of failures that a report already covers is covered by every later report. -/
theorem Repeats.mono (h : f.Repeats f₁ f₂) (id : ExprId) (position : Nat) :
    (f.record id position).Repeats f₁ f₂ := by
  induction h with
  | none => exact .none
  | record _ hcovers ih => exact .record ih (hcovers.record id position)

/-! ## Equal coverage -/

/-- Records that cover the same; where something was recorded, an expression failed. -/
structure Same (f₁ f₂ : Farthest) : Prop where
  covers : ∀ i q, f₁.Covers i q ↔ f₂.Covers i q
  left : f₁.position ≠ none → f₁.failed ≠ []
  right : f₂.position ≠ none → f₂.failed ≠ []

/-- A report with a position lists at least one node there, since it moves with a failure. -/
theorem failed_record_ne_nil (h : f.position ≠ none → f.failed ≠ []) :
    (f.record id position).position ≠ none → (f.record id position).failed ≠ [] := by
  intro _
  rw [record]
  cases hp : f.position with
  | none => simp
  | some p =>
      have hne : f.failed ≠ [] := h (by simp [hp])
      dsimp only
      split
      · exact hne
      · split
        · split
          · exact hne
          · simp
        · simp

theorem Same.refl_empty : Same {} {} :=
  ⟨fun _ _ => Iff.rfl, fun h => absurd rfl h, fun h => absurd rfl h⟩

/-- Reports of the same coverage keep it when both record one failure. -/
theorem Same.record (h : Same f₁ f₂) (id : ExprId) (position : Nat) :
    Same (f₁.record id position) (f₂.record id position) := by
  refine ⟨?_, failed_record_ne_nil h.left, failed_record_ne_nil h.right⟩
  intro i q
  rw [covers_record, covers_record, h.covers]

/-- The second record may repeat what the first covers. -/
theorem Same.record_again (h : Same f₁ f₂) (hcovers : f₁.Covers id position) :
    Same f₁ (f₂.record id position) := by
  rw [((h.covers id position).mp hcovers).record_eq]
  exact h

theorem exists_covers (h : f.failed ≠ []) (hp : f.position = some p) : ∃ i, f.Covers i p := by
  obtain ⟨i, hi⟩ := List.exists_mem_of_ne_nil f.failed h
  exact ⟨i, (covers_iff hp).mpr (Or.inr ⟨rfl, hi⟩)⟩

/-- The failure listed at the position of one report is covered by the other, which is thus not
    behind. -/
theorem Same.position_le (h : Same f₁ f₂) (hp : f₁.position = some p) :
    ∃ p', f₂.position = some p' ∧ p ≤ p' := by
  obtain ⟨i, hi⟩ := exists_covers (h.left (by simp [hp])) hp
  obtain ⟨p', hp', hle⟩ := (h.covers i p).mp hi
  exact ⟨p', hp', by omega⟩

theorem Same.symm (h : Same f₁ f₂) : Same f₂ f₁ :=
  ⟨fun i q => (h.covers i q).symm, h.right, h.left⟩

theorem Same.trans {f₃ : Farthest} (h : Same f₁ f₂) (h' : Same f₂ f₃) : Same f₁ f₃ :=
  ⟨fun i q => (h.covers i q).trans (h'.covers i q), h.left, h'.right⟩

/-- Reports of the same coverage stand at the same position. -/
theorem Same.position_eq (h : Same f₁ f₂) : f₁.position = f₂.position := by
  cases hp : f₁.position with
  | some p =>
      obtain ⟨p', hp', hle⟩ := h.position_le hp
      obtain ⟨p'', hp'', hge⟩ := h.symm.position_le hp'
      cases hp.symm.trans hp''
      rw [hp', Nat.le_antisymm hle hge]
  | none =>
      cases hp' : f₂.position with
      | none => rfl
      | some p' =>
          obtain ⟨p, hp'', -⟩ := h.symm.position_le hp'
          cases hp.symm.trans hp''

/-- Reports of the same coverage list the same nodes, though not always in the same order. -/
theorem Same.mem_failed (h : Same f₁ f₂) (hp : f₁.position = some p) :
    id ∈ f₁.failed ↔ id ∈ f₂.failed := by
  have hcovers := h.covers id p
  rw [covers_iff hp, covers_iff (h.position_eq.symm.trans hp)] at hcovers
  simpa using hcovers

end Farthest

/-! ## Sorted texts -/

theorem mem_insertText {s t : String} {l : List String} : t ∈ insertText s l ↔ t = s ∨ t ∈ l := by
  induction l with
  | nil => simp [insertText]
  | cons u rest ih =>
      rw [insertText]
      split
      · rename_i h
        simp [h]
      · split
        · simp
        · rw [List.mem_cons, ih, List.mem_cons]
          tauto

theorem mem_sortTexts {t : String} {l : List String} : t ∈ sortTexts l ↔ t ∈ l := by
  induction l with
  | nil => rfl
  | cons s rest ih =>
      rw [sortTexts, List.foldr_cons, mem_insertText, List.mem_cons]
      exact or_congr_right ih

/-- Insertion keeps the texts increasing, so no text is listed twice. -/
theorem pairwise_insertText {s : String} {l : List String} (h : l.Pairwise (· < ·)) :
    (insertText s l).Pairwise (· < ·) := by
  induction l with
  | nil => exact List.pairwise_singleton _ s
  | cons t rest ih =>
      obtain ⟨hhead, htail⟩ := List.pairwise_cons.mp h
      rw [insertText]
      split
      · exact h
      · rename_i hne
        split
        · rename_i hlt
          refine List.pairwise_cons.mpr ⟨?_, h⟩
          intro u hu
          rcases List.mem_cons.mp hu with rfl | hu
          · exact hlt
          · exact hlt.trans (hhead u hu)
        · rename_i hlt
          have hgt : t < s := lt_of_le_of_ne (not_lt.mp hlt) (Ne.symm hne)
          refine List.pairwise_cons.mpr ⟨?_, ih htail⟩
          intro u hu
          rcases mem_insertText.mp hu with rfl | hu
          · exact hgt
          · exact hhead u hu

/-- Sorting leaves an increasing list; its duplicates are gone. -/
theorem pairwise_sortTexts (l : List String) : (sortTexts l).Pairwise (· < ·) := by
  induction l with
  | nil => exact .nil
  | cons s rest ih => exact pairwise_insertText ih

/-- Only the set of texts matters. -/
theorem sortTexts_eq {l l' : List String} (h : ∀ t, t ∈ l ↔ t ∈ l') : sortTexts l = sortTexts l' := by
  refine (pairwise_sortTexts l).eq_of_mem_iff (pairwise_sortTexts l') ?_
  intro t
  rw [mem_sortTexts, mem_sortTexts, h]

/-! ## Reports -/

/-- An analysis that went through has gone through its first step. -/
theorem ok_of_bind {α β : Type} {x : Except Fault α} {f : α → Except Fault β} {b : β}
    (h : (x >>= f) = .ok b) : ∃ a, x = .ok a ∧ f a = .ok b := by
  cases x with
  | error e => cases h
  | ok a => exact ⟨a, rfl, h⟩

/-- When every element has an image, the images are exactly those. -/
theorem mem_of_mapM_ok {α β : Type} {f : α → Except Fault β} {l : List α} {images : List β}
    (h : l.mapM f = .ok images) (b : β) : b ∈ images ↔ ∃ a ∈ l, f a = .ok b := by
  induction l generalizing images with
  | nil =>
      rw [List.mapM_nil] at h
      cases h
      simp
  | cons x rest ih =>
      rw [List.mapM_cons] at h
      obtain ⟨y, hy, h⟩ := ok_of_bind h
      obtain ⟨ys, hys, h⟩ := ok_of_bind h
      cases h
      rw [List.mem_cons, ih hys]
      simp [hy, eq_comm]

/-- When a list is mapped without a fault, no element of it has one. -/
theorem exists_of_mapM_ok {α β : Type} {f : α → Except Fault β} {l : List α} {images : List β}
    (h : l.mapM f = .ok images) {a : α} (ha : a ∈ l) : ∃ b ∈ images, f a = .ok b := by
  induction l generalizing images with
  | nil => cases ha
  | cons x rest ih =>
      rw [List.mapM_cons] at h
      obtain ⟨y, hy, h⟩ := ok_of_bind h
      obtain ⟨ys, hys, h⟩ := ok_of_bind h
      cases h
      rcases List.mem_cons.mp ha with rfl | ha
      · exact ⟨y, List.mem_cons_self .., hy⟩
      · obtain ⟨b, hb, hfa⟩ := ih hys ha
        exact ⟨b, List.mem_cons_of_mem _ hb, hfa⟩

/-- Records that cover the same give the same report. -/
theorem Farthest.Same.report_eq {f₁ f₂ : Farthest} (h : Same f₁ f₂) {g : Grammar} {text : Text}
    {r₁ r₂ : Option Report} (h₁ : f₁.report g text = .ok r₁) (h₂ : f₂.report g text = .ok r₂) :
    r₁ = r₂ := by
  rw [Farthest.report] at h₁ h₂
  have hposition := h.position_eq
  cases hp : f₁.position with
  | none =>
      rw [hp] at h₁ hposition
      rw [← hposition] at h₂
      exact (Except.ok.inj h₁).symm.trans (Except.ok.inj h₂)
  | some p =>
      rw [hp] at h₁ hposition
      rw [← hposition] at h₂
      cases he₁ : f₁.failed.mapM g.describe with
      | error e =>
          simp only [he₁] at h₁
          cases h₁
      | ok texts₁ =>
          cases he₂ : f₂.failed.mapM g.describe with
          | error e =>
              simp only [he₂] at h₂
              cases h₂
          | ok texts₂ =>
              simp only [he₁] at h₁
              simp only [he₂] at h₂
              cases h₁
              cases h₂
              have htexts : sortTexts texts₁ = sortTexts texts₂ := by
                apply sortTexts_eq
                intro t
                rw [mem_of_mapM_ok he₁, mem_of_mapM_ok he₂]
                exact exists_congr fun id => and_congr_left fun _ => h.mem_failed hp
              simp only [Report.make, htexts]

end Packrat
