import Mathlib
import Packrat.Text

/-! # Lines and columns

    A line starts at the beginning of the text and behind every line feed.  The table holds these
    positions in increasing order, so its part up to a position counts the line feeds before it, and
    the last of them is where the line of the position starts. -/

namespace Packrat.Text

variable {t : Text} {i p start : Nat} {l : List Char}

/-- A line starts at the position. -/
def StartsLine (t : Text) (position : Nat) : Prop :=
  position = 0 ∨ ∃ i, position = i + 1 ∧ t.at? i = some '\n'

/-! ## The table -/

theorem mem_startsAfter :
    start ∈ startsAfter i l ↔ ∃ k, start = i + k + 1 ∧ l[k]? = some '\n' := by
  induction l generalizing i with
  | nil => simp [startsAfter]
  | cons c rest ih =>
      have hlater : start ∈ startsAfter (i + 1) rest ↔
          ∃ k, start = i + (k + 1) + 1 ∧ (c :: rest)[k + 1]? = some '\n' := by
        rw [ih]
        exact exists_congr fun k => and_congr_left fun _ => by omega
      rw [← Nat.or_exists_add_one, ← hlater, startsAfter]
      by_cases hc : c = '\n'
      · simp [hc]
      · simp [hc]

theorem mem_lineStarts : start ∈ t.lineStarts ↔ t.StartsLine start := by
  rw [lineStarts, List.mem_cons, mem_startsAfter, StartsLine]
  simp [at?]

theorem pairwise_startsAfter (i : Nat) (l : List Char) :
    (i :: startsAfter i l).Pairwise (· < ·) := by
  refine List.pairwise_cons.mpr ⟨?_, ?_⟩
  · intro s hs
    obtain ⟨k, rfl, -⟩ := mem_startsAfter.mp hs
    omega
  · induction l generalizing i with
    | nil => exact .nil
    | cons c rest ih =>
        rw [startsAfter]
        split
        · refine List.pairwise_cons.mpr ⟨?_, ih (i + 1)⟩
          intro s hs
          obtain ⟨k, rfl, -⟩ := mem_startsAfter.mp hs
          omega
        · exact ih (i + 1)

/-- The starts up to a position are as many as the line feeds before it. -/
theorem length_takeWhile_startsAfter (i p : Nat) (l : List Char) :
    ((startsAfter i l).takeWhile (· ≤ p)).length = (l.take (p - i)).count '\n' := by
  induction l generalizing i with
  | nil => simp [startsAfter]
  | cons c rest ih =>
      have hrest := ih (i + 1)
      rw [startsAfter]
      by_cases hlt : i < p
      · obtain ⟨k, hk⟩ : ∃ k, p - i = k + 1 := ⟨p - i - 1, by omega⟩
        rw [show p - (i + 1) = k by omega] at hrest
        rw [hk, List.take_succ_cons, List.count_cons, ← hrest]
        by_cases hc : c = '\n'
        · rw [if_pos hc, List.takeWhile_cons_of_pos (by simpa using hlt), List.length_cons]
          simp [hc]
        · rw [if_neg hc]
          simp [hc]
      · rw [show p - i = 0 by omega, List.take_zero, List.count_nil]
        rw [show p - (i + 1) = 0 by omega, List.take_zero, List.count_nil] at hrest
        split
        · rw [List.takeWhile_cons_of_neg (by simpa using hlt), List.length_nil]
        · exact hrest

/-- The last of increasing numbers up to a bound is the greatest of them. -/
theorem isGreatest_getLastD {a : Nat} {l : List Nat} (h : (a :: l).Pairwise (· < ·)) (ha : a ≤ p)
    (default : Nat) :
    IsGreatest {s | s ≤ p ∧ s ∈ a :: l} (((a :: l).takeWhile (· ≤ p)).getLastD default) := by
  rw [List.takeWhile_cons_of_pos (by simpa using ha)]
  induction l generalizing a with
  | nil => exact ⟨⟨ha, List.mem_singleton_self a⟩, fun s hs => (List.mem_singleton.mp hs.2).le⟩
  | cons b l ih =>
      obtain ⟨hhead, htail⟩ := List.pairwise_cons.mp h
      have hab : a < b := hhead b (List.mem_cons_self ..)
      by_cases hb : b ≤ p
      · rw [List.takeWhile_cons_of_pos (by simpa using hb), List.getLastD_cons]
        obtain ⟨⟨hle, hmem⟩, hgreatest⟩ := ih htail hb
        refine ⟨⟨hle, List.mem_cons_of_mem a hmem⟩, ?_⟩
        rintro s ⟨hs, hmem'⟩
        rcases List.mem_cons.mp hmem' with rfl | hmem'
        · exact hab.le.trans (hgreatest ⟨hb, List.mem_cons_self ..⟩)
        · exact hgreatest ⟨hs, hmem'⟩
      · rw [List.takeWhile_cons_of_neg (by simpa using hb)]
        refine ⟨⟨ha, List.mem_cons_self ..⟩, ?_⟩
        rintro s ⟨hs, hmem'⟩
        rcases List.mem_cons.mp hmem' with rfl | hmem'
        · exact le_rfl
        · have hbs : b ≤ s := by
            rcases List.mem_cons.mp hmem' with rfl | hlater
            · exact le_rfl
            · exact ((List.pairwise_cons.mp htail).1 s hlater).le
          exact absurd (hbs.trans hs) hb

/-! ## Positions -/

/-- The line is one more than the line feeds before the position. -/
theorem fst_lineCol (t : Text) (position : Nat) :
    (t.lineCol position).1 = 1 + (t.chars.toList.take position).count '\n' := by
  show (t.lineStarts.takeWhile (· ≤ position)).length = _
  rw [lineStarts, List.takeWhile_cons_of_pos (by simp), List.length_cons,
    length_takeWhile_startsAfter, Nat.sub_zero, Nat.add_comm]

/-- The column is one more than the distance to where the line starts. -/
theorem snd_lineCol (t : Text) (position : Nat) :
    ∃ start, IsGreatest {s | s ≤ position ∧ t.StartsLine s} start ∧
      (t.lineCol position).2 = 1 + (position - start) := by
  refine ⟨(t.lineStarts.takeWhile (· ≤ position)).getLastD 0, ?_, Nat.add_comm ..⟩
  simp only [← mem_lineStarts]
  exact isGreatest_getLastD (pairwise_startsAfter 0 t.chars.toList) (Nat.zero_le position) 0

end Packrat.Text
