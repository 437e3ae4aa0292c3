import Mathlib
import Packrat.Memo.Table

/-! # Probing stays in the table and ends

    A memo table never fills up: it doubles before more than three quarters of its buckets could be
    occupied.  So a probe, which begins at a bucket of the table and goes round, comes to the bucket
    of its position or to a free one, and every index on its way is that of a bucket. -/

namespace Packrat.Table

variable {φ α : Type} {t : Table φ α}

/-! ## Tables in good order -/

/-- The number of occupied buckets. -/
def occupied (t : Table φ α) : Nat :=
  t.buckets.countP Option.isSome

/-- The buckets are as many as the bits say, and those counted are the occupied ones. -/
structure Counted (t : Table φ α) : Prop where
  bits : 0 < t.bits
  size : t.capacity = 2 ^ t.bits
  positions : t.positions = t.occupied

/-- Counted, and at most three quarters full. -/
structure Sound (t : Table φ α) : Prop extends Counted t where
  room : t.positions * 4 ≤ t.capacity * 3

/-- Probing begins at a bucket. -/
theorem home_lt {bits : Nat} (hbits : 0 < bits) (position : Nat) : home bits position < 2 ^ bits := by
  rw [home, UInt64.toNat_shiftRight, Nat.shiftRight_eq_div_pow]
  generalize hx : (position.toUInt64 * spread).toNat = x
  have hlt : x < 2 ^ 64 := hx ▸ UInt64.toNat_lt _
  have hshift : (64 - bits).toUInt64.toNat % 64 = 64 - bits := by
    have hword : (64 - bits).toUInt64.toNat = (64 - bits) % 2 ^ 64 := UInt64.toNat_ofNat
    omega
  rw [hshift]
  rcases Nat.le_total bits 64 with hle | hle
  · have hsplit : 2 ^ bits * 2 ^ (64 - bits) = 2 ^ 64 := by
      rw [← Nat.pow_add]
      congr 1
      omega
    exact Nat.div_lt_of_lt_mul (by rw [Nat.mul_comm, hsplit]; exact hlt)
  · rw [Nat.sub_eq_zero_of_le hle, Nat.pow_zero, Nat.div_one]
    exact hlt.trans_le (Nat.pow_le_pow_right (by omega) hle)

theorem Counted.home_lt (h : t.Counted) (position : Nat) : home t.bits position < t.capacity :=
  h.size ▸ Table.home_lt h.bits position

/-! ## Probes -/

section Probes

variable {buckets : Array (Option (Bucket φ α))} {start : Nat}

theorem getElem?_of_getD {i : Nat} {bucket : Bucket φ α} (h : buckets.getD i none = some bucket) :
    buckets[i]? = some (some bucket) := by
  rw [Array.getD_eq_getD_getElem?] at h
  cases hi : buckets[i]? with
  | none =>
      rw [hi] at h
      cases h
  | some entry =>
      rw [hi, Option.getD_some] at h
      rw [h]

/-- A probe that began at a bucket ends at one that is occupied, or at one that is free, or has seen
    only occupied ones. -/
theorem probeFrom_cases (hstart : start < buckets.size) (position left : Nat) :
    (∃ i, probeFrom buckets position left start = .found i ∧ i < buckets.size) ∨
      (∃ i, probeFrom buckets position left start = .free i ∧ i < buckets.size ∧
        buckets[i]? = some none) ∨
      (probeFrom buckets position left start = .full ∧
        ∀ k < left, ∃ bucket, buckets[(start + k) % buckets.size]? = some (some bucket)) := by
  induction left generalizing start with
  | zero => exact Or.inr (Or.inr ⟨rfl, fun k hk => absurd hk (Nat.not_lt_zero k)⟩)
  | succ left ih =>
      have hhere : buckets[start]? = some buckets[start] := Array.getElem?_eq_getElem hstart
      have hget : buckets.getD start none = buckets[start] := by
        rw [Array.getD_eq_getD_getElem?, hhere, Option.getD_some]
      rw [probeFrom, hget]
      cases hbucket : buckets[start] with
      | none => exact Or.inr (Or.inl ⟨start, rfl, hstart, hbucket ▸ hhere⟩)
      | some bucket =>
          dsimp only
          split
          · exact Or.inl ⟨start, rfl, hstart⟩
          · rcases ih (Nat.mod_lt (start + 1) (by omega)) with hfound | hfree | ⟨hfull, hseen⟩
            · exact Or.inl hfound
            · exact Or.inr (Or.inl hfree)
            · refine Or.inr (Or.inr ⟨hfull, ?_⟩)
              intro k hk
              cases k with
              | zero =>
                  rw [Nat.add_zero, Nat.mod_eq_of_lt hstart, hhere, hbucket]
                  exact ⟨bucket, rfl⟩
              | succ k =>
                  have hnext : ((start + 1) % buckets.size + k) % buckets.size
                      = (start + (k + 1)) % buckets.size := by
                    rw [Nat.mod_add_mod]
                    congr 1
                    omega
                  exact hnext ▸ hseen k (by omega)

/-- A round over the whole table sees every bucket. -/
theorem exists_step (hstart : start < buckets.size) {i : Nat} (hi : i < buckets.size) :
    ∃ k < buckets.size, (start + k) % buckets.size = i := by
  refine ⟨(i + buckets.size - start) % buckets.size, Nat.mod_lt _ (by omega), ?_⟩
  rw [Nat.add_mod_mod, show start + (i + buckets.size - start) = i + buckets.size by omega,
    Nat.add_mod_right, Nat.mod_eq_of_lt hi]

end Probes

/-- A probe of a table that has a free bucket ends at a bucket. -/
theorem Counted.probe_cases (h : t.Counted) (hroom : t.positions < t.capacity) (position : Nat) :
    ∃ i < t.capacity, t.probe position = .found i ∨
      (t.probe position = .free i ∧ t.buckets[i]? = some none) := by
  have hstart : home t.bits position < t.buckets.size := h.home_lt position
  rcases probeFrom_cases hstart position t.capacity with
    ⟨i, hfound, hi⟩ | ⟨i, hfree, hi, hnone⟩ | ⟨-, hseen⟩
  · exact ⟨i, hi, Or.inl hfound⟩
  · exact ⟨i, hi, Or.inr ⟨hfree, hnone⟩⟩
  · exfalso
    have hall : ∀ bucket ∈ t.buckets, bucket.isSome = true := by
      intro bucket hbucket
      obtain ⟨i, hi, rfl⟩ := Array.mem_iff_getElem.mp hbucket
      obtain ⟨k, hk, rfl⟩ := exists_step hstart hi
      obtain ⟨b, hb⟩ := hseen k hk
      rw [Array.getElem?_eq_getElem hi] at hb
      rw [Option.some.inj hb]
      rfl
    have hfull : t.occupied = t.capacity := Array.countP_eq_size.mpr hall
    have hcount := h.positions
    omega

theorem Sound.room_lt (h : t.Sound) : t.positions < t.capacity := by
  have hroom := h.room
  have hcapacity : 0 < t.capacity := h.size ▸ Nat.two_pow_pos t.bits
  omega

/-- Every probe begins at a bucket and ends at one. -/
def Probes (t : Table φ α) : Prop :=
  ∀ position, home t.bits position < t.capacity ∧
    ∃ i < t.capacity, t.probe position = .found i ∨ t.probe position = .free i

theorem Counted.probes (h : t.Counted) (hroom : t.positions < t.capacity) : t.Probes := by
  intro position
  refine ⟨h.home_lt position, ?_⟩
  obtain ⟨i, hi, hprobe⟩ := h.probe_cases hroom position
  exact ⟨i, hi, hprobe.imp_right And.left⟩

/-! ## Growing and storing -/

theorem counted_withBits {bits : Nat} (hbits : 0 < bits) : (withBits bits : Table φ α).Counted where
  bits := hbits
  size := Array.size_replicate
  positions := by simp [withBits, occupied, Array.countP_replicate]

theorem sound_empty : (empty : Table φ α).Sound where
  toCounted := counted_withBits (by decide)
  room := Nat.zero_le _

/-- A free bucket that is filled counts one more. -/
theorem Counted.fill (h : t.Counted) {i : Nat} (hi : t.buckets[i]? = some none)
    (bucket : Bucket φ α) (length : Nat) :
    ({ t with
      buckets := t.buckets.setIfInBounds i (some bucket)
      positions := t.positions + 1
      length := length } : Table φ α).Counted := by
  obtain ⟨hlt, hnone⟩ := Array.getElem?_eq_some_iff.mp hi
  refine ⟨h.bits, ?_, ?_⟩
  · rw [capacity, Array.size_setIfInBounds]
    exact h.size
  · have hcount := h.positions
    simp only [occupied] at hcount ⊢
    rw [Array.setIfInBounds_def, dif_pos hlt, Array.countP_set hlt, hnone, hcount]
    simp

/-- An occupied bucket that is changed counts as before. -/
theorem Counted.refill (h : t.Counted) {i : Nat} {old : Bucket φ α}
    (hi : t.buckets.getD i none = some old) (bucket : Bucket φ α) (length : Nat) :
    ({ t with buckets := t.buckets.setIfInBounds i (some bucket), length := length } :
      Table φ α).Counted := by
  obtain ⟨hlt, hsome⟩ := Array.getElem?_eq_some_iff.mp (getElem?_of_getD hi)
  have hpositive : 0 < t.buckets.countP Option.isSome :=
    Array.countP_pos_iff.mpr ⟨_, Array.getElem_mem hlt, by rw [hsome]; rfl⟩
  refine ⟨h.bits, ?_, ?_⟩
  · rw [capacity, Array.size_setIfInBounds]
    exact h.size
  · have hcount := h.positions
    simp only [occupied] at hcount ⊢
    rw [Array.setIfInBounds_def, dif_pos hlt, Array.countP_set hlt, hsome, hcount]
    simp only [Option.isSome_some, if_true]
    omega

/-- A probe that ends at a free bucket ends at one of the table. -/
theorem Counted.free (h : t.Counted) {position i : Nat} (hprobe : t.probe position = .free i) :
    t.buckets[i]? = some none := by
  rcases probeFrom_cases (h.home_lt position) position t.capacity with
    ⟨j, hfound, -⟩ | ⟨j, hfree, -, hnone⟩ | ⟨hfull, -⟩
  · cases hfound.symm.trans hprobe
  · cases hfree.symm.trans hprobe
    exact hnone
  · cases hfull.symm.trans hprobe

theorem Counted.place (h : t.Counted) (bucket : Bucket φ α) :
    (t.place bucket).Counted ∧ (t.place bucket).bits = t.bits ∧
      (t.place bucket).positions ≤ t.positions + 1 := by
  rw [Table.place]
  split
  · rename_i i hprobe
    exact ⟨h.fill (h.free hprobe) bucket t.length, rfl, le_rfl⟩
  · exact ⟨h, rfl, Nat.le_succ _⟩

theorem Counted.foldl_place (h : t.Counted) (bs : List (Bucket φ α)) :
    (bs.foldl Table.place t).Counted ∧ (bs.foldl Table.place t).bits = t.bits ∧
      (bs.foldl Table.place t).positions ≤ t.positions + bs.length := by
  induction bs generalizing t with
  | nil => exact ⟨h, rfl, le_rfl⟩
  | cons b rest ih =>
      obtain ⟨hplaced, hbits, hle⟩ := h.place b
      obtain ⟨hrest, hbits', hle'⟩ := ih hplaced
      refine ⟨hrest, hbits'.trans hbits, hle'.trans ?_⟩
      rw [List.length_cons]
      omega

/-- The buckets of a table that doubles find room in the larger one. -/
theorem Counted.grow (h : t.Counted) :
    t.grow.Counted ∧ t.grow.bits = t.bits + 1 ∧ t.grow.positions ≤ t.positions := by
  have hfresh : (withBits (t.bits + 1) : Table φ α).Counted := counted_withBits (Nat.succ_pos _)
  obtain ⟨hplaced, hbits, hle⟩ := hfresh.foldl_place (t.buckets.toList.filterMap id)
  refine ⟨⟨hplaced.bits, hplaced.size, hplaced.positions⟩, hbits, hle.trans ?_⟩
  have hlength : (t.buckets.toList.filterMap id).length = t.occupied := by
    rw [List.length_filterMap_eq_countP, occupied, ← Array.countP_toList]
    rfl
  rw [hlength, h.positions]
  exact (Nat.zero_add _).le

/-- After room is made, one more position leaves the table three quarters full at most. -/
theorem Sound.reserve (h : t.Sound) :
    t.reserve.Counted ∧ (t.reserve.positions + 1) * 4 ≤ t.reserve.capacity * 3 := by
  rw [Table.reserve]
  split
  · obtain ⟨hgrown, hbits, hle⟩ := h.toCounted.grow
    refine ⟨hgrown, ?_⟩
    have hdouble : t.grow.capacity = 2 * t.capacity := by
      rw [hgrown.size, hbits, h.size, Nat.pow_succ, Nat.mul_comm]
    have hcapacity : 2 ≤ t.capacity := by
      rw [h.size]
      exact Nat.pow_le_pow_right (Nat.succ_pos 1) h.bits
    have hroom := h.room
    omega
  · rename_i hroom
    exact ⟨h.toCounted, by omega⟩

/-- In a table in good order, probes begin and end at buckets, and so they do once room is made for one
    more position. -/
theorem Sound.probes (h : t.Sound) : t.Probes ∧ t.reserve.Probes := by
  obtain ⟨hcounted, hroom⟩ := h.reserve
  exact ⟨h.toCounted.probes h.room_lt, hcounted.probes (by omega)⟩

variable [DecidableEq φ]

/-- Whatever is stored, a table in good order stays so. -/
theorem Sound.insert (h : t.Sound) (key : MemoKey φ) (outcome : α) : (t.insert key outcome).Sound := by
  obtain ⟨hcounted, hroom⟩ := h.reserve
  have hkept : t.reserve.Sound := ⟨hcounted, by omega⟩
  simp only [Table.insert]
  split
  · rename_i i hprobe
    cases hold : t.reserve.buckets.getD i none with
    | none => exact hkept
    | some bucket =>
        dsimp only
        split
        · refine ⟨hcounted.refill hold _ _, ?_⟩
          rw [capacity, Array.size_setIfInBounds]
          exact hkept.room
        · refine ⟨hcounted.refill hold _ _, ?_⟩
          rw [capacity, Array.size_setIfInBounds]
          exact hkept.room
  · rename_i i hprobe
    refine ⟨hcounted.fill (hcounted.free hprobe) _ _, ?_⟩
    rw [capacity, Array.size_setIfInBounds]
    exact hroom
  · exact hkept

end Packrat.Table
