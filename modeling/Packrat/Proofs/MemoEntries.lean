import Packrat.Memo.Table

/-!
# The memo table makes nothing up

Whatever is looked up in a memo table was stored there, under the very key of the lookup. Neither
probing nor growing adds an entry, so a property that every stored outcome has is one that every
answer has.

* **`Table.Holds`** — some bucket has the outcome under the key.
* **`Table.holds_of_get?`** — an answer is held.
* **`Table.holds_insert`** — what is held after an insertion was held before or is the new outcome.
-/

namespace Packrat.Table

variable {φ α : Type}

/-! ## Buckets -/

/-- The bucket stands somewhere in the table. -/
def HasBucket (t : Table φ α) (bucket : Bucket φ α) : Prop :=
  some bucket ∈ t.buckets

/-- A place that is filled holds a bucket of the table. -/
theorem hasBucket_of_getD {t : Table φ α} {i : Nat} {bucket : Bucket φ α}
    (h : t.buckets.getD i none = some bucket) : t.HasBucket bucket := by
  rw [Array.getD_eq_getD_getElem?] at h
  cases hi : t.buckets[i]? with
  | none =>
      rw [hi] at h
      cases h
  | some b =>
      rw [hi, Option.getD_some] at h
      subst h
      exact Array.mem_of_getElem? hi

/-- A new table has no bucket. -/
theorem not_hasBucket_withBits (bits : Nat) (bucket : Bucket φ α) :
    ¬ (withBits bits : Table φ α).HasBucket bucket := by
  intro h
  obtain ⟨-, h⟩ := Array.mem_replicate.mp h
  cases h

/-- Placing a bucket adds that one at most. -/
theorem hasBucket_place {t : Table φ α} {b bucket : Bucket φ α}
    (h : (t.place b).HasBucket bucket) : bucket = b ∨ t.HasBucket bucket := by
  rw [place] at h
  split at h
  · rcases Array.mem_or_eq_of_mem_setIfInBounds h with h | h
    · exact Or.inr h
    · exact Or.inl (Option.some.inj h)
  · exact Or.inr h

theorem hasBucket_foldl_place {bs : List (Bucket φ α)} {t : Table φ α} {bucket : Bucket φ α}
    (h : (bs.foldl place t).HasBucket bucket) : bucket ∈ bs ∨ t.HasBucket bucket := by
  induction bs generalizing t with
  | nil => exact Or.inr h
  | cons b rest ih =>
      rcases ih h with h | h
      · exact Or.inl (List.mem_cons_of_mem b h)
      · rcases hasBucket_place h with rfl | h
        · exact Or.inl (List.mem_cons_self ..)
        · exact Or.inr h

/-- Growing the table moves its buckets and makes none. -/
theorem hasBucket_reserve {t : Table φ α} {bucket : Bucket φ α}
    (h : t.reserve.HasBucket bucket) : t.HasBucket bucket := by
  rw [reserve] at h
  split at h
  · rcases hasBucket_foldl_place h with h | h
    · obtain ⟨b, hb, rfl⟩ := List.mem_filterMap.mp h
      exact Array.mem_toList_iff.mp hb
    · exact absurd h (not_hasBucket_withBits _ bucket)
  · exact h

/-- Probing ends at the bucket of the position it looks for. -/
theorem position_of_probeFrom {buckets : Array (Option (Bucket φ α))} {position left start i : Nat}
    (h : probeFrom buckets position left start = .found i) :
    ∃ bucket, buckets.getD i none = some bucket ∧ bucket.position = position := by
  induction left generalizing start with
  | zero => cases h
  | succ left ih =>
      rw [probeFrom] at h
      cases hb : buckets.getD start none with
      | none =>
          rw [hb] at h
          cases h
      | some bucket =>
          simp only [hb] at h
          split at h
          · rename_i hp
            cases h
            exact ⟨bucket, hb, hp⟩
          · exact ih h

/-! ## Outcomes -/

variable [DecidableEq φ]

/-- The outcome stands in the table under the key. -/
def Holds (t : Table φ α) (key : MemoKey φ) (outcome : α) : Prop :=
  ∃ bucket, t.HasBucket bucket ∧ bucket.position = key.position ∧
    chainGet? key.expr key.print bucket.chain = some outcome

/-- A new table holds nothing. -/
theorem not_holds_empty (key : MemoKey φ) (outcome : α) :
    ¬ (empty : Table φ α).Holds key outcome := by
  rintro ⟨bucket, h, -, -⟩
  exact not_hasBucket_withBits _ bucket h

/-- What is found in a table is held by it. -/
theorem holds_of_get? {t : Table φ α} {key : MemoKey φ} {outcome : α}
    (h : t.get? key = some outcome) : t.Holds key outcome := by
  rw [get?] at h
  split at h
  · rename_i i hprobe
    obtain ⟨bucket, hb, hp⟩ := position_of_probeFrom hprobe
    simp only [hb] at h
    exact ⟨bucket, hasBucket_of_getD hb, hp, h⟩
  · cases h

/-- A changed chain answers with the new outcome under its key and as before under the others. -/
theorem chainGet?_of_chainSet? {expr e : ExprId} {print p : φ} {outcome : α}
    {chain chain' : List (MemoEntry φ α)} (h : chainSet? expr print outcome chain = some chain') :
    chainGet? e p chain' = if e = expr ∧ p = print then some outcome else chainGet? e p chain := by
  induction chain generalizing chain' with
  | nil => cases h
  | cons entry rest ih =>
      rw [chainSet?] at h
      split at h
      · rename_i hkey
        cases h
        obtain ⟨rfl, rfl⟩ := hkey
        simp only [chainGet?]
        grind
      · rename_i hkey
        obtain ⟨rest', hrest, rfl⟩ := Option.map_eq_some_iff.mp h
        simp only [chainGet?, ih hrest]
        grind

/-- What is held after an insertion is the new outcome or was held before. -/
theorem holds_insert {t : Table φ α} {key k : MemoKey φ} {outcome o : α}
    (h : (t.insert key outcome).Holds k o) : k = key ∧ o = outcome ∨ t.Holds k o := by
  obtain ⟨bucket, hbucket, hposition, hchain⟩ := h
  -- an old bucket answers as before, also if the table has grown
  have hold : t.reserve.HasBucket bucket → t.Holds k o := fun hb =>
    ⟨bucket, hasBucket_reserve hb, hposition, hchain⟩
  have hkey : k.expr = key.expr → k.print = key.print → bucket.position = key.position →
      k = key := by
    intro hexpr hprint hpos
    cases k
    cases key
    simp_all
  simp only [insert] at hbucket
  split at hbucket
  · rename_i i hprobe
    obtain ⟨found, hfound, hpos⟩ := position_of_probeFrom hprobe
    simp only [hfound] at hbucket
    split at hbucket
    · rename_i chain hset
      rcases Array.mem_or_eq_of_mem_setIfInBounds hbucket with hb | hb
      · exact Or.inr (hold hb)
      · cases hb
        rw [chainGet?_of_chainSet? hset] at hchain
        split at hchain
        · rename_i hk
          exact Or.inl ⟨hkey hk.1 hk.2 hpos, (Option.some.inj hchain).symm⟩
        · exact Or.inr ⟨found, hasBucket_reserve (hasBucket_of_getD hfound), hposition, hchain⟩
    · rcases Array.mem_or_eq_of_mem_setIfInBounds hbucket with hb | hb
      · exact Or.inr (hold hb)
      · cases hb
        simp only [chainGet?] at hchain
        split at hchain
        · rename_i hk
          exact Or.inl ⟨hkey hk.1.symm hk.2.symm hpos, (Option.some.inj hchain).symm⟩
        · exact Or.inr ⟨found, hasBucket_reserve (hasBucket_of_getD hfound), hposition, hchain⟩
  · rcases Array.mem_or_eq_of_mem_setIfInBounds hbucket with hb | hb
    · exact Or.inr (hold hb)
    · cases hb
      simp only [chainGet?] at hchain
      split at hchain
      · rename_i hk
        exact Or.inl ⟨hkey hk.1.symm hk.2.symm rfl, (Option.some.inj hchain).symm⟩
      · cases hchain
  · exact Or.inr (hold hbucket)

end Packrat.Table
