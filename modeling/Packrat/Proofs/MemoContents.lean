import Packrat.Proofs.MemoEntries
import Packrat.Proofs.MemoProbes
import Packrat.Proofs.OrderedContents

/-! # A memo table is a finite map

    What a table holds is read off position by position: the bucket of a position is the one at
    which probing for it ends (`bucket?`).  In a tidy table every bucket is found by probing for its
    own position.  A probe that finds its bucket passes occupied buckets only, so FILLING A FREE
    BUCKET CHANGES NO SUCH PROBE, and a probe that ends at a free bucket finds what is put there
    (`Tidy.fill`).  Moving all buckets to a larger table is a row of such steps
    (`Tidy.foldl_place`), and storing is one of them or the change of one chain.

    So after any insertions a lookup gives the latest outcome stored under its key, the counts are
    those of the distinct keys and the distinct positions, and every probe ends where it should
    (`ofList_finiteMap`). -/

namespace Packrat.Table

variable {φ α : Type} {t : Table φ α}

/-! ## Probes in a changed table -/

section Probes

variable {buckets buckets' : Array (Option (Bucket φ α))} {position left start i j : Nat}
  {bucket : Bucket φ α}

theorem getD_of_getElem? {entry : Option (Bucket φ α)} (h : buckets[i]? = some entry) :
    buckets.getD i none = entry := by
  rw [Array.getD_eq_getD_getElem?, h, Option.getD_some]

theorem getElem?_put (hj : j < buckets.size) (entry : Option (Bucket φ α)) (i : Nat) :
    (buckets.setIfInBounds j entry)[i]? = if i = j then some entry else buckets[i]? := by
  by_cases hi : i = j
  · subst hi
    simp [hj]
  · simp [hi, Ne.symm hi]

theorem getD_put (hj : j < buckets.size) (entry : Option (Bucket φ α)) (i : Nat) :
    (buckets.setIfInBounds j entry).getD i none = if i = j then entry else buckets.getD i none := by
  rw [Array.getD_eq_getD_getElem?, getElem?_put hj, Array.getD_eq_getD_getElem?]
  split
  · rfl
  · rfl

/-- A probe that finds its bucket has passed no free one, so it does not see one filled. -/
theorem probeFrom_fill_found (hfree : buckets[j]? = some none) (bucket : Bucket φ α)
    (h : probeFrom buckets position left start = .found i) :
    probeFrom (buckets.setIfInBounds j (some bucket)) position left start = .found i := by
  obtain ⟨hj, -⟩ := Array.getElem?_eq_some_iff.mp hfree
  induction left generalizing start with
  | zero => cases h
  | succ left ih =>
      rw [probeFrom] at h ⊢
      cases hhere : buckets.getD start none with
      | none =>
          rw [hhere] at h
          cases h
      | some other =>
          have hne : start ≠ j := by
            rintro rfl
            cases hhere.symm.trans (getD_of_getElem? hfree)
          rw [getD_put hj, if_neg hne, hhere, Array.size_setIfInBounds]
          rw [hhere] at h
          dsimp only at h ⊢
          split at h
          · rename_i hposition
            rw [if_pos hposition]
            exact h
          · rename_i hposition
            rw [if_neg hposition]
            exact ih h

/-- What is put where a probe ends is found by that probe. -/
theorem probeFrom_fill_free (hfree : buckets[j]? = some none)
    (h : probeFrom buckets bucket.position left start = .free j) :
    probeFrom (buckets.setIfInBounds j (some bucket)) bucket.position left start = .found j := by
  obtain ⟨hj, -⟩ := Array.getElem?_eq_some_iff.mp hfree
  induction left generalizing start with
  | zero => cases h
  | succ left ih =>
      rw [probeFrom] at h ⊢
      cases hhere : buckets.getD start none with
      | none =>
          rw [hhere] at h
          cases h
          rw [getD_put hj, if_pos rfl]
          exact if_pos rfl
      | some other =>
          have hne : start ≠ j := by
            rintro rfl
            cases hhere.symm.trans (getD_of_getElem? hfree)
          rw [getD_put hj, if_neg hne, hhere, Array.size_setIfInBounds]
          rw [hhere] at h
          dsimp only at h ⊢
          split at h
          · cases h
          · rename_i hposition
            rw [if_neg hposition]
            exact ih h

/-- A probe sees of each bucket its position only. -/
theorem probeFrom_congr (hsize : buckets'.size = buckets.size)
    (h : ∀ i, (buckets'.getD i none).map Bucket.position =
      (buckets.getD i none).map Bucket.position) :
    probeFrom buckets' position left start = probeFrom buckets position left start := by
  induction left generalizing start with
  | zero => rfl
  | succ left ih =>
      have hhere := h start
      rw [probeFrom, probeFrom]
      cases hold : buckets.getD start none with
      | none =>
          rw [hold, Option.map_none, Option.map_eq_none_iff] at hhere
          rw [hhere]
      | some bucket =>
          rw [hold, Option.map_some, Option.map_eq_some_iff] at hhere
          obtain ⟨bucket', hnew, hposition⟩ := hhere
          rw [hnew]
          dsimp only
          rw [hposition, hsize, ih]

end Probes

/-! ## The bucket of a position -/

/-- The bucket of a position, if there is one. -/
def bucket? (t : Table φ α) (position : Nat) : Option (Bucket φ α) :=
  match t.probe position with
  | .found index => t.buckets.getD index none
  | _ => none

/-- Probing for a position ends at its bucket or at a free one. -/
def ProbeEnds (t : Table φ α) (position : Nat) : Prop :=
  (∃ i bucket, t.probe position = .found i ∧ t.buckets[i]? = some (some bucket) ∧
      bucket.position = position) ∨
    ∃ i, t.probe position = .free i ∧ t.buckets[i]? = some none

/-- Every bucket is found by probing for its position. -/
structure Tidy (t : Table φ α) : Prop extends Counted t where
  found : ∀ i bucket, t.buckets[i]? = some (some bucket) → t.probe bucket.position = .found i

theorem Counted.probeEnds (h : t.Counted) (hroom : t.positions < t.capacity) (position : Nat) :
    t.ProbeEnds position := by
  obtain ⟨i, -, hfound | hfree⟩ := h.probe_cases hroom position
  · obtain ⟨bucket, hbucket, hposition⟩ := position_of_probeFrom hfound
    exact Or.inl ⟨i, bucket, hfound, getElem?_of_getD hbucket, hposition⟩
  · exact Or.inr ⟨i, hfree⟩

theorem hasBucket_iff {bucket : Bucket φ α} :
    t.HasBucket bucket ↔ ∃ i : Nat, t.buckets[i]? = some (some bucket) :=
  Array.mem_iff_getElem?

/-- The bucket of a position is the one that has it. -/
theorem Tidy.bucket?_eq_some (h : t.Tidy) {position : Nat} {bucket : Bucket φ α} :
    t.bucket? position = some bucket ↔ t.HasBucket bucket ∧ bucket.position = position := by
  constructor
  · intro hbucket
    rw [bucket?] at hbucket
    split at hbucket
    · rename_i i hprobe
      obtain ⟨other, hother, hposition⟩ := position_of_probeFrom hprobe
      cases hbucket.symm.trans hother
      exact ⟨hasBucket_of_getD hbucket, hposition⟩
    · cases hbucket
  · rintro ⟨hbucket, rfl⟩
    obtain ⟨i, hi⟩ := hasBucket_iff.mp hbucket
    rw [bucket?, h.found i bucket hi]
    exact getD_of_getElem? hi

theorem Tidy.bucket?_eq_none (h : t.Tidy) {position : Nat} :
    t.bucket? position = none ↔ ∀ bucket, t.HasBucket bucket → bucket.position ≠ position := by
  constructor
  · intro hnone bucket hbucket hposition
    cases hnone.symm.trans (h.bucket?_eq_some.mpr ⟨hbucket, hposition⟩)
  · intro hnone
    rw [Option.eq_none_iff_forall_ne_some]
    intro bucket hbucket
    obtain ⟨hhas, hposition⟩ := h.bucket?_eq_some.mp hbucket
    exact hnone bucket hhas hposition

theorem tidy_withBits {bits : Nat} (hbits : 0 < bits) : (withBits bits : Table φ α).Tidy where
  toCounted := counted_withBits hbits
  found i bucket hi := (not_hasBucket_withBits bits bucket (hasBucket_iff.mpr ⟨i, hi⟩)).elim

theorem bucket?_withBits {bits : Nat} (hbits : 0 < bits) (position : Nat) :
    (withBits bits : Table φ α).bucket? position = none :=
  (tidy_withBits hbits).bucket?_eq_none.mpr fun bucket hbucket =>
    (not_hasBucket_withBits bits bucket hbucket).elim

/-! ## Filling and changing a bucket -/

/-- A bucket put where probing for its position ends joins the others. -/
theorem Tidy.fill (h : t.Tidy) (bucket : Bucket φ α) {j : Nat}
    (hprobe : t.probe bucket.position = .free j) (length : Nat) {t' : Table φ α}
    (ht' : t' = { t with
      buckets := t.buckets.setIfInBounds j (some bucket)
      positions := t.positions + 1
      length := length }) :
    t'.Tidy ∧ ∀ other, t'.HasBucket other ↔ other = bucket ∨ t.HasBucket other := by
  have hfree := h.free hprobe
  obtain ⟨hj, -⟩ := Array.getElem?_eq_some_iff.mp hfree
  have hat : ∀ i, t'.buckets[i]? = if i = j then some (some bucket) else t.buckets[i]? := by
    intro i
    rw [ht']
    exact getElem?_put hj _ i
  have hprobes : ∀ position, t'.probe position =
      probeFrom (t.buckets.setIfInBounds j (some bucket)) position t.capacity
        (home t.bits position) := by
    intro position
    rw [ht', probe, capacity, Array.size_setIfInBounds]
    rfl
  constructor
  · refine ⟨ht' ▸ h.toCounted.fill hfree bucket length, ?_⟩
    intro i other hi
    rw [hat] at hi
    rw [hprobes]
    split at hi
    · rename_i hij
      cases hi
      rw [hij]
      exact probeFrom_fill_free hfree hprobe
    · exact probeFrom_fill_found hfree bucket (h.found i other hi)
  · intro other
    rw [hasBucket_iff, hasBucket_iff]
    constructor
    · rintro ⟨i, hi⟩
      rw [hat] at hi
      split at hi
      · cases hi
        exact Or.inl rfl
      · exact Or.inr ⟨i, hi⟩
    · rintro (rfl | ⟨i, hi⟩)
      · exact ⟨j, by rw [hat, if_pos rfl]⟩
      · refine ⟨i, ?_⟩
        rw [hat, if_neg, hi]
        rintro rfl
        cases hi.symm.trans hfree

/-- A bucket that joins the others is the bucket of its position. -/
theorem Tidy.bucket?_joined {t' : Table φ α} (h : t.Tidy) (h' : t'.Tidy) {bucket : Bucket φ α}
    (hnew : t.bucket? bucket.position = none)
    (hjoined : ∀ other, t'.HasBucket other ↔ other = bucket ∨ t.HasBucket other) (position : Nat) :
    t'.bucket? position =
      if position = bucket.position then some bucket else t.bucket? position := by
  refine Option.ext fun other => ?_
  rw [h'.bucket?_eq_some, hjoined]
  split
  · rename_i hposition
    rw [hposition, Option.some_inj]
    constructor
    · rintro ⟨rfl | hold, hother⟩
      · rfl
      · exact absurd hother (h.bucket?_eq_none.mp hnew other hold)
    · rintro rfl
      exact ⟨Or.inl rfl, rfl⟩
  · rename_i hposition
    rw [h.bucket?_eq_some]
    constructor
    · rintro ⟨rfl | hold, hother⟩
      · exact absurd hother.symm hposition
      · exact ⟨hold, hother⟩
    · exact fun hother => ⟨Or.inr hother.1, hother.2⟩

/-- A bucket changed in its place is the bucket of its position, and the others stay. -/
theorem Tidy.refill (h : t.Tidy) (bucket : Bucket φ α) {old : Bucket φ α} {j : Nat}
    (hold : t.buckets.getD j none = some old) (hsame : bucket.position = old.position)
    (length : Nat) {t' : Table φ α}
    (ht' : t' = { t with
      buckets := t.buckets.setIfInBounds j (some bucket)
      length := length }) :
    t'.Tidy ∧ ∀ position, t'.bucket? position =
      if position = bucket.position then some bucket else t.bucket? position := by
  have hat := getElem?_of_getD hold
  obtain ⟨hj, -⟩ := Array.getElem?_eq_some_iff.mp hat
  have hget : ∀ i, t'.buckets.getD i none =
      if i = j then some bucket else t.buckets.getD i none := by
    intro i
    rw [ht']
    exact getD_put hj _ i
  have hprobes : ∀ position, t'.probe position = t.probe position := by
    intro position
    have hsize : t'.buckets.size = t.buckets.size := by
      rw [ht']
      exact Array.size_setIfInBounds ..
    have hbits : t'.bits = t.bits := by rw [ht']
    rw [probe, probe, capacity, capacity, hsize, hbits]
    refine probeFrom_congr hsize fun i => ?_
    rw [hget]
    split
    · rename_i hij
      rw [hij, hold, Option.map_some, Option.map_some, hsame]
    · rfl
  constructor
  · refine ⟨ht' ▸ h.toCounted.refill hold bucket length, ?_⟩
    intro i other hi
    have hother := (hget i).symm.trans (getD_of_getElem? hi)
    rw [hprobes]
    split at hother
    · rename_i hij
      cases hother
      rw [hsame, hij]
      exact h.found j old hat
    · exact h.found i other (getElem?_of_getD hother)
  · intro position
    rw [bucket?, hprobes]
    split
    · rename_i i hprobe
      obtain ⟨other, hother, hposition⟩ := position_of_probeFrom hprobe
      rw [hget]
      by_cases hij : i = j
      · subst hij
        cases hother.symm.trans hold
        rw [if_pos rfl, if_pos (hposition.symm.trans hsame.symm)]
      · rw [if_neg hij, if_neg, bucket?, hprobe]
        rintro rfl
        rw [hsame, h.found j old hat] at hprobe
        exact hij (Probe.found.inj hprobe).symm
    · rename_i hnot
      rw [if_neg, bucket?]
      · split
        · rename_i i hprobe
          exact absurd hprobe (hnot i)
        · rfl
      · rintro rfl
        rw [hsame] at hnot
        exact hnot j (h.found j old hat)

/-! ## Moving buckets -/

/-- A bucket with a new position is placed where probing for it ends. -/
theorem Tidy.place (h : t.Tidy) (hroom : t.positions < t.capacity) {bucket : Bucket φ α}
    (hnew : ∀ other, t.HasBucket other → other.position ≠ bucket.position) :
    (∃ i, t.probe bucket.position = .free i ∧ t.buckets[i]? = some none) ∧
      (t.place bucket).Tidy ∧ (t.place bucket).positions = t.positions + 1 ∧
      (t.place bucket).capacity = t.capacity ∧
      ∀ other, (t.place bucket).HasBucket other ↔ other = bucket ∨ t.HasBucket other := by
  rcases h.probeEnds hroom bucket.position with ⟨i, other, -, hother, hsame⟩ | ⟨i, hprobe, hfree⟩
  · exact absurd hsame (hnew other (hasBucket_iff.mpr ⟨i, hother⟩))
  · have hplace : t.place bucket = { t with
        buckets := t.buckets.setIfInBounds i (some bucket)
        positions := t.positions + 1
        length := t.length } := by
      rw [Table.place, hprobe]
    obtain ⟨htidy, hjoined⟩ := h.fill bucket hprobe t.length hplace
    refine ⟨⟨i, hprobe, hfree⟩, htidy, ?_, ?_, hjoined⟩
    · rw [hplace]
    · rw [hplace, capacity, Array.size_setIfInBounds, capacity]

/-- Buckets with new and distinct positions find their places one after the other. -/
theorem Tidy.foldl_place (h : t.Tidy) {bs : List (Bucket φ α)}
    (hroom : t.positions + bs.length < t.capacity) (hdistinct : (bs.map Bucket.position).Nodup)
    (hnew : ∀ bucket ∈ bs, ∀ other, t.HasBucket other → other.position ≠ bucket.position) :
    (∀ before bucket after, bs = before ++ bucket :: after →
        ∃ i, (before.foldl Table.place t).probe bucket.position = .free i ∧
          (before.foldl Table.place t).buckets[i]? = some none) ∧
      (bs.foldl Table.place t).Tidy ∧
      (bs.foldl Table.place t).positions = t.positions + bs.length ∧
      ∀ other, (bs.foldl Table.place t).HasBucket other ↔ other ∈ bs ∨ t.HasBucket other := by
  induction bs generalizing t with
  | nil =>
      refine ⟨?_, h, rfl, fun other => (or_iff_right List.not_mem_nil).symm⟩
      intro before bucket after hsplit
      cases before <;> cases hsplit
  | cons head rest ih =>
      obtain ⟨hhead, hrest⟩ := List.forall_mem_cons.mp hnew
      rw [List.map_cons, List.nodup_cons] at hdistinct
      obtain ⟨hapart, hdistinct⟩ := hdistinct
      rw [List.length_cons] at hroom
      obtain ⟨hfree, htidy, hpositions, hcapacity, hjoined⟩ := h.place (by omega) hhead
      have hnew' : ∀ bucket ∈ rest, ∀ other, (t.place head).HasBucket other →
          other.position ≠ bucket.position := by
        intro bucket hbucket other hother
        rcases (hjoined other).mp hother with rfl | hother
        · exact fun hsame => hapart (hsame ▸ List.mem_map_of_mem hbucket)
        · exact hrest bucket hbucket other hother
      obtain ⟨hends, htidy', hpositions', hhas⟩ := ih htidy (by omega) hdistinct hnew'
      refine ⟨?_, htidy', ?_, ?_⟩
      · intro before bucket after hsplit
        cases before with
        | nil =>
            cases hsplit
            exact hfree
        | cons first before =>
            cases hsplit
            exact hends before bucket after rfl
      · rw [List.foldl_cons, hpositions', hpositions, List.length_cons]
        omega
      · intro other
        rw [List.foldl_cons, hhas, hjoined, List.mem_cons, or_assoc, or_left_comm]

/-- The buckets of a table in the order in which they stand. -/
theorem mem_standing {bucket : Bucket φ α} :
    bucket ∈ t.buckets.toList.filterMap id ↔ t.HasBucket bucket := by
  rw [List.mem_filterMap, HasBucket, ← Array.mem_toList_iff]
  constructor
  · rintro ⟨entry, hentry, rfl⟩
    exact hentry
  · exact fun hbucket => ⟨some bucket, hbucket, rfl⟩

/-- No two buckets have one position. -/
theorem Tidy.distinct (h : t.Tidy) :
    ((t.buckets.toList.filterMap id).map Bucket.position).Nodup := by
  rw [List.Nodup, List.pairwise_map, List.pairwise_filterMap, List.pairwise_iff_getElem]
  intro i j hi hj hij bucket hbucket bucket' hbucket' hsame
  have hat : t.buckets[i]? = some (some bucket) := by
    rw [← Array.getElem?_toList, List.getElem?_eq_getElem hi]
    exact congrArg some hbucket
  have hat' : t.buckets[j]? = some (some bucket') := by
    rw [← Array.getElem?_toList, List.getElem?_eq_getElem hj]
    exact congrArg some hbucket'
  have hprobe := h.found i bucket hat
  rw [hsame, h.found j bucket' hat'] at hprobe
  exact hij.ne (Probe.found.inj hprobe).symm

theorem Counted.length_standing (h : t.Counted) :
    (t.buckets.toList.filterMap id).length = t.positions := by
  rw [List.length_filterMap_eq_countP, h.positions, occupied, ← Array.countP_toList]
  rfl

/-- A table that doubles finds a free bucket for each of its own, and has the same buckets. -/
theorem Tidy.grow (h : t.Tidy) (hroom : t.positions < t.capacity * 2) :
    (∀ before bucket after, t.buckets.toList.filterMap id = before ++ bucket :: after →
        ∃ i, (before.foldl Table.place (withBits (t.bits + 1))).probe bucket.position = .free i ∧
          (before.foldl Table.place (withBits (t.bits + 1))).buckets[i]? = some none) ∧
      t.grow.Tidy ∧ t.grow.positions = t.positions ∧
      ∀ position, t.grow.bucket? position = t.bucket? position := by
  have hfresh : (withBits (t.bits + 1) : Table φ α).Tidy := tidy_withBits (Nat.succ_pos _)
  have hlength := h.toCounted.length_standing
  have hspace : (withBits (t.bits + 1) : Table φ α).positions +
      (t.buckets.toList.filterMap id).length < (withBits (t.bits + 1) : Table φ α).capacity := by
    rw [hlength, hfresh.size]
    have hdouble : t.capacity * 2 = 2 ^ (t.bits + 1) := by rw [h.size, Nat.pow_succ]
    change 0 + t.positions < 2 ^ (t.bits + 1)
    omega
  obtain ⟨hends, htidy, hpositions, hhas⟩ := hfresh.foldl_place hspace h.distinct
    fun bucket _ other hother => (not_hasBucket_withBits _ other hother).elim
  -- the count of entries is no part of what probes see
  have hgrown : t.grow.Tidy := ⟨⟨htidy.bits, htidy.size, htidy.positions⟩, htidy.found⟩
  refine ⟨hends, hgrown, ?_, ?_⟩
  · change ((t.buckets.toList.filterMap id).foldl Table.place (withBits (t.bits + 1))).positions = _
    rw [hpositions, hlength]
    exact Nat.zero_add _
  · intro position
    refine Option.ext fun bucket => ?_
    rw [hgrown.bucket?_eq_some, h.bucket?_eq_some, ← mem_standing (t := t)]
    refine and_congr_left' ((hhas bucket).trans (or_iff_left ?_))
    exact not_hasBucket_withBits _ bucket

theorem length_reserve : t.reserve.length = t.length := by
  rw [reserve]
  split
  · rfl
  · rfl

/-- Making room keeps every bucket. -/
theorem Tidy.reserve (h : t.Tidy) (hroom : t.positions < t.capacity * 2) :
    t.reserve.Tidy ∧ t.reserve.positions = t.positions ∧
      ∀ position, t.reserve.bucket? position = t.bucket? position := by
  rw [Table.reserve]
  split
  · exact (h.grow hroom).2
  · exact ⟨h, rfl, fun _ => rfl⟩

/-! ## Chains -/

variable [DecidableEq φ]

/-- The chain after an outcome was stored: an entry that is there is changed, else one is put in
    front. -/
def chainPut (key : MemoKey φ) (outcome : α) (chain : List (MemoEntry φ α)) :
    List (MemoEntry φ α) :=
  (chainSet? key.expr key.print outcome chain).getD
    ({ expr := key.expr, print := key.print, outcome } :: chain)

theorem chainSet?_eq_none {expr : ExprId} {print : φ} {outcome : α}
    {chain : List (MemoEntry φ α)} :
    chainSet? expr print outcome chain = none ↔ chainGet? expr print chain = none := by
  induction chain with
  | nil => exact iff_of_true rfl rfl
  | cons entry rest ih =>
      rw [chainSet?, chainGet?]
      split
      · simp
      · rw [Option.map_eq_none_iff]
        exact ih

/-- A chain answers with the outcome stored last under a key, and as before under the others. -/
theorem chainGet?_chainPut (key : MemoKey φ) (outcome : α) (e : ExprId) (p : φ)
    (chain : List (MemoEntry φ α)) :
    chainGet? e p (chainPut key outcome chain) =
      if e = key.expr ∧ p = key.print then some outcome else chainGet? e p chain := by
  rw [chainPut]
  cases hset : chainSet? key.expr key.print outcome chain with
  | none =>
      rw [Option.getD_none, chainGet?]
      grind
  | some chain' => exact chainGet?_of_chainSet? hset

/-- The entries made at a position. -/
def chain (t : Table φ α) (position : Nat) : List (MemoEntry φ α) :=
  ((t.bucket? position).map Bucket.chain).getD []

theorem get?_eq (t : Table φ α) (key : MemoKey φ) :
    t.get? key = chainGet? key.expr key.print (t.chain key.position) := by
  rw [get?, chain, bucket?]
  cases t.probe key.position with
  | found i => cases hi : t.buckets.getD i none <;> simp only [hi] <;> rfl
  | free | full => rfl

/-! ## Storing -/

/-- What storing an outcome does to a table. -/
structure Stored (t : Table φ α) (key : MemoKey φ) (outcome : α) (t' : Table φ α) : Prop where
  tidy : t'.Tidy
  bucket? : ∀ position, t'.bucket? position =
    if position = key.position then
      some { position := key.position, chain := chainPut key outcome (t.chain key.position) }
    else t.bucket? position
  positions : t'.positions = t.positions + if (t.bucket? key.position).isSome then 0 else 1
  length : t'.length = t.length + if (t.get? key).isSome then 0 else 1

/-- At a position that has a bucket, its chain changes. -/
theorem insert_of_found {key : MemoKey φ} (outcome : α) {i : Nat} {bucket : Bucket φ α}
    (hprobe : t.reserve.probe key.position = .found i)
    (hold : t.reserve.buckets.getD i none = some bucket) :
    t.insert key outcome = { t.reserve with
      buckets := t.reserve.buckets.setIfInBounds i
        (some { bucket with chain := chainPut key outcome bucket.chain })
      length := t.reserve.length +
        if (chainGet? key.expr key.print bucket.chain).isSome then 0 else 1 } := by
  simp only [Table.insert, hprobe, hold, chainPut]
  cases hset : chainSet? key.expr key.print outcome bucket.chain with
  | none =>
      rw [chainSet?_eq_none.mp hset]
      rfl
  | some chain' =>
      have hstored : chainSet? key.expr key.print outcome bucket.chain ≠ none :=
        hset ▸ Option.some_ne_none chain'
      rw [if_pos]
      · rfl
      · exact Option.isSome_iff_ne_none.mpr fun hnone => hstored (chainSet?_eq_none.mpr hnone)

/-- A position that has none gets one. -/
theorem insert_of_free {key : MemoKey φ} (outcome : α) {i : Nat}
    (hprobe : t.reserve.probe key.position = .free i) :
    t.insert key outcome = { t.reserve with
      buckets := t.reserve.buckets.setIfInBounds i
        (some { position := key.position, chain := chainPut key outcome [] })
      positions := t.reserve.positions + 1
      length := t.reserve.length + 1 } := by
  simp only [Table.insert, hprobe]
  rfl

theorem Tidy.insert (h : t.Tidy) (hsound : t.Sound) (key : MemoKey φ) (outcome : α) :
    t.Stored key outcome (t.insert key outcome) := by
  obtain ⟨hcounted, hroom⟩ := hsound.reserve
  have hlt := hsound.room_lt
  obtain ⟨htidy, hpositions, hbuckets⟩ := h.reserve (by omega)
  have hlength := length_reserve (t := t)
  have hget := t.get?_eq key
  rcases htidy.probeEnds (by omega) key.position with
    ⟨i, bucket, hprobe, hat, hposition⟩ | ⟨i, hprobe, hfree⟩
  · have hold := getD_of_getElem? hat
    have hbucket : t.bucket? key.position = some bucket := by
      rw [← hbuckets, bucket?, hprobe]
      exact hold
    have hchain : t.chain key.position = bucket.chain := by
      rw [chain, hbucket, Option.map_some, Option.getD_some]
    have hinsert := insert_of_found outcome hprobe hold
    obtain ⟨htidy', hbuckets'⟩ :=
      htidy.refill { bucket with chain := chainPut key outcome bucket.chain } hold rfl _ hinsert
    refine ⟨htidy', fun position => ?_, ?_, ?_⟩
    · rw [hbuckets', hbuckets, hchain]
      dsimp only
      rw [hposition]
    · rw [hinsert, hbucket]
      exact hpositions
    · rw [hinsert, hget, hchain]
      exact congrArg (· + _) hlength
  · have hbucket : t.bucket? key.position = none := by
      rw [← hbuckets, bucket?, hprobe]
    have hchain : t.chain key.position = [] := by
      rw [chain, hbucket]
      rfl
    have hinsert := insert_of_free outcome hprobe
    obtain ⟨htidy', hjoined⟩ := htidy.fill _ hprobe _ hinsert
    refine ⟨htidy', fun position => ?_, ?_, ?_⟩
    · rw [htidy.bucket?_joined htidy' ((hbuckets _).trans hbucket) hjoined, hbuckets, hchain]
    · rw [hinsert, hbucket]
      exact congrArg (· + 1) hpositions
    · rw [hinsert, hget, hchain]
      exact congrArg (· + 1) hlength

/-- A lookup finds what was stored last under its key, and nothing else has changed. -/
theorem Stored.get? {key : MemoKey φ} {outcome : α} {t' : Table φ α}
    (h : t.Stored key outcome t') (k : MemoKey φ) :
    t'.get? k = if k = key then some outcome else t.get? k := by
  rw [get?_eq, get?_eq, chain, h.bucket?]
  by_cases hposition : k.position = key.position
  · rw [if_pos hposition, Option.map_some, Option.getD_some, chainGet?_chainPut, hposition]
    cases k
    cases key
    simp_all
  · rw [if_neg hposition, if_neg]
    · rfl
    · rintro rfl
      exact hposition rfl

/-! ## Histories -/

/-- A table into which outcomes were stored one after the other. -/
def ofList (inserts : List (MemoKey φ × α)) : Table φ α :=
  inserts.foldl (fun t entry => t.insert entry.1 entry.2) empty

/-- The table reflects what was stored into it. -/
structure Reflects (inserts : List (MemoKey φ × α)) (t : Table φ α) : Prop where
  sound : t.Sound
  tidy : t.Tidy
  get? : ∀ key, t.get? key = inserts.reverse.lookup key
  bucket? : ∀ position, (t.bucket? position).isSome ↔ position ∈ inserts.map (·.1.position)
  length : t.length = (inserts.map Prod.fst).toFinset.card
  positions : t.positions = (inserts.map (·.1.position)).toFinset.card

theorem reflects_empty : Reflects [] (empty : Table φ α) where
  sound := sound_empty
  tidy := tidy_withBits (by decide)
  get? key := by
    rw [get?_eq, chain, empty, bucket?_withBits (by decide)]
    rfl
  bucket? position := by
    rw [empty, bucket?_withBits (by decide)]
    simp
  length := rfl
  positions := rfl

/-- A key has an outcome if one was stored under it. -/
theorem Reflects.isSome_get? {inserts : List (MemoKey φ × α)} (h : Reflects inserts t)
    (key : MemoKey φ) : (t.get? key).isSome ↔ key ∈ inserts.map Prod.fst := by
  rw [h.get?, Ordered.isSome_lookup, List.map_reverse, List.mem_reverse]

/-- A list with one more member has one more distinct member if it is new. -/
theorem card_toFinset_append {κ : Type} [DecidableEq κ] (l : List κ) (k : κ) :
    (l ++ [k]).toFinset.card = l.toFinset.card + if k ∈ l then 0 else 1 := by
  have hinsert : (l ++ [k]).toFinset = Insert.insert k l.toFinset := by
    ext j
    simp
  rw [hinsert, Finset.card_insert_eq_ite]
  simp only [List.mem_toFinset]
  split
  · rfl
  · rfl

/-- One more outcome is stored. -/
theorem Reflects.insert {inserts : List (MemoKey φ × α)} (h : Reflects inserts t)
    (key : MemoKey φ) (outcome : α) :
    Reflects (inserts ++ [(key, outcome)]) (t.insert key outcome) := by
  have hstored := h.tidy.insert h.sound key outcome
  refine ⟨h.sound.insert key outcome, hstored.tidy, ?_, ?_, ?_, ?_⟩
  · intro k
    rw [hstored.get?, List.reverse_append, List.reverse_singleton, List.singleton_append,
      Ordered.lookup_cons_eq, h.get?]
  · intro position
    rw [hstored.bucket?, List.map_append, List.mem_append, ← h.bucket?]
    split <;> simp_all
  · rw [hstored.length, h.length, List.map_append, List.map_singleton, card_toFinset_append]
    simp only [h.isSome_get?]
  · rw [hstored.positions, h.positions, List.map_append, List.map_singleton, card_toFinset_append]
    simp only [h.bucket?]

theorem reflects_ofList (inserts : List (MemoKey φ × α)) : Reflects inserts (ofList inserts) := by
  induction inserts using List.reverseRecOn with
  | nil => exact reflects_empty
  | append_singleton earlier entry ih =>
      rw [ofList, List.foldl_append]
      exact ih.insert entry.1 entry.2

/-- **A FINITE MAP**: whatever was stored, a lookup gives the latest outcome under its key, the
    table counts distinct keys and distinct positions and is at most three quarters full, and the
    probes of lookups, of insertions (once room is made) and of growing end at the bucket of their
    position or at a free one. -/
theorem ofList_finiteMap (inserts : List (MemoKey φ × α)) :
    (∀ key, (ofList inserts).get? key = inserts.reverse.lookup key) ∧
      (ofList inserts).length = (inserts.map Prod.fst).toFinset.card ∧
      (ofList inserts).positions = (inserts.map (·.1.position)).toFinset.card ∧
      (∃ bits, (ofList inserts).capacity = 2 ^ bits) ∧
      (ofList inserts).positions * 4 ≤ (ofList inserts).capacity * 3 ∧
      (∀ position, (ofList inserts).ProbeEnds position ∧
        (ofList inserts).reserve.ProbeEnds position) ∧
      ∀ before bucket after,
        (ofList inserts).buckets.toList.filterMap id = before ++ bucket :: after →
        (before.foldl place (withBits ((ofList inserts).bits + 1))).ProbeEnds bucket.position := by
  have h := reflects_ofList inserts
  generalize ofList inserts = t at h ⊢
  obtain ⟨hcounted, hroom⟩ := h.sound.reserve
  have hlt := h.sound.room_lt
  refine ⟨h.get?, h.length, h.positions, ⟨t.bits, h.tidy.size⟩, h.sound.room, ?_, ?_⟩
  · intro position
    exact ⟨h.tidy.probeEnds hlt position, hcounted.probeEnds (by omega) position⟩
  · intro before bucket after hsplit
    exact Or.inr ((h.tidy.grow (by omega)).1 before bucket after hsplit)

end Packrat.Table
