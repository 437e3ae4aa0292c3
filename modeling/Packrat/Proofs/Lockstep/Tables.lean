import Mathlib.Data.List.Forall2
import Mathlib.Data.Option.Basic
import Packrat.Memo.Table
import Packrat.State.Basic

/-! # Memo tables in lockstep

    A memo table finds its buckets by position and looks up a chain by comparing expressions and
    fingerprints for equality only.  So replace these by others, EQUAL ones by equal ones and
    different ones by different ones (`Pairing`): the table has the same layout, with the same
    buckets free, and the chains have entries of the same outcomes in the same order
    (`Pairing.Tables`).  A lookup finds the same outcome (`Pairing.Tables.get?`), and an insertion goes
    to the same place (`Pairing.Tables.insert`). -/

namespace Packrat

open Table

/-! ## Related lists -/

section Lists

variable {β γ : Type} {R : β → γ → Prop} {l : List β} {l' : List γ}

theorem forall₂_set (h : List.Forall₂ R l l') {b : β} {c : γ} (hbc : R b c) (i : Nat) :
    List.Forall₂ R (l.set i b) (l'.set i c) := by
  induction h generalizing i with
  | nil => exact .nil
  | cons hhead htail ih =>
      cases i with
      | zero => exact .cons hbc htail
      | succ i => exact .cons hhead (ih i)

/-- Both options are absent, or both are there. -/
theorem rel_cases {x : Option β} {y : Option γ} (h : Option.Rel R x y) :
    x = none ∧ y = none ∨ ∃ b c, x = some b ∧ y = some c ∧ R b c := by
  cases h with
  | none => exact .inl ⟨rfl, rfl⟩
  | some h => exact .inr ⟨_, _, rfl, rfl, h⟩

/-- Lists that are related have related elements at every index, or both none. -/
theorem rel_getElem? (h : List.Forall₂ R l l') (i : Nat) : Option.Rel R l[i]? l'[i]? := by
  induction h generalizing i with
  | nil => exact .none
  | cons hhead _ ih =>
      cases i with
      | zero => exact .some hhead
      | succ i => exact ih i

theorem forall₂_filterMap_id {l : List (Option β)} {l' : List (Option γ)}
    (h : List.Forall₂ (Option.Rel R) l l') : List.Forall₂ R (l.filterMap id) (l'.filterMap id) := by
  induction h with
  | nil => exact .nil
  | cons hhead _ ih =>
      cases hhead with
      | none => exact ih
      | some hhead => exact .cons hhead ih

theorem rel_getD_none {x : Option (Option β)} {y : Option (Option γ)}
    (h : Option.Rel (Option.Rel R) x y) : Option.Rel R (x.getD none) (y.getD none) := by
  cases h with
  | none => exact .none
  | some h => exact h

end Lists

/-! ## Keys and chains -/

/-- Pairs of expressions with fingerprints, of which two have the same left side exactly if they have
    the same right side. -/
structure Pairing where
  rel : ExprId × Fingerprint → ExprId × Fingerprint → Prop
  eq_iff {a a' b b' : ExprId × Fingerprint} : rel a a' → rel b b' → (a' = b' ↔ a = b)

namespace Pairing

/-- Keys at the same position. -/
structure Keys (P : Pairing) (k k' : MemoKey Fingerprint) : Prop where
  position : k'.position = k.position
  rel : P.rel (k.expr, k.print) (k'.expr, k'.print)

/-- Entries of the same outcome. -/
structure Entries (P : Pairing) {α : Type} (e e' : MemoEntry Fingerprint α) : Prop where
  rel : P.rel (e.expr, e.print) (e'.expr, e'.print)
  outcome : e'.outcome = e.outcome

variable {P : Pairing} {α : Type} {k k' : MemoKey Fingerprint} {e e' : MemoEntry Fingerprint α}
variable {o : α} {chain chain' : List (MemoEntry Fingerprint α)}

/-- An entry is found under a key exactly if the entry that is paired with it is found. -/
theorem Entries.found_iff (he : P.Entries e e') (hk : P.Keys k k') :
    (e'.expr = k'.expr ∧ e'.print = k'.print) ↔ e.expr = k.expr ∧ e.print = k.print := by
  rw [← Prod.mk.injEq, ← Prod.mk.injEq]
  exact P.eq_iff he.rel hk.rel

/-- A chain is searched alike for keys that are paired. -/
theorem chainGet?_paired (hk : P.Keys k k') (h : List.Forall₂ P.Entries chain chain') :
    chainGet? k'.expr k'.print chain' = chainGet? k.expr k.print chain := by
  induction h with
  | nil => rfl
  | cons hhead _ ih =>
      simp only [chainGet?, hhead.found_iff hk, hhead.outcome, ih]

/-- An entry of a chain is overwritten on both sides or on neither. -/
theorem chainSet?_paired (hk : P.Keys k k') (o : α) (h : List.Forall₂ P.Entries chain chain') :
    Option.Rel (List.Forall₂ P.Entries) (chainSet? k.expr k.print o chain)
      (chainSet? k'.expr k'.print o chain') := by
  induction h with
  | nil => exact .none
  | @cons e e' rest rest' hhead htail ih =>
      rw [chainSet?, chainSet?]
      by_cases hfound : e.expr = k.expr ∧ e.print = k.print
      · rw [if_pos hfound, if_pos ((hhead.found_iff hk).mpr hfound)]
        exact .some (.cons ⟨hhead.rel, rfl⟩ htail)
      · rw [if_neg hfound, if_neg (mt (hhead.found_iff hk).mp hfound)]
        obtain ⟨hx, hy⟩ | ⟨_, _, hx, hy, hrest⟩ := rel_cases ih
        · rw [hx, hy]
          exact .none
        · rw [hx, hy]
          exact .some (.cons hhead hrest)

/-! ## Tables -/

/-- Buckets at the same position, with entries that are paired. -/
structure Buckets (P : Pairing) (b b' : Bucket Fingerprint α) : Prop where
  position : b'.position = b.position
  chain : List.Forall₂ P.Entries b.chain b'.chain

/-- The same layout, and entries that are paired. -/
structure Tables (P : Pairing) (t t' : Table Fingerprint α) : Prop where
  bits : t'.bits = t.bits
  buckets : List.Forall₂ (Option.Rel P.Buckets) t.buckets.toList t'.buckets.toList
  positions : t'.positions = t.positions
  length : t'.length = t.length

variable {t t' : Table Fingerprint α} {b b' : Bucket Fingerprint α}

theorem tables_withBits (bits : Nat) :
    P.Tables (withBits bits : Table Fingerprint α) (withBits bits) where
  bits := rfl
  buckets := by
    rw [withBits, Array.toList_replicate, List.forall₂_same]
    intro bucket hbucket
    rw [List.eq_of_mem_replicate hbucket]
    exact .none
  positions := rfl
  length := rfl

namespace Tables

/-- Paired tables are of one size. -/
theorem capacity (h : P.Tables t t') : t'.capacity = t.capacity :=
  h.buckets.length_eq.symm

/-- Paired tables are filled at the same places. -/
theorem bucket (h : P.Tables t t') (i : Nat) :
    Option.Rel P.Buckets (t.buckets.getD i none) (t'.buckets.getD i none) := by
  rw [Array.getD_eq_getD_getElem?, Array.getD_eq_getD_getElem?, ← Array.getElem?_toList,
    ← Array.getElem?_toList]
  exact rel_getD_none (rel_getElem? h.buckets i)

/-- A probe only asks whether places are filled, so it stops at the same one. -/
theorem probeFrom (h : P.Tables t t') (position left i : Nat) :
    Table.probeFrom t'.buckets position left i = Table.probeFrom t.buckets position left i := by
  induction left generalizing i with
  | zero => rfl
  | succ left ih =>
      rw [Table.probeFrom, Table.probeFrom]
      have hsize : t'.buckets.size = t.buckets.size := h.capacity
      obtain ⟨hx, hy⟩ | ⟨bucket, bucket', hx, hy, hbucket⟩ := rel_cases (h.bucket i)
      · rw [hx, hy]
      · simp only [hx, hy, hbucket.position, hsize, ih]

/-- Probing ends at the same place. -/
theorem probe (h : P.Tables t t') (position : Nat) : t'.probe position = t.probe position := by
  rw [Table.probe, Table.probe, h.bits, h.capacity, h.probeFrom]

/-- A bucket is put in the same place. -/
theorem put (h : P.Tables t t') (hb : P.Buckets b b') (i : Nat)
    {positions positions' length length' : Nat} (hpositions : positions' = positions)
    (hlength : length' = length) :
    P.Tables
      { t with buckets := t.buckets.setIfInBounds i (some b), positions, length }
      { t' with
        buckets := t'.buckets.setIfInBounds i (some b')
        positions := positions'
        length := length' } where
  bits := h.bits
  buckets := by
    simp only [Array.toList_setIfInBounds]
    exact forall₂_set h.buckets (.some hb) i
  positions := hpositions
  length := hlength

/-- A bucket is put at the same place on both sides. -/
theorem place (h : P.Tables t t') (hb : P.Buckets b b') : P.Tables (t.place b) (t'.place b') := by
  rw [Table.place, Table.place, hb.position, h.probe]
  cases t.probe b.position with
  | free i => exact h.put hb i (congrArg (· + 1) h.positions) h.length
  | found | full => exact h

theorem foldl_place {bs bs' : List (Bucket Fingerprint α)} (h : P.Tables t t')
    (hbs : List.Forall₂ P.Buckets bs bs') :
    P.Tables (bs.foldl Table.place t) (bs'.foldl Table.place t') := by
  induction hbs generalizing t t' with
  | nil => exact h
  | cons hb _ ih => exact ih (h.place hb)

/-- Paired tables grow together, since they hold the same number of buckets. -/
theorem reserve (h : P.Tables t t') : P.Tables t.reserve t'.reserve := by
  rw [Table.reserve, Table.reserve, h.capacity, h.positions]
  split
  · have hgrown := (tables_withBits (t.bits + 1)).foldl_place (forall₂_filterMap_id h.buckets)
    rw [Table.grow, Table.grow, h.bits]
    exact ⟨hgrown.bits, hgrown.buckets, hgrown.positions, h.length⟩
  · exact h

/-- A lookup finds the same outcome. -/
theorem get? (h : P.Tables t t') (hk : P.Keys k k') : t'.get? k' = t.get? k := by
  rw [Table.get?, Table.get?, hk.position, h.probe]
  cases t.probe k.position with
  | found i =>
      obtain ⟨hx, hy⟩ | ⟨bucket, bucket', hx, hy, hbucket⟩ := rel_cases (h.bucket i)
      · simp only [hx, hy]
      · simp only [hx, hy]
        exact chainGet?_paired hk hbucket.chain
  | free | full => rfl

/-- An outcome is stored in the same place. -/
theorem insert (h : P.Tables t t') (hk : P.Keys k k') (o : α) :
    P.Tables (t.insert k o) (t'.insert k' o) := by
  have hroom := h.reserve
  have hentry : P.Entries { expr := k.expr, print := k.print, outcome := o }
      { expr := k'.expr, print := k'.print, outcome := o } := ⟨hk.rel, rfl⟩
  simp only [Table.insert]
  rw [hk.position, hroom.probe]
  cases t.reserve.probe k.position with
  | found i =>
      obtain ⟨hx, hy⟩ | ⟨bucket, bucket', hx, hy, hbucket⟩ := rel_cases (hroom.bucket i)
      · simp only [hx, hy]
        exact hroom
      · obtain ⟨hset, hset'⟩ | ⟨chain, chain', hset, hset', hchain⟩ :=
          rel_cases (chainSet?_paired hk o hbucket.chain)
        · have hnew : P.Buckets { bucket with chain := ⟨k.expr, k.print, o⟩ :: bucket.chain }
              { bucket' with chain := ⟨k'.expr, k'.print, o⟩ :: bucket'.chain } :=
            ⟨hbucket.position, .cons hentry hbucket.chain⟩
          simp only [hx, hy, hset, hset']
          exact hroom.put hnew i hroom.positions (congrArg (· + 1) hroom.length)
        · have hnew : P.Buckets { bucket with chain } { bucket' with chain := chain' } :=
            ⟨hbucket.position, hchain⟩
          simp only [hx, hy, hset, hset']
          exact hroom.put hnew i hroom.positions hroom.length
  | free i =>
      have hnew : P.Buckets ⟨k.position, [⟨k.expr, k.print, o⟩]⟩
          ⟨k.position, [⟨k'.expr, k'.print, o⟩]⟩ := ⟨rfl, .cons hentry .nil⟩
      exact hroom.put hnew i (congrArg (· + 1) hroom.positions) (congrArg (· + 1) hroom.length)
  | full => exact hroom

end Tables

end Pairing

end Packrat
