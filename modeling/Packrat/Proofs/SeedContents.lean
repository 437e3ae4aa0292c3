import Packrat.Proofs.OrderedContents
import Packrat.State.Floors
import Packrat.State.Seeds

/-!
# Seeds and floors are determined by their contents

The seeds, the blocked set and their digest are changed by toggles, the floors by entries of a map.
Whoever changes one of them puts it back by another edit, not by a copy. That this gives back the
same value rests on one invariant: the lists increase, and the digest holds exactly the entries.
Then two values that answer alike are equal, however they came about.

* **`Seeds.Canonical`** — the invariant, kept by every edit.
* **`Seeds.Canonical.ext`** — canonical seeds with the same answers are equal.
* **`Floors.Canonical`**, **`Floors.Canonical.ext`** — the same for the floors.
-/

namespace Packrat

open Ordered

/-! ## The order of entries -/

/-- Seed keys are ordered by node, and by position among those of one node. -/
theorem SeedKey.before_iff {a b : SeedKey} :
    Key.before a b ↔ a.expr < b.expr ∨ a.expr = b.expr ∧ a.position < b.position := by
  simp [Key.before]

instance : LawfulKey SeedKey where
  irrefl a := by
    rw [SeedKey.before_iff]
    rintro (h | ⟨-, h⟩)
    · exact Nat.lt_irrefl _ h
    · exact Nat.lt_irrefl _ h
  trans {a b c} hab hbc := by
    rw [SeedKey.before_iff] at hab hbc ⊢
    rcases hab with hab | ⟨heq, hab⟩
    · rcases hbc with hbc | ⟨heq, -⟩
      · exact Or.inl (Nat.lt_trans hab hbc)
      · exact Or.inl (heq ▸ hab)
    · rcases hbc with hbc | ⟨heq', hbc⟩
      · exact Or.inl (heq ▸ hbc)
      · exact Or.inr ⟨heq.trans heq', Nat.lt_trans hab hbc⟩
  connected {a b} h := by
    rw [SeedKey.before_iff, SeedKey.before_iff]
    obtain ⟨x, p⟩ := a
    obtain ⟨y, q⟩ := b
    rcases Nat.lt_trichotomy x y with hxy | rfl | hxy
    · exact Or.inl (Or.inl hxy)
    · have hpq : p ≠ q := fun hpq => h (by rw [hpq])
      rcases Nat.lt_or_gt_of_ne hpq with hlt | hgt
      · exact Or.inl (Or.inr ⟨rfl, hlt⟩)
      · exact Or.inr (Or.inr ⟨rfl, hgt⟩)
    · exact Or.inr (Or.inl hxy)

/-- The order of the ends of seeds as an order of numbers: a failing seed is 0. -/
theorem stopBefore_iff {s t : Option Nat} :
    stopBefore s t ↔ s.elim 0 (· + 1) < t.elim 0 (· + 1) := by
  cases s <;> cases t <;> simp [stopBefore]

/-- A seed without an end ranks below every end, and ends keep their order, so the rank tells seeds
    apart. -/
theorem stopRank_injective {s t : Option Nat} (h : s.elim 0 (· + 1) = t.elim 0 (· + 1)) :
    s = t := by
  cases s <;> cases t <;> simp_all

namespace SeedAtom

/-- Seeds are listed by key; two with one key differ in their end alone. -/
theorem before_seed_iff {k l : SeedKey} {s t : Option Nat} :
    Key.before (SeedAtom.seed k s) (.seed l t) ↔ Key.before k l ∨ k = l ∧ stopBefore s t := by
  simp [Key.before]

theorem before_blocked_iff {a b : ExprId} :
    Key.before (SeedAtom.blocked a) (.blocked b) ↔ a < b := by
  simp [Key.before]

/-- All seeds come before all blocked nodes. -/
theorem seed_before_blocked (k : SeedKey) (s : Option Nat) (a : ExprId) :
    Key.before (SeedAtom.seed k s) (.blocked a) := rfl

theorem not_blocked_before_seed (k : SeedKey) (s : Option Nat) (a : ExprId) :
    ¬ Key.before (SeedAtom.blocked a) (.seed k s) :=
  Bool.false_ne_true

end SeedAtom

open SeedAtom in
instance : LawfulKey SeedAtom where
  irrefl a := by
    cases a with
    | seed k s =>
        rw [before_seed_iff, stopBefore_iff]
        rintro (h | ⟨-, h⟩)
        · exact LawfulKey.irrefl k h
        · exact Nat.lt_irrefl _ h
    | blocked i =>
        rw [before_blocked_iff]
        exact Nat.lt_irrefl i
  trans {a b c} hab hbc := by
    cases a with
    | seed k s =>
        cases c with
        | blocked i => exact seed_before_blocked k s i
        | seed m u =>
            cases b with
            | blocked i => exact absurd hbc (not_blocked_before_seed m u i)
            | seed l t =>
                rw [before_seed_iff, stopBefore_iff] at hab hbc ⊢
                rcases hab with hkl | ⟨rfl, hst⟩
                · rcases hbc with hlm | ⟨rfl, -⟩
                  · exact Or.inl (LawfulKey.trans hkl hlm)
                  · exact Or.inl hkl
                · rcases hbc with hlm | ⟨rfl, htu⟩
                  · exact Or.inl hlm
                  · exact Or.inr ⟨rfl, Nat.lt_trans hst htu⟩
    | blocked i =>
        cases b with
        | seed l t => exact absurd hab (not_blocked_before_seed l t i)
        | blocked j =>
            cases c with
            | seed m u => exact absurd hbc (not_blocked_before_seed m u j)
            | blocked m =>
                rw [before_blocked_iff] at hab hbc ⊢
                exact Nat.lt_trans hab hbc
  connected {a b} h := by
    cases a with
    | seed k s =>
        cases b with
        | blocked j => exact Or.inl (seed_before_blocked k s j)
        | seed l t =>
            rw [before_seed_iff, before_seed_iff, stopBefore_iff, stopBefore_iff]
            by_cases hkl : k = l
            · subst hkl
              have hst : s.elim 0 (· + 1) ≠ t.elim 0 (· + 1) := fun heq =>
                h (by rw [stopRank_injective heq])
              rcases Nat.lt_or_gt_of_ne hst with hlt | hgt
              · exact Or.inl (Or.inr ⟨rfl, hlt⟩)
              · exact Or.inr (Or.inr ⟨rfl, hgt⟩)
            · rcases LawfulKey.connected hkl with hlt | hgt
              · exact Or.inl (Or.inl hlt)
              · exact Or.inr (Or.inl hgt)
    | blocked i =>
        cases b with
        | seed l t => exact Or.inr (seed_before_blocked l t i)
        | blocked j =>
            rw [before_blocked_iff, before_blocked_iff]
            exact Nat.lt_or_gt_of_ne fun hij => h (by rw [hij])

/-! ## Digests -/

/-- The exact digest is its atoms, with nothing hashed away. -/
theorem ExactDigest.ext_atoms {d e : ExactDigest} (h : d.atoms = e.atoms) : d = e := by
  obtain ⟨s, a, hs⟩ := d
  obtain ⟨t, b, ht⟩ := e
  obtain rfl : a = b := h
  obtain rfl : s = t := hs.trans ht.symm
  rfl

@[simp] theorem ExactDigest.atoms_toggle (a : SeedAtom) (d : ExactDigest) :
    (Digest.toggle a d).atoms = Ordered.toggle a d.atoms := rfl

namespace Seeds

variable {s t : Seeds ExactDigest} {key : SeedKey} {seed : Option Changes} {id : ExprId}

/-- The entries as the digest sees them: seeds by key, then blocked boundaries. -/
def contents (s : Seeds ExactDigest) : List SeedAtom :=
  s.entries.map (fun e => atom e.1 e.2) ++ s.blocked.map .blocked

/-- Increasing lists, and a digest that holds exactly what they hold. -/
structure Canonical (s : Seeds ExactDigest) : Prop where
  entries : IncreasingKeys s.entries
  blocked : Increasing s.blocked
  digest : s.digest.atoms = s.contents

/-- Entries and blocked nodes in order make a list that is in order as a whole. -/
theorem increasing_contents (he : IncreasingKeys s.entries) (hb : Increasing s.blocked) :
    Increasing s.contents := by
  refine List.pairwise_append.mpr ⟨?_, ?_, ?_⟩
  · refine List.pairwise_map.mpr ((List.pairwise_map.mp he).imp ?_)
    intro a b hab
    exact SeedAtom.before_seed_iff.mpr (Or.inl hab)
  · refine List.pairwise_map.mpr (hb.imp ?_)
    intro a b hab
    exact SeedAtom.before_blocked_iff.mpr (of_decide_eq_true hab)
  · intro a ha b hb
    obtain ⟨e, -, rfl⟩ := List.mem_map.mp ha
    obtain ⟨i, -, rfl⟩ := List.mem_map.mp hb
    exact SeedAtom.seed_before_blocked _ _ i

/-- A seed is listed with its end: what it holds besides is not. -/
theorem mem_contents_seed (he : IncreasingKeys s.entries) {stop : Option Nat} :
    .seed key stop ∈ s.contents ↔ ∃ c, s.get? key = some c ∧ c.map Changes.stop = stop := by
  rw [contents, List.mem_append, List.mem_map, List.mem_map]
  constructor
  · rintro (⟨⟨k, c⟩, hmem, heq⟩ | ⟨i, -, heq⟩)
    · cases heq
      exact ⟨c, (mem_iff_lookup he).mp hmem, rfl⟩
    · cases heq
  · rintro ⟨c, hget, rfl⟩
    exact Or.inl ⟨(key, c), (mem_iff_lookup he).mpr hget, rfl⟩

theorem mem_contents_blocked : .blocked id ∈ s.contents ↔ id ∈ s.blocked := by
  rw [contents, List.mem_append, List.mem_map, List.mem_map]
  constructor
  · rintro (⟨e, -, heq⟩ | ⟨i, hi, heq⟩)
    · cases heq
    · cases heq
      exact hi
  · intro hi
    exact Or.inr ⟨id, hi, rfl⟩

/-- A digest that agrees with the contents is in order, as they are. -/
theorem Canonical.increasing_atoms (h : s.Canonical) : Increasing s.digest.atoms := by
  rw [h.digest]
  exact increasing_contents h.entries h.blocked

/-- The digest holds the end of every seed. -/
theorem Canonical.mem_seed (h : s.Canonical) {stop : Option Nat} :
    .seed key stop ∈ s.digest.atoms ↔ ∃ c, s.get? key = some c ∧ c.map Changes.stop = stop := by
  rw [h.digest]
  exact mem_contents_seed h.entries

/-- The digest holds every blocked boundary. -/
theorem Canonical.mem_blocked (h : s.Canonical) :
    .blocked id ∈ s.digest.atoms ↔ id ∈ s.blocked := by
  rw [h.digest]
  exact mem_contents_blocked

/-- Increasing lists are canonical once the digest has the right members. -/
theorem canonical_of_mem (he : IncreasingKeys s.entries) (hb : Increasing s.blocked)
    (hd : Increasing s.digest.atoms)
    (hseed : ∀ key stop, .seed key stop ∈ s.digest.atoms ↔
      ∃ c, s.get? key = some c ∧ c.map Changes.stop = stop)
    (hblocked : ∀ id, .blocked id ∈ s.digest.atoms ↔ id ∈ s.blocked) : s.Canonical := by
  refine ⟨he, hb, hd.ext (increasing_contents he hb) ?_⟩
  intro a
  cases a with
  | seed key stop => rw [hseed, mem_contents_seed he]
  | blocked id => rw [hblocked, mem_contents_blocked]

/-- Canonical seeds that answer alike are equal. -/
theorem Canonical.ext (hs : s.Canonical) (ht : t.Canonical)
    (hget : ∀ key, s.get? key = t.get? key) (hblocked : ∀ id, id ∈ s.blocked ↔ id ∈ t.blocked) :
    s = t := by
  have he : s.entries = t.entries := map_ext hs.entries ht.entries hget
  have hb : s.blocked = t.blocked := hs.blocked.ext ht.blocked hblocked
  have hd : s.digest = t.digest := by
    apply ExactDigest.ext_atoms
    rw [hs.digest, ht.digest, contents, contents, he, hb]
  cases s
  cases t
  simp_all

/-! ## What the edits do -/

/-- A parse starts from seeds whose digest is right. -/
theorem canonical_empty : (empty : Seeds ExactDigest).Canonical :=
  ⟨increasingKeys_nil, increasing_nil, rfl⟩

@[simp] theorem get?_insert (s : Seeds ExactDigest) (key j : SeedKey) (seed : Option Changes) :
    (s.insert key seed).get? j = if j = key then some seed else s.get? j :=
  lookup_insert j key seed s.entries

@[simp] theorem blocked_insert (s : Seeds ExactDigest) (key : SeedKey) (seed : Option Changes) :
    (s.insert key seed).blocked = s.blocked := rfl

/-- The old entry at the key is toggled out and the new one in, so the digest stays that of the
    contents. -/
theorem Canonical.insert (h : s.Canonical) (key : SeedKey) (seed : Option Changes) :
    (s.insert key seed).Canonical := by
  have hatoms : (s.insert key seed).digest.atoms = Ordered.toggle (atom key seed)
      ((s.get? key).elim s.digest.atoms fun old => Ordered.toggle (atom key old) s.digest.atoms) := by
    simp only [Seeds.insert, ExactDigest.atoms_toggle]
    cases s.get? key <;> rfl
  have hold := increasing_toggle (a := atom key ((s.get? key).getD none)) h.increasing_atoms
  refine canonical_of_mem (h.entries.insert) h.blocked ?_ ?_ ?_
  · rw [hatoms]
    cases hget : s.get? key with
    | none => exact increasing_toggle h.increasing_atoms
    | some old => exact increasing_toggle (increasing_toggle h.increasing_atoms)
  · intro j stop
    rw [hatoms, get?_insert]
    cases hget : s.get? key with
    | none =>
        rw [Option.elim_none, mem_toggle h.increasing_atoms, atom, h.mem_seed, h.mem_seed]
        by_cases hj : j = key
        · subst hj
          simp [hget, eq_comm]
        · simp [hj]
    | some old =>
        rw [hget, Option.getD_some] at hold
        rw [Option.elim_some, mem_toggle hold, mem_toggle h.increasing_atoms,
          mem_toggle h.increasing_atoms]
        by_cases hj : j = key
        · subst hj
          simp only [atom, SeedAtom.seed.injEq, true_and, h.mem_seed, hget, Option.some.injEq,
            exists_eq_left', if_true]
          grind
        · simp [atom, hj, h.mem_seed]
  · intro i
    rw [hatoms]
    cases hget : s.get? key with
    | none =>
        rw [Option.elim_none, mem_toggle h.increasing_atoms]
        simp [atom, h.mem_blocked]
    | some old =>
        rw [hget, Option.getD_some] at hold
        rw [Option.elim_some, mem_toggle hold]
        simp only [atom, reduceCtorEq, if_false]
        rw [mem_toggle h.increasing_atoms]
        simp [h.mem_blocked]

theorem Canonical.get?_remove (h : s.Canonical) (key j : SeedKey) :
    (s.remove key).get? j = if j = key then none else s.get? j := by
  rw [Seeds.remove]
  cases hget : s.get? key with
  | none =>
      by_cases hj : j = key
      · rw [if_pos hj, hj]
        exact hget
      · rw [if_neg hj]
  | some old => exact lookup_erase h.entries j

@[simp] theorem blocked_remove (s : Seeds ExactDigest) (key : SeedKey) :
    (s.remove key).blocked = s.blocked := by
  rw [Seeds.remove]
  cases s.get? key <;> rfl

/-- Toggling the removed entry out keeps the digest that of the contents. -/
theorem Canonical.remove (h : s.Canonical) (key : SeedKey) : (s.remove key).Canonical := by
  cases hget : s.get? key with
  | none =>
      have : s.remove key = s := by rw [Seeds.remove, hget]
      rw [this]
      exact h
  | some old =>
      have heq : s.remove key = { s with
          entries := Ordered.erase key s.entries
          digest := Digest.toggle (atom key old) s.digest } := by rw [Seeds.remove, hget]
      have hget' := h.get?_remove key
      rw [heq] at hget' ⊢
      refine canonical_of_mem h.entries.erase h.blocked (increasing_toggle h.increasing_atoms) ?_ ?_
      · intro j stop
        rw [hget', ExactDigest.atoms_toggle, mem_toggle h.increasing_atoms, atom, h.mem_seed,
          h.mem_seed]
        by_cases hj : j = key
        · subst hj
          simp only [SeedAtom.seed.injEq, true_and, hget]
          grind
        · simp [hj]
      · intro i
        rw [ExactDigest.atoms_toggle, mem_toggle h.increasing_atoms]
        simp [atom, h.mem_blocked]

@[simp] theorem get?_setBlocked (s : Seeds ExactDigest) (id : ExprId) (b : Bool) (j : SeedKey) :
    (s.setBlocked id b).get? j = s.get? j := by
  rw [Seeds.setBlocked]
  split <;> rfl

theorem isBlocked_iff : s.isBlocked id = true ↔ id ∈ s.blocked := by
  simp [isBlocked]

/-- Blocking adds one node and unblocking takes one away. -/
theorem Canonical.mem_setBlocked (h : s.Canonical) (id i : ExprId) (b : Bool) :
    i ∈ (s.setBlocked id b).blocked ↔ if i = id then b = true else i ∈ s.blocked := by
  rw [Seeds.setBlocked]
  by_cases hsame : s.isBlocked id = b
  · rw [if_pos hsame]
    by_cases hi : i = id
    · rw [if_pos hi, hi, ← isBlocked_iff, hsame]
    · rw [if_neg hi]
  · rw [if_neg hsame]
    cases b with
    | true =>
        simp only [if_true]
        rw [mem_add]
        by_cases hi : i = id <;> simp [hi]
    | false =>
        simp only [Bool.false_eq_true, if_false]
        rw [mem_remove h.blocked]
        by_cases hi : i = id <;> simp [hi]

/-- The digest is toggled only if the node was not yet in the state asked for. -/
theorem Canonical.setBlocked (h : s.Canonical) (id : ExprId) (b : Bool) :
    (s.setBlocked id b).Canonical := by
  by_cases hsame : s.isBlocked id = b
  · have : s.setBlocked id b = s := by rw [Seeds.setBlocked, if_pos hsame]
    rw [this]
    exact h
  · have heq : s.setBlocked id b = { s with
        blocked := if b then Ordered.add id s.blocked else Ordered.remove id s.blocked
        digest := Digest.toggle (.blocked id) s.digest } := by
      rw [Seeds.setBlocked, if_neg hsame]
    have hmem := fun i => h.mem_setBlocked id i b
    rw [heq] at hmem ⊢
    refine canonical_of_mem h.entries ?_ (increasing_toggle h.increasing_atoms) ?_ ?_
    · cases b with
      | true => exact increasing_add h.blocked
      | false => exact increasing_remove h.blocked
    · intro j stop
      rw [ExactDigest.atoms_toggle, mem_toggle h.increasing_atoms]
      simp only [reduceCtorEq, if_false]
      exact h.mem_seed
    · intro i
      rw [hmem, ExactDigest.atoms_toggle, mem_toggle h.increasing_atoms, h.mem_blocked,
        h.mem_blocked]
      by_cases hi : i = id
      · subst hi
        rw [if_pos rfl, if_pos rfl, ← isBlocked_iff]
        cases hb : s.isBlocked i <;> cases b <;> simp_all
      · rw [if_neg hi, if_neg (by simpa using hi)]

/-! ## Swapping the whole blocked set -/

/-- Toggling keeps a digest in order, whatever ids it is given. -/
theorem increasing_toggleBlocked {d : ExactDigest} (hd : Increasing d.atoms) (ids : List ExprId) :
    Increasing (toggleBlocked d ids).atoms := by
  induction ids generalizing d with
  | nil => exact hd
  | cons i rest ih => exact ih (d := Digest.toggle (.blocked i) d) (increasing_toggle hd)

/-- Toggling blocked nodes does not touch the seeds. -/
theorem seed_mem_toggleBlocked {d : ExactDigest} (hd : Increasing d.atoms) (ids : List ExprId)
    {stop : Option Nat} :
    .seed key stop ∈ (toggleBlocked d ids).atoms ↔ .seed key stop ∈ d.atoms := by
  induction ids generalizing d with
  | nil => rfl
  | cons i rest ih =>
      have hstep := ih (d := Digest.toggle (.blocked i) d) (increasing_toggle hd)
      refine hstep.trans ?_
      rw [ExactDigest.atoms_toggle, mem_toggle hd]
      simp

/-- Each id is toggled once if the list has no duplicates, so membership flips exactly there. -/
theorem blocked_mem_toggleBlocked {d : ExactDigest} (hd : Increasing d.atoms) {ids : List ExprId}
    (hids : ids.Nodup) :
    .blocked id ∈ (toggleBlocked d ids).atoms ↔
      if id ∈ ids then .blocked id ∉ d.atoms else .blocked id ∈ d.atoms := by
  induction ids generalizing d with
  | nil => simp [toggleBlocked]
  | cons i rest ih =>
      obtain ⟨hi, hrest⟩ := List.nodup_cons.mp hids
      have hstep := ih (d := Digest.toggle (.blocked i) d) (increasing_toggle hd) hrest
      refine hstep.trans ?_
      rw [ExactDigest.atoms_toggle, mem_toggle hd]
      by_cases hid : id = i
      · subst hid
        simp [hi]
      · simp [hid]

theorem nodup_of_increasing {l : List ExprId} (h : Increasing l) : l.Nodup :=
  h.imp fun hab => Nat.ne_of_lt (of_decide_eq_true hab)

/-- Toggling every blocked node out of the digest leaves the seeds alone. -/
theorem Canonical.unblockAll (h : s.Canonical) : s.unblockAll.Canonical := by
  refine canonical_of_mem h.entries increasing_nil
    (increasing_toggleBlocked h.increasing_atoms s.blocked) ?_ ?_
  · intro j stop
    exact (seed_mem_toggleBlocked h.increasing_atoms s.blocked).trans h.mem_seed
  · intro i
    refine (blocked_mem_toggleBlocked h.increasing_atoms (nodup_of_increasing h.blocked)).trans ?_
    rw [h.mem_blocked]
    by_cases hi : i ∈ s.blocked <;> simp [hi, Seeds.unblockAll]

/-- The blocked nodes there are are toggled out and those put back are toggled in. -/
theorem Canonical.restoreBlocked (h : s.Canonical) {ids : List ExprId} (hids : Increasing ids) :
    (s.restoreBlocked ids).Canonical := by
  have hu := h.unblockAll
  refine canonical_of_mem h.entries hids
    (increasing_toggleBlocked hu.increasing_atoms ids) ?_ ?_
  · intro j stop
    exact (seed_mem_toggleBlocked hu.increasing_atoms ids).trans hu.mem_seed
  · intro i
    refine (blocked_mem_toggleBlocked hu.increasing_atoms (nodup_of_increasing hids)).trans ?_
    rw [hu.mem_blocked]
    by_cases hi : i ∈ ids <;> simp [hi, Seeds.restoreBlocked, Seeds.unblockAll]

/-- Blocked boundaries taken away and put back leave the seeds as they were. -/
theorem Canonical.restoreBlocked_unblockAll (h : s.Canonical) :
    s.unblockAll.restoreBlocked s.blocked = s :=
  (h.unblockAll.restoreBlocked h.blocked).ext h (fun _ => rfl) (fun _ => Iff.rfl)

end Seeds

/-! ## Floors -/

namespace Floors

variable {f g : Floors}

/-- The floors of single clusters are an increasing map. -/
def Canonical (f : Floors) : Prop :=
  IncreasingKeys f.explicit

/-- One floor for all clusters lists none by name. -/
theorem canonical_uniform (floor : Precedence) : (uniform floor).Canonical :=
  increasingKeys_nil

/-- Floors in order are told apart by the floors they give, which is what makes them comparable as
    keys. -/
theorem Canonical.ext (hf : f.Canonical) (hg : g.Canonical)
    (h : ∀ c, f.explicit? c = g.explicit? c) (hfallback : f.fallback = g.fallback) : f = g := by
  have he : f.explicit = g.explicit := map_ext hf hg h
  cases f
  cases g
  simp_all

/-- A floor that is set is the one found afterwards, and no other changes. -/
@[simp] theorem explicit?_set (f : Floors) (cluster c : ExprId) (floor : Precedence) :
    (f.set cluster floor).explicit? c = if c = cluster then some floor else f.explicit? c :=
  lookup_insert c cluster floor f.explicit

theorem Canonical.set (hf : f.Canonical) (cluster : ExprId) (floor : Precedence) :
    (f.set cluster floor).Canonical :=
  IncreasingKeys.insert hf

/-- A floor that is reset is what it was before, absent included. -/
theorem Canonical.explicit?_reset (hf : f.Canonical) (cluster c : ExprId)
    (previous : Option Precedence) :
    (f.reset cluster previous).explicit? c = if c = cluster then previous else f.explicit? c := by
  cases previous with
  | none => exact lookup_erase hf c
  | some floor => exact explicit?_set f cluster c floor

/-- Putting a floor back keeps the list in order, also when it removes the entry. -/
theorem Canonical.reset (hf : f.Canonical) (cluster : ExprId) (previous : Option Precedence) :
    (f.reset cluster previous).Canonical := by
  cases previous with
  | none => exact IncreasingKeys.erase hf
  | some floor => exact hf.set cluster floor

theorem fallback_reset (f : Floors) (cluster : ExprId) (previous : Option Precedence) :
    (f.reset cluster previous).fallback = f.fallback := by
  cases previous <;> rfl

end Floors

end Packrat
