import Mathlib.Data.Finset.Fold
import Mathlib.Data.Finset.Sort
import Packrat.Proofs.SeedContents

/-!
# The hash of the seeds is a function of their contents

A digest of hashes is kept by exclusive or alone: an entry that comes or goes is toggled, also when
it replaces another, when it was not there, and when the whole blocked set is swapped.  Toggling an
entry of an exact digest toggles its hash in their sum, so hashing the exact digest commutes with
EVERY OPERATION (`hashedBy_apply`), and what the exact digest holds is known.

* **`Seeds.Operation`** — what can be done to seeds; the contents after it are those of a map and of
  a set.
* **`Seeds.hashed_contents`** — the digest is the sum of the hashes of what is installed, whatever
  operations led there.
-/

namespace Packrat

open Ordered

/-! ## Sums of hashes -/

/-- Exclusive or of the hashes of entries. -/
def xorHashes (hash : SeedAtom → UInt64) (atoms : List SeedAtom) : UInt64 :=
  atoms.foldr (fun a sum => hash a ^^^ sum) 0

/-- An entry that comes or goes toggles its hash. -/
theorem xorHashes_toggle (hash : SeedAtom → UInt64) (a : SeedAtom) (atoms : List SeedAtom) :
    xorHashes hash (Ordered.toggle a atoms) = xorHashes hash atoms ^^^ hash a := by
  induction atoms with
  | nil => exact UInt64.xor_comm _ _
  | cons b rest ih =>
      rw [Ordered.toggle]
      split
      · rename_i hsame
        rw [hsame, xorHashes, xorHashes, List.foldr_cons, UInt64.xor_comm, ← UInt64.xor_assoc,
          UInt64.xor_self, UInt64.zero_xor]
      · split
        · exact UInt64.xor_comm _ _
        · exact (congrArg (hash b ^^^ ·) ih).trans (UInt64.xor_assoc _ _ _).symm

/-- The order of the entries does not matter. -/
theorem xorHashes_eq_fold (hash : SeedAtom → UInt64) {atoms : List SeedAtom} (h : atoms.Nodup) :
    xorHashes hash atoms = atoms.toFinset.fold (fun a b : UInt64 => a ^^^ b) 0 hash := by
  rw [Finset.fold, List.toFinset_val, List.dedup_eq_self.mpr h, Multiset.map_coe,
    Multiset.coe_fold_r, List.foldr_map]
  rfl

namespace Seeds

variable {δ : Type} {hash : SeedAtom → UInt64}

/-! ## Operations -/

/-- What can be done to seeds.  Any set of boundaries may be put back. -/
inductive Operation where
  | insert (key : SeedKey) (seed : Option Changes)
  | remove (key : SeedKey)
  | setBlocked (id : ExprId) (blocked : Bool)
  | unblockAll
  | restoreBlocked (blocked : Finset ExprId)

namespace Operation

/-- Do it. -/
def apply [Digest δ] (s : Seeds δ) : Operation → Seeds δ
  | .insert key seed => s.insert key seed
  | .remove key => s.remove key
  | .setBlocked id blocked => s.setBlocked id blocked
  | .unblockAll => s.unblockAll
  | .restoreBlocked blocked => s.restoreBlocked blocked.sort

/-- The seeds that are installed afterwards. -/
def installs (seeds : SeedKey → Option (Option Changes)) :
    Operation → SeedKey → Option (Option Changes)
  | .insert key seed => Function.update seeds key (some seed)
  | .remove key => Function.update seeds key none
  | .setBlocked _ _ | .unblockAll | .restoreBlocked _ => seeds

/-- The boundaries that are blocked afterwards. -/
def blocks (blocked : Finset ExprId) : Operation → Finset ExprId
  | .setBlocked id true => Insert.insert id blocked
  | .setBlocked id false => blocked.erase id
  | .unblockAll => ∅
  | .restoreBlocked ids => ids
  | .insert _ _ | .remove _ => blocked

end Operation

/-- The seeds after operations on none. -/
def after [Digest δ] (operations : List Operation) : Seeds δ :=
  operations.foldl Operation.apply .empty

/-- The entries as a digest sees them. -/
def installed (s : Seeds δ) : Finset SeedAtom :=
  (s.entries.map (fun e => atom e.1 e.2) ++ s.blocked.map SeedAtom.blocked).toFinset

/-! ## What is installed -/

theorem increasing_sort (ids : Finset ExprId) : Increasing ids.sort := by
  refine ids.sortedLT_sort.pairwise.imp fun hab => ?_
  exact decide_eq_true hab

theorem Canonical.apply {s : Seeds ExactDigest} (h : s.Canonical) (operation : Operation) :
    (operation.apply s).Canonical := by
  cases operation with
  | insert key seed => exact h.insert key seed
  | remove key => exact h.remove key
  | setBlocked id blocked => exact h.setBlocked id blocked
  | unblockAll => exact h.unblockAll
  | restoreBlocked blocked => exact h.restoreBlocked (increasing_sort blocked)

/-- An operation installs and blocks what it says. -/
theorem Canonical.contents_apply {s : Seeds ExactDigest} (h : s.Canonical) (operation : Operation) :
    (operation.apply s).get? = operation.installs s.get? ∧
      (operation.apply s).blocked.toFinset = operation.blocks s.blocked.toFinset := by
  constructor
  · funext key
    cases operation with
    | insert key' seed => exact (get?_insert s key' key seed).trans (Function.update_apply ..).symm
    | remove key' => exact (h.get?_remove key' key).trans (Function.update_apply ..).symm
    | setBlocked id blocked => exact get?_setBlocked s id blocked key
    | unblockAll => rfl
    | restoreBlocked blocked => rfl
  · ext id
    cases operation with
    | insert key seed => rfl
    | remove key => exact iff_of_eq (congrArg (fun l => id ∈ l.toFinset) (blocked_remove s key))
    | setBlocked id' blocked =>
        refine List.mem_toFinset.trans ((h.mem_setBlocked id' id blocked).trans ?_)
        cases blocked <;> by_cases hid : id = id' <;> simp [Operation.blocks, hid]
    | unblockAll => rfl
    | restoreBlocked blocked => exact List.mem_toFinset.trans (Finset.mem_sort _)

/-- What is installed after some operations is what they installed, one after the other. -/
theorem contents_after (operations : List Operation) :
    (after operations : Seeds ExactDigest).Canonical ∧
      (after operations : Seeds ExactDigest).get? =
        operations.foldl Operation.installs (fun _ => none) ∧
      (after operations : Seeds ExactDigest).blocked.toFinset =
        operations.foldl Operation.blocks ∅ := by
  have hall : ∀ s : Seeds ExactDigest, s.Canonical →
      (operations.foldl Operation.apply s).Canonical ∧
        (operations.foldl Operation.apply s).get? = operations.foldl Operation.installs s.get? ∧
        (operations.foldl Operation.apply s).blocked.toFinset =
          operations.foldl Operation.blocks s.blocked.toFinset := by
    induction operations with
    | nil => exact fun s h => ⟨h, rfl, rfl⟩
    | cons operation rest ih =>
        intro s h
        obtain ⟨hget, hblocked⟩ := h.contents_apply operation
        have hrest := ih _ (h.apply operation)
        rw [hget, hblocked] at hrest
        exact hrest
  exact hall .empty canonical_empty

/-! ## Hashing the digest -/

/-- Seeds whose digest is the sum of the hashes of what it held. -/
def hashedBy (hash : SeedAtom → UInt64) (s : Seeds ExactDigest) : Seeds UInt64 :=
  { entries := s.entries, blocked := s.blocked, digest := xorHashes hash s.digest.atoms }

/-- Hashing commutes with the toggles of a whole set of boundaries. -/
theorem xorHashes_toggleBlocked (hash : SeedAtom → UInt64) (d : ExactDigest) (ids : List ExprId) :
    xorHashes hash (toggleBlocked d ids).atoms =
      @toggleBlocked _ (Digest.hashed hash) (xorHashes hash d.atoms) ids := by
  induction ids generalizing d with
  | nil => rfl
  | cons id rest ih =>
      refine (ih (Digest.toggle (.blocked id) d)).trans ?_
      rw [ExactDigest.atoms_toggle, xorHashes_toggle]
      rfl

/-- Hashing commutes with every operation. -/
theorem hashedBy_apply (hash : SeedAtom → UInt64) (s : Seeds ExactDigest) (operation : Operation) :
    @Operation.apply _ (Digest.hashed hash) (s.hashedBy hash) operation =
      (operation.apply s).hashedBy hash := by
  cases operation with
  | insert key seed =>
      simp only [Operation.apply, Seeds.insert, hashedBy, ExactDigest.atoms_toggle,
        xorHashes_toggle, get?]
      cases s.entries.lookup key with
      | none => rfl
      | some old =>
          simp only [ExactDigest.atoms_toggle, xorHashes_toggle]
          rfl
  | remove key =>
      simp only [Operation.apply, Seeds.remove, hashedBy, get?]
      cases s.entries.lookup key with
      | none => rfl
      | some old =>
          simp only [ExactDigest.atoms_toggle, xorHashes_toggle]
          rfl
  | setBlocked id blocked =>
      by_cases hsame : s.isBlocked id = blocked
      · have hkept : s.setBlocked id blocked = s := if_pos hsame
        have hkept' : @setBlocked _ (Digest.hashed hash) (s.hashedBy hash) id blocked =
            s.hashedBy hash := if_pos hsame
        exact hkept'.trans (congrArg (hashedBy hash) hkept).symm
      · have htoggled : s.setBlocked id blocked = _ := if_neg hsame
        have htoggled' : @setBlocked _ (Digest.hashed hash) (s.hashedBy hash) id blocked = _ :=
          if_neg hsame
        refine htoggled'.trans ((congrArg (hashedBy hash) htoggled).trans ?_).symm
        simp only [hashedBy, ExactDigest.atoms_toggle, xorHashes_toggle]
        rfl
  | unblockAll =>
      simp only [Operation.apply, Seeds.unblockAll, hashedBy, xorHashes_toggleBlocked]
  | restoreBlocked blocked =>
      simp only [Operation.apply, Seeds.restoreBlocked, Seeds.unblockAll, hashedBy,
        xorHashes_toggleBlocked]

/-- The seeds after some operations, with a digest of hashes. -/
def hashedAfter (hash : SeedAtom → UInt64) (operations : List Operation) : Seeds UInt64 :=
  @after _ (Digest.hashed hash) operations

theorem hashedAfter_eq (hash : SeedAtom → UInt64) (operations : List Operation) :
    hashedAfter hash operations = (after operations : Seeds ExactDigest).hashedBy hash := by
  have hall : ∀ s : Seeds ExactDigest,
      operations.foldl (@Operation.apply _ (Digest.hashed hash)) (s.hashedBy hash) =
        (operations.foldl Operation.apply s).hashedBy hash := by
    induction operations with
    | nil => exact fun s => rfl
    | cons operation rest ih =>
        intro s
        rw [List.foldl_cons, hashedBy_apply]
        exact ih _
  exact hall .empty

/-- The digest after some operations is the sum of the hashes of what is installed. -/
theorem digest_hashedAfter (hash : SeedAtom → UInt64) (operations : List Operation) :
    (hashedAfter hash operations).digest =
      (hashedAfter hash operations).installed.fold (fun a b : UInt64 => a ^^^ b) 0 hash := by
  have hcanonical := (contents_after operations).1
  have hnodup : (after operations : Seeds ExactDigest).contents.Nodup := by
    refine (increasing_contents hcanonical.entries hcanonical.blocked).imp fun hab => ?_
    rintro rfl
    exact LawfulKey.irrefl _ hab
  rw [hashedAfter_eq, hashedBy, hcanonical.digest]
  exact xorHashes_eq_fold hash hnodup

/-- Seeds with a digest of hashes answer like those with an exact one. -/
theorem contents_hashedAfter (hash : SeedAtom → UInt64) (operations : List Operation) :
    (hashedAfter hash operations).get? = operations.foldl Operation.installs (fun _ => none) ∧
      (hashedAfter hash operations).blocked.toFinset = operations.foldl Operation.blocks ∅ := by
  rw [hashedAfter_eq]
  exact (contents_after operations).2

/-- A seed is installed with its end, and a blocked boundary is. -/
theorem mem_installed (hash : SeedAtom → UInt64) (operations : List Operation) :
    (∀ key stop, .seed key stop ∈ (hashedAfter hash operations).installed ↔
      ((hashedAfter hash operations).get? key).map (Option.map Changes.stop) = some stop) ∧
    ∀ id, .blocked id ∈ (hashedAfter hash operations).installed ↔
      (hashedAfter hash operations).isBlocked id = true := by
  have hcanonical := (contents_after operations).1
  rw [hashedAfter_eq]
  refine ⟨fun key stop => ?_, fun id => ?_⟩
  · refine List.mem_toFinset.trans ((mem_contents_seed hcanonical.entries).trans ?_)
    exact Option.map_eq_some_iff.symm
  · exact List.mem_toFinset.trans (mem_contents_blocked.trans isBlocked_iff.symm)

/-- Whatever the hash and whatever was done to the seeds, the digest is the exclusive or of the hashes
    of the seeds that are installed, each with its key and its end, and of the boundaries that are
    blocked, and these are what the operations installed and blocked.  So seeds with the same ends
    and the same boundaries blocked have the same digest, and that of empty seeds is 0. -/
theorem hashed_contents (hash : SeedAtom → UInt64) :
    (∀ operations, let s := hashedAfter hash operations
      s.digest = s.installed.fold (fun a b : UInt64 => a ^^^ b) 0 hash ∧
        (∀ key stop, .seed key stop ∈ s.installed ↔
          (s.get? key).map (Option.map Changes.stop) = some stop) ∧
        (∀ id, .blocked id ∈ s.installed ↔ s.isBlocked id = true) ∧
        s.get? = operations.foldl Operation.installs (fun _ => none) ∧
        ∀ id, s.isBlocked id = true ↔ id ∈ operations.foldl Operation.blocks ∅) ∧
    (∀ operations operations',
      (∀ key, ((hashedAfter hash operations).get? key).map (Option.map Changes.stop) =
        ((hashedAfter hash operations').get? key).map (Option.map Changes.stop)) →
      (∀ id, (hashedAfter hash operations).isBlocked id =
        (hashedAfter hash operations').isBlocked id) →
      (hashedAfter hash operations).digest = (hashedAfter hash operations').digest) ∧
    ∀ operations, (hashedAfter hash operations).isEmpty = true →
      (hashedAfter hash operations).digest = 0 := by
  refine ⟨fun operations => ?_, fun operations operations' hstops hblocked => ?_,
    fun operations hempty => ?_⟩
  · obtain ⟨hget, hids⟩ := contents_hashedAfter hash operations
    obtain ⟨hseed, hblocked⟩ := mem_installed hash operations
    refine ⟨digest_hashedAfter hash operations, hseed, hblocked, hget, fun id => ?_⟩
    rw [← hids, List.mem_toFinset]
    exact List.contains_iff_mem
  · have hsame : (hashedAfter hash operations).installed =
        (hashedAfter hash operations').installed := by
      ext a
      cases a with
      | seed key stop =>
          rw [(mem_installed hash operations).1, (mem_installed hash operations').1, hstops]
      | blocked id =>
          rw [(mem_installed hash operations).2, (mem_installed hash operations').2, hblocked]
    rw [digest_hashedAfter, digest_hashedAfter, hsame]
  · obtain ⟨hentries, hblocked⟩ := Bool.and_eq_true_iff.mp hempty
    rw [digest_hashedAfter, installed, List.isEmpty_iff.mp hentries, List.isEmpty_iff.mp hblocked]
    rfl

/-- A seed that grew, and a boundary that was blocked twice, let go with all others and put back. -/
def regrown : List Operation :=
  [.insert ⟨1, 0⟩ none, .setBlocked 2 true, .insert ⟨1, 0⟩ (some (.at 3)), .setBlocked 2 true,
    .remove ⟨4, 0⟩, .unblockAll, .restoreBlocked {2}]

/-- The same seed and the same boundary, the other way round and at once. -/
def settled : List Operation :=
  [.setBlocked 2 true, .insert ⟨1, 0⟩ (some (.at 3))]

theorem hashed_contents_regrown :
    (hashedAfter SeedAtom.code regrown).digest = (hashedAfter SeedAtom.code settled).digest ∧
      (hashedAfter SeedAtom.code
        (settled ++ [.remove ⟨1, 0⟩, .setBlocked 2 false])).digest = 0 := by
  obtain ⟨hcontents, hsame, hempty⟩ := hashed_contents SeedAtom.code
  obtain ⟨-, -, -, hget, hblocked⟩ := hcontents regrown
  obtain ⟨-, -, -, hget', hblocked'⟩ := hcontents settled
  refine ⟨hsame regrown settled (fun key => ?_) (fun id => ?_), hempty _ (by decide)⟩
  · rw [hget, hget']
    by_cases h₁ : key = ⟨1, 0⟩ <;> by_cases h₄ : key = ⟨4, 0⟩ <;>
      simp [regrown, settled, Operation.installs, h₁, h₄]
  · rw [Bool.eq_iff_iff, hblocked, hblocked']
    simp [regrown, settled, Operation.blocks]

end Seeds

end Packrat
