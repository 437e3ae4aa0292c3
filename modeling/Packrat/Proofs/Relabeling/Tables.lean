import Packrat.Proofs.Lockstep.Tables
import Packrat.Proofs.Relabeling.Contents
import Packrat.State.Changes

/-! # Memo tables under other ids

    Under other ids a memo table has the same layout: the same buckets are free, the others hold the
    same positions, and the chains have entries of the same outcomes in the same order.  Expressions
    under other ids and the fingerprints that go with them are a `Pairing`, so a lookup finds the
    same outcome (`CarriesTable.get?`), and an insertion goes to the same place
    (`CarriesTable.insert`). -/

namespace Packrat.Relabeling

open Table

variable {ρ : Relabeling ExprId} {α : Type}

/-! ## Keys and entries -/

/-- The same key, under the new ids. -/
structure CarriesKey (ρ : Relabeling ExprId) (k k' : MemoKey Fingerprint) : Prop where
  part : ρ.part k.expr
  expr : k'.expr = ρ.image k.expr
  position : k'.position = k.position
  print : ρ.CarriesPrint k.print k'.print

/-- The same outcome under the same expression and fingerprint. -/
structure CarriesEntry (ρ : Relabeling ExprId) (e e' : MemoEntry Fingerprint α) : Prop where
  part : ρ.part e.expr
  expr : e'.expr = ρ.image e.expr
  print : ρ.CarriesPrint e.print e'.print
  outcome : e'.outcome = e.outcome

/-- Expressions with fingerprints, and the same under the new ids. -/
def paired (ρ : Relabeling ExprId) : Pairing where
  rel a a' := ρ.part a.1 ∧ a'.1 = ρ.image a.1 ∧ ρ.CarriesPrint a.2 a'.2
  eq_iff := by
    rintro ⟨i, p⟩ ⟨_, p'⟩ ⟨j, q⟩ ⟨_, q'⟩ ⟨hi, rfl, hp⟩ ⟨hj, rfl, hq⟩
    rw [Prod.mk.injEq, Prod.mk.injEq, ρ.image_eq_iff hi hj, hp.eq_iff hq]

/-- Keys that correspond under a renaming are a pair that lockstep may look up. -/
theorem CarriesKey.paired {k k' : MemoKey Fingerprint} (h : ρ.CarriesKey k k') :
    ρ.paired.Keys k k' :=
  ⟨h.position, h.part, h.expr, h.print⟩

theorem carriesEntry_eq : ρ.CarriesEntry (α := α) = ρ.paired.Entries := by
  funext e e'
  exact propext ⟨fun h => ⟨⟨h.part, h.expr, h.print⟩, h.outcome⟩,
    fun ⟨⟨hpart, hexpr, hprint⟩, houtcome⟩ => ⟨hpart, hexpr, hprint, houtcome⟩⟩

/-! ## Tables -/

/-- The same bucket, under the new ids. -/
structure CarriesBucket (ρ : Relabeling ExprId) (b b' : Bucket Fingerprint α) : Prop where
  position : b'.position = b.position
  chain : List.Forall₂ ρ.CarriesEntry b.chain b'.chain

theorem carriesBucket_eq : ρ.CarriesBucket (α := α) = ρ.paired.Buckets := by
  funext b b'
  rw [eq_iff_iff]
  constructor
  · rintro ⟨hposition, hchain⟩
    exact ⟨hposition, carriesEntry_eq ▸ hchain⟩
  · rintro ⟨hposition, hchain⟩
    exact ⟨hposition, carriesEntry_eq ▸ hchain⟩

/-- The same layout, and the same entries under the new ids. -/
structure CarriesTable (ρ : Relabeling ExprId) (t t' : Table Fingerprint α) : Prop where
  bits : t'.bits = t.bits
  buckets : List.Forall₂ (Option.Rel ρ.CarriesBucket) t.buckets.toList t'.buckets.toList
  positions : t'.positions = t.positions
  length : t'.length = t.length

variable {t t' : Table Fingerprint α} {k k' : MemoKey Fingerprint}

/-- Tables correspond under a renaming exactly if they do as lockstep asks for. -/
theorem carriesTable_iff : ρ.CarriesTable t t' ↔ ρ.paired.Tables t t' := by
  constructor
  · rintro ⟨hbits, hbuckets, hpositions, hlength⟩
    exact ⟨hbits, carriesBucket_eq ▸ hbuckets, hpositions, hlength⟩
  · rintro ⟨hbits, hbuckets, hpositions, hlength⟩
    exact ⟨hbits, carriesBucket_eq ▸ hbuckets, hpositions, hlength⟩

/-- Tables of one size correspond while they are empty. -/
theorem carriesTable_withBits (bits : Nat) :
    ρ.CarriesTable (withBits bits : Table Fingerprint α) (withBits bits) :=
  carriesTable_iff.mpr (Pairing.tables_withBits bits)

/-- A lookup under the new ids finds the same outcome. -/
theorem CarriesTable.get? (h : ρ.CarriesTable t t') (hk : ρ.CarriesKey k k') :
    t'.get? k' = t.get? k :=
  (carriesTable_iff.mp h).get? hk.paired

/-- An outcome is stored in the same place. -/
theorem CarriesTable.insert (h : ρ.CarriesTable t t') (hk : ρ.CarriesKey k k') (o : α) :
    ρ.CarriesTable (t.insert k o) (t'.insert k' o) :=
  carriesTable_iff.mpr ((carriesTable_iff.mp h).insert hk.paired o)

end Packrat.Relabeling
