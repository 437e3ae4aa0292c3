import Packrat.Engine.Growth

/-! # Levels of a cluster

    A cluster is given its groups in descending order, and runs those from the top that its floor
    admits.  While a group runs, the floor is the precedence of the group, or the next one for a
    left-associative group; there is no next one after the highest, which stays. -/

namespace Packrat

namespace Precedence

variable {p q : Precedence}

/-- The highest precedence. -/
abbrev top : Precedence := 0xffffffff

theorem le_top (p : Precedence) : p ≤ top :=
  UInt32.le_iff_toNat_le.mpr (Nat.le_of_lt_succ p.toNat_lt)

theorem toNat_lt_top (h : p ≠ top) : p.toNat < top.toNat :=
  UInt32.lt_iff_toNat_lt.mp (UInt32.lt_of_le_of_ne p.le_top h)

/-- Below the top, the precedence above is one more.  At the top it is the top again. -/
theorem toNat_above (h : p ≠ top) : p.above.toNat = p.toNat + 1 := by
  rw [above, if_neg h, UInt32.toNat_add]
  exact Nat.mod_eq_of_lt (Nat.succ_lt_succ (toNat_lt_top h))

/-- Below the highest precedence, the next one is the least that is higher. -/
theorem above_le_iff (h : p ≠ top) : p.above ≤ q ↔ p < q := by
  rw [UInt32.le_iff_toNat_le, UInt32.lt_iff_toNat_lt, toNat_above h]
  omega

/-- Going above never goes down. -/
theorem le_above (p : Precedence) : p ≤ p.above := by
  by_cases h : p = top
  · rw [above, if_pos h]
    exact UInt32.le_refl p
  · rw [UInt32.le_iff_toNat_le, toNat_above h]
    omega

end Precedence

namespace Growth

variable {groups groups' : List (Group ExprId)} {f floor : Precedence}

/-- A group sets no floor below its own precedence. -/
theorem precedence_le_levelFloor (group : Group ExprId) :
    group.precedence ≤ levelFloor group := by
  rw [levelFloor]
  cases group.kind with
  | once | leftRecursive => exact UInt32.le_refl _
  | leftAssociative => exact group.precedence.le_above

/-- Groups in the order in which a cluster runs them. -/
def Descending (groups : List (Group ExprId)) : Prop :=
  groups.Pairwise fun a b => b.precedence ≤ a.precedence

instance : DecidablePred Descending := fun groups =>
  inferInstanceAs (Decidable (groups.Pairwise fun a b => b.precedence ≤ a.precedence))

/-- In descending order, groups at or above a floor are a prefix: taking while they are is selecting
    them. -/
theorem Descending.takeWhile_eq (h : Descending groups) (floor : Precedence) :
    (groups.takeWhile fun group => floor ≤ group.precedence) =
      groups.filter fun group => floor ≤ group.precedence := by
  induction groups with
  | nil => rfl
  | cons group rest ih =>
      obtain ⟨hhead, hrest⟩ := List.pairwise_cons.mp h
      by_cases hadmitted : floor ≤ group.precedence
      · rw [List.takeWhile_cons_of_pos (by simpa using hadmitted),
          List.filter_cons_of_pos (by simpa using hadmitted), ih hrest]
      · rw [List.takeWhile_cons_of_neg (by simpa using hadmitted), eq_comm, List.filter_eq_nil_iff]
        -- what comes later is no higher
        intro a ha
        have hlower : a.precedence ≤ group.precedence := by
          rcases List.mem_cons.mp ha with rfl | ha
          · exact UInt32.le_refl _
          · exact hhead a ha
        simpa using fun hle => hadmitted (UInt32.le_trans hle hlower)

/-- Clusters with the same groups from a level on admit the same groups under every higher floor. -/
theorem Descending.admitted_eq (h : Descending groups) (h' : Descending groups')
    (hsame : (groups.filter fun group => f ≤ group.precedence) =
      groups'.filter fun group => f ≤ group.precedence) (hle : f ≤ floor) :
    (groups.takeWhile fun group => floor ≤ group.precedence) =
      groups'.takeWhile fun group => floor ≤ group.precedence := by
  have habove : ∀ l : List (Group ExprId), (l.filter fun group => floor ≤ group.precedence) =
      (l.filter fun group => f ≤ group.precedence).filter fun group => floor ≤ group.precedence := by
    intro l
    rw [List.filter_filter]
    refine List.filter_congr fun group _ => ?_
    by_cases hadmitted : floor ≤ group.precedence
    · simp [hadmitted, UInt32.le_trans hle hadmitted]
    · simp [hadmitted]
  rw [h.takeWhile_eq, h'.takeWhile_eq, habove groups, habove groups', hsame]

end Growth

end Packrat
