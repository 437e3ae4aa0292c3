import Mathlib.Data.List.Sort
import Packrat.Ordered

/-!
# Ordered lists are determined by their contents

Sets and maps are kept as lists in strictly increasing key order. Over a strict total order such a
list is fixed by its members, and such a map by what it answers, so two routes of edits that lead to
the same contents lead to the same list. Nothing else about the edits is needed later:

* **`mem_add`**, **`mem_remove`**, **`mem_toggle`** — the members after an edit of a set;
* **`lookup_insert`**, **`lookup_erase`** — the answers after an edit of a map;
* **`Increasing.ext`**, **`map_ext`** — equal contents are equal lists.
-/

namespace Packrat

/-- Keys whose order is strict and total. -/
class LawfulKey (κ : Type) [Key κ] : Prop where
  irrefl (a : κ) : ¬ Key.before a a
  trans {a b c : κ} : Key.before a b → Key.before b c → Key.before a c
  connected {a b : κ} : a ≠ b → Key.before a b ∨ Key.before b a

instance : LawfulKey Nat where
  irrefl a := by simp [Key.before]
  trans {a b c} hab hbc := by
    simp only [Key.before, decide_eq_true_eq] at hab hbc ⊢
    omega
  connected {a b} h := by
    simp only [Key.before, decide_eq_true_eq]
    omega

namespace Ordered

variable {κ α : Type} [DecidableEq κ] [Key κ]

omit [DecidableEq κ] in
/-- The list is strictly increasing. -/
def Increasing (l : List κ) : Prop :=
  l.Pairwise fun a b => Key.before a b

omit [DecidableEq κ] in
@[simp] theorem increasing_nil : Increasing ([] : List κ) :=
  List.Pairwise.nil

section Lawful

variable [LawfulKey κ]

omit [DecidableEq κ] in
/-- A key before the head of an increasing list is not in it. -/
theorem Increasing.not_mem_of_before {a j : κ} {rest : List κ}
    (h : Increasing (j :: rest)) (haj : Key.before a j) : a ∉ j :: rest := by
  intro hmem
  rcases List.mem_cons.mp hmem with rfl | hrest
  · exact LawfulKey.irrefl a haj
  · have hja : Key.before j a := List.rel_of_pairwise_cons h hrest
    exact LawfulKey.irrefl a (LawfulKey.trans haj hja)

omit [DecidableEq κ] in
/-- The head of an increasing list does not occur again. -/
theorem Increasing.head_not_mem {j : κ} {rest : List κ} (h : Increasing (j :: rest)) :
    j ∉ rest := by
  intro hmem
  exact LawfulKey.irrefl j (List.rel_of_pairwise_cons h hmem)

omit [DecidableEq κ] in
/-- A key in front of the head keeps the list increasing. -/
theorem Increasing.cons_before {a j : κ} {rest : List κ}
    (h : Increasing (j :: rest)) (haj : Key.before a j) : Increasing (a :: j :: rest) := by
  refine List.pairwise_cons.mpr ⟨?_, h⟩
  intro b hb
  rcases List.mem_cons.mp hb with rfl | hrest
  · exact haj
  · exact LawfulKey.trans haj (List.rel_of_pairwise_cons h hrest)

omit [DecidableEq κ] in
/-- Two keys that differ and do not stand one way stand the other way. -/
theorem before_of_not_before {a b : κ} (hne : a ≠ b) (h : ¬ Key.before b a) :
    Key.before a b :=
  (LawfulKey.connected hne).resolve_right h

omit [DecidableEq κ] in
/-- Increasing lists with the same members are equal. -/
theorem Increasing.ext {l₁ l₂ : List κ} (h₁ : Increasing l₁) (h₂ : Increasing l₂)
    (h : ∀ a, a ∈ l₁ ↔ a ∈ l₂) : l₁ = l₂ := by
  have : Std.Irrefl fun a b : κ => Key.before a b = true := ⟨LawfulKey.irrefl⟩
  have : Std.Antisymm fun a b : κ => Key.before a b = true :=
    ⟨fun a b hab hba => absurd (LawfulKey.trans hab hba) (LawfulKey.irrefl a)⟩
  exact List.Pairwise.eq_of_mem_iff h₁ h₂ h

/-! ## Sets -/

omit [LawfulKey κ] in
/-- Adding an element adds that one. -/
theorem mem_add {a b : κ} {l : List κ} : b ∈ add a l ↔ b = a ∨ b ∈ l := by
  induction l with
  | nil => simp [add]
  | cons j rest ih =>
      rw [add]
      by_cases hj : j = a
      · rw [if_pos hj, hj]
        simp
      · rw [if_neg hj]
        by_cases hb : Key.before a j
        · rw [if_pos hb]
          simp
        · rw [if_neg hb, List.mem_cons, ih, List.mem_cons]
          exact or_left_comm

/-- It is put where it belongs, and only if it was not there. -/
theorem increasing_add {a : κ} {l : List κ} (h : Increasing l) : Increasing (add a l) := by
  induction l with
  | nil => exact List.pairwise_singleton _ _
  | cons j rest ih =>
      rw [add]
      by_cases hj : j = a
      · rw [if_pos hj]
        exact h
      · rw [if_neg hj]
        by_cases hb : Key.before a j
        · rw [if_pos hb]
          exact h.cons_before hb
        · rw [if_neg hb]
          refine List.pairwise_cons.mpr ⟨?_, ih h.of_cons⟩
          intro b hmem
          rcases mem_add.mp hmem with rfl | hrest
          · exact before_of_not_before hj hb
          · exact List.rel_of_pairwise_cons h hrest

/-- Removing an element removes that one: an increasing list holds it once. -/
theorem mem_remove {a b : κ} {l : List κ} (h : Increasing l) :
    b ∈ remove a l ↔ b ∈ l ∧ b ≠ a := by
  induction l with
  | nil => simp [remove]
  | cons j rest ih =>
      rw [remove]
      by_cases hj : j = a
      · subst hj
        rw [if_pos rfl, List.mem_cons]
        constructor
        · intro hb
          refine ⟨Or.inr hb, ?_⟩
          rintro rfl
          exact h.head_not_mem hb
        · rintro ⟨hb | hb, hne⟩
          · exact absurd hb hne
          · exact hb
      · rw [if_neg hj, List.mem_cons, ih h.of_cons, List.mem_cons]
        constructor
        · rintro (rfl | ⟨hb, hne⟩)
          · exact ⟨Or.inl rfl, hj⟩
          · exact ⟨Or.inr hb, hne⟩
        · rintro ⟨hb | hb, hne⟩
          · exact Or.inl hb
          · exact Or.inr ⟨hb, hne⟩

omit [Key κ] [LawfulKey κ] in
theorem remove_sublist (a : κ) (l : List κ) : (remove a l).Sublist l := by
  induction l with
  | nil => exact List.Sublist.slnil
  | cons j rest ih =>
      rw [remove]
      by_cases hj : j = a
      · rw [if_pos hj]
        exact List.sublist_cons_self j rest
      · rw [if_neg hj]
        exact ih.cons_cons j

omit [LawfulKey κ] in
theorem increasing_remove {a : κ} {l : List κ} (h : Increasing l) : Increasing (remove a l) :=
  h.sublist (remove_sublist a l)

/-- Toggling is adding what is not there and removing what is. -/
theorem toggle_eq {a : κ} {l : List κ} (h : Increasing l) :
    toggle a l = if a ∈ l then remove a l else add a l := by
  induction l with
  | nil => rfl
  | cons j rest ih =>
      rw [toggle, remove, add]
      by_cases hj : j = a
      · simp [hj]
      · have hmem : a ∈ j :: rest ↔ a ∈ rest := by simp [Ne.symm hj]
        simp only [if_neg hj, hmem, ih h.of_cons]
        by_cases hb : Key.before a j
        · have : a ∉ rest := fun hr => h.not_mem_of_before hb (List.mem_cons_of_mem j hr)
          rw [if_pos hb, if_neg this, if_pos hb]
        · rw [if_neg hb, if_neg hb]
          by_cases hr : a ∈ rest
          · rw [if_pos hr, if_pos hr]
          · rw [if_neg hr, if_neg hr]

/-- Toggling flips the membership of one element. -/
theorem mem_toggle {a b : κ} {l : List κ} (h : Increasing l) :
    b ∈ toggle a l ↔ if b = a then a ∉ l else b ∈ l := by
  rw [toggle_eq h]
  by_cases ha : a ∈ l
  · rw [if_pos ha, mem_remove h]
    by_cases hb : b = a <;> simp [hb, ha]
  · rw [if_neg ha, mem_add]
    by_cases hb : b = a <;> simp [hb, ha]

/-- Toggling keeps the order, whichever way it goes. -/
theorem increasing_toggle {a : κ} {l : List κ} (h : Increasing l) : Increasing (toggle a l) := by
  rw [toggle_eq h]
  by_cases ha : a ∈ l
  · rw [if_pos ha]
    exact increasing_remove h
  · rw [if_neg ha]
    exact increasing_add h

/-! ## Maps -/

omit [DecidableEq κ] [LawfulKey κ] in
/-- The keys of a map increase. -/
def IncreasingKeys (l : List (κ × α)) : Prop :=
  Increasing (l.map Prod.fst)

omit [DecidableEq κ] [LawfulKey κ] in
@[simp] theorem increasingKeys_nil : IncreasingKeys ([] : List (κ × α)) :=
  increasing_nil

omit [LawfulKey κ] in
/-- Inserting into a map adds the key to its keys. -/
theorem keys_insert (k : κ) (a : α) (l : List (κ × α)) :
    (insert k a l).map Prod.fst = add k (l.map Prod.fst) := by
  induction l with
  | nil => rfl
  | cons p rest ih =>
      obtain ⟨j, b⟩ := p
      simp only [insert, List.map_cons, add]
      by_cases hj : j = k
      · simp [hj]
      · by_cases hb : Key.before k j
        · simp [hj, hb]
        · simp [hj, hb, ih]

omit [Key κ] [LawfulKey κ] in
/-- Erasing from a map removes the key from its keys. -/
theorem keys_erase (k : κ) (l : List (κ × α)) :
    (erase k l).map Prod.fst = remove k (l.map Prod.fst) := by
  induction l with
  | nil => rfl
  | cons p rest ih =>
      obtain ⟨j, b⟩ := p
      simp only [erase, List.map_cons, remove]
      by_cases hj : j = k
      · simp [hj]
      · simp [hj, ih]

theorem IncreasingKeys.insert {k : κ} {a : α} {l : List (κ × α)} (h : IncreasingKeys l) :
    IncreasingKeys (insert k a l) := by
  rw [IncreasingKeys, keys_insert]
  exact increasing_add h

omit [LawfulKey κ] in
theorem IncreasingKeys.erase {k : κ} {l : List (κ × α)} (h : IncreasingKeys l) :
    IncreasingKeys (erase k l) := by
  rw [IncreasingKeys, keys_erase]
  exact increasing_remove h

omit [Key κ] [LawfulKey κ] in
/-- The answer of a map with one more entry in front. -/
theorem lookup_cons_eq (j i : κ) (b : α) (rest : List (κ × α)) :
    ((i, b) :: rest).lookup j = if j = i then some b else rest.lookup j := by
  rw [List.lookup_cons]
  by_cases hj : j = i
  · rw [if_pos hj, beq_iff_eq.mpr hj]
  · rw [if_neg hj, beq_eq_false_iff_ne.mpr hj]

omit [Key κ] [LawfulKey κ] in
/-- Exactly the keys of a map are looked up with success. -/
theorem isSome_lookup (k : κ) (l : List (κ × α)) : (l.lookup k).isSome ↔ k ∈ l.map Prod.fst := by
  induction l with
  | nil => simp
  | cons entry rest ih =>
      rw [lookup_cons_eq, List.map_cons, List.mem_cons]
      split
      · rename_i hk
        exact iff_of_true rfl (Or.inl hk)
      · rename_i hk
        rw [ih, or_iff_right hk]

omit [LawfulKey κ] in
/-- What is inserted is found, and no other entry changes. -/
theorem lookup_insert (j k : κ) (a : α) (l : List (κ × α)) :
    (insert k a l).lookup j = if j = k then some a else l.lookup j := by
  induction l with
  | nil => rw [insert, lookup_cons_eq]
  | cons p rest ih =>
      obtain ⟨i, b⟩ := p
      rw [insert]
      by_cases hi : i = k
      · rw [if_pos hi, hi, lookup_cons_eq, lookup_cons_eq]
        by_cases hj : j = k
        · rw [if_pos hj, if_pos hj]
        · rw [if_neg hj, if_neg hj, if_neg hj]
      · rw [if_neg hi]
        by_cases hb : Key.before k i
        · rw [if_pos hb, lookup_cons_eq]
        · rw [if_neg hb, lookup_cons_eq, lookup_cons_eq, ih]
          by_cases hji : j = i
          · have hjk : ¬ j = k := fun hjk => hi (hji.symm.trans hjk)
            rw [if_pos hji, if_neg hjk, if_pos hji]
          · rw [if_neg hji, if_neg hji]

/-- What is erased is not found: no older entry is uncovered, as keys are not repeated. -/
theorem lookup_erase {k : κ} {l : List (κ × α)} (h : IncreasingKeys l) (j : κ) :
    (erase k l).lookup j = if j = k then none else l.lookup j := by
  induction l with
  | nil => simp [erase]
  | cons p rest ih =>
      obtain ⟨i, b⟩ := p
      have hnot : i ∉ rest.map Prod.fst := h.head_not_mem
      rw [erase, lookup_cons_eq]
      by_cases hi : i = k
      · subst hi
        rw [if_pos rfl]
        by_cases hj : j = i
        · subst hj
          rw [if_pos rfl, List.lookup_eq_none_iff]
          intro p hp
          have hne : j ≠ p.1 := fun hjp => hnot (hjp ▸ List.mem_map_of_mem hp)
          exact bne_iff_ne.mpr hne
        · rw [if_neg hj, if_neg hj]
      · rw [if_neg hi, lookup_cons_eq, ih h.of_cons]
        by_cases hji : j = i
        · have hjk : ¬ j = k := fun hjk => hi (hji.symm.trans hjk)
          rw [if_pos hji, if_neg hjk, if_pos hji]
        · rw [if_neg hji, if_neg hji]

/-- What a map answers is what it holds. -/
theorem mem_iff_lookup {l : List (κ × α)} (h : IncreasingKeys l) {k : κ} {a : α} :
    (k, a) ∈ l ↔ l.lookup k = some a := by
  induction l with
  | nil => simp
  | cons p rest ih =>
      obtain ⟨j, b⟩ := p
      have hnot : j ∉ rest.map Prod.fst := h.head_not_mem
      rw [List.mem_cons, lookup_cons_eq, ih h.of_cons]
      by_cases hk : k = j
      · subst hk
        rw [if_pos rfl]
        constructor
        · rintro (heq | hs)
          · cases heq
            rfl
          · have hmem : (k, a) ∈ rest := (ih h.of_cons).mpr hs
            exact absurd (List.mem_map_of_mem hmem) hnot
        · intro heq
          cases heq
          exact Or.inl rfl
      · rw [if_neg hk]
        constructor
        · rintro (heq | hs)
          · cases heq
            exact absurd rfl hk
          · exact hs
        · exact Or.inr

/-- Maps with increasing keys and the same answers are equal. -/
theorem map_ext {l₁ l₂ : List (κ × α)} (h₁ : IncreasingKeys l₁) (h₂ : IncreasingKeys l₂)
    (h : ∀ k, l₁.lookup k = l₂.lookup k) : l₁ = l₂ := by
  have : Std.Irrefl fun p q : κ × α => Key.before p.1 q.1 = true :=
    ⟨fun p => LawfulKey.irrefl p.1⟩
  have : Std.Antisymm fun p q : κ × α => Key.before p.1 q.1 = true :=
    ⟨fun p q hpq hqp => absurd (LawfulKey.trans hpq hqp) (LawfulKey.irrefl p.1)⟩
  refine List.Pairwise.eq_of_mem_iff (List.pairwise_map.mp h₁) (List.pairwise_map.mp h₂) ?_
  rintro ⟨k, a⟩
  rw [mem_iff_lookup h₁, mem_iff_lookup h₂, h k]

end Lawful

end Ordered

end Packrat
