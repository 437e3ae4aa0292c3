import Mathlib

/-! # Sums and what a left-associative boundary makes of them

    A sentence of sums is a number, a sentence in parentheses or two sentences with a plus between
    them.  A left-associative boundary reads less than that.  It is free or blocked where it begins:
    a free one reads an atom and then every operation that follows, a blocked one reads an atom and
    no more.  The operands of operations are blocked.  So is what stands in parentheses at the front
    of a free one, and what stands in parentheses in a blocked one is free again.

    * **`Sentence`**, **`Phrase`** — the sentences, and what a boundary makes of each part.
    * **`Reads`** — how far a part reads, from left to right and without a choice.
    * **`reads_all_iff`** — all of a text is read if and only if it is a phrase.
    * **`Guarded.phrase`** — no sentence is lost whose parentheses all come right after a plus. -/

namespace Packrat.Sums

/-- A decimal digit. -/
def isDigit (c : Char) : Bool :=
  '0' ≤ c && c ≤ '9'

/-- One digit or more. -/
def Number (t : List Char) : Prop :=
  t ≠ [] ∧ ∀ c ∈ t, isDigit c = true

/-- Numbers, sums and sums in parentheses. -/
inductive Sentence : List Char → Prop where
  | number {t : List Char} : Number t → Sentence t
  | group {t : List Char} : Sentence t → Sentence ('(' :: (t ++ [')']))
  | sum {t u : List Char} : Sentence t → Sentence u → Sentence (t ++ '+' :: u)

/-- What is read; a boundary is blocked or free. -/
inductive Part where
  | group (blocked : Bool)
  | atom (blocked : Bool)
  | entry (blocked : Bool)
  /-- A plus with its right operand. -/
  | operation
  /-- All operations that follow. -/
  | grown

/-- What each part is made of. -/
inductive Phrase : Part → List Char → Prop where
  | group {b : Bool} {t : List Char} : Phrase (.entry b) t → Phrase (.group b) ('(' :: (t ++ [')']))
  | atom_group {b : Bool} {t : List Char} : Phrase (.group b) t → Phrase (.atom b) t
  | atom_number {b : Bool} {t : List Char} : Number t → Phrase (.atom b) t
  | blocked {t : List Char} : Phrase (.atom false) t → Phrase (.entry true) t
  | free {t u : List Char} : Phrase (.atom true) t → Phrase .grown u →
      Phrase (.entry false) (t ++ u)
  | operation {t : List Char} : Phrase (.entry true) t → Phrase .operation ('+' :: t)
  | grown_nil : Phrase .grown []
  | grown_more {t u : List Char} : Phrase .operation t → Phrase .grown u → Phrase .grown (t ++ u)

variable {part : Part} {b : Bool} {s t u v : List Char} {o o' : Option (List Char)}

/-! ## Phrases are sentences -/

/-- What a phrase is worth as a sentence. -/
def Part.Means : Part → List Char → Prop
  | .group _, t | .atom _, t | .entry _, t => Sentence t
  | .operation, t => ∃ u, t = '+' :: u ∧ Sentence u
  | .grown, t => ∀ u, Sentence u → Sentence (u ++ t)

theorem Phrase.means (h : Phrase part t) : part.Means t := by
  induction h with
  | group _ ih => exact .group ih
  | atom_group _ ih => exact ih
  | atom_number hnumber => exact .number hnumber
  | blocked _ ih => exact ih
  | free _ _ ihfirst ihgrown => exact ihgrown _ ihfirst
  | operation _ ih => exact ⟨_, rfl, ih⟩
  | grown_nil => exact fun u hu => (List.append_nil u).symm ▸ hu
  | grown_more _ _ ihoperation ihgrown =>
      obtain ⟨w, rfl, hw⟩ := ihoperation
      intro u hu
      rw [← List.append_assoc]
      exact ihgrown _ (.sum hu hw)

/-- What a boundary reads is a sentence. -/
theorem Phrase.sentence (h : Phrase (.entry b) t) : Sentence t :=
  h.means

/-! ## Sentences that are phrases -/

theorem Phrase.grown_append (h : Phrase .grown t) (hu : Phrase .operation u) :
    Phrase .grown (t ++ u) := by
  generalize hpart : Part.grown = part at h
  induction h with
  | grown_nil => simpa using Phrase.grown_more hu .grown_nil
  | grown_more hoperation _ _ ih =>
      rw [List.append_assoc]
      exact .grown_more hoperation (ih rfl)
  | _ => cases hpart

/-- A sum goes on with an operand. -/
theorem Phrase.plus (h : Phrase (.entry false) t) (hu : Phrase (.entry true) u) :
    Phrase (.entry false) (t ++ '+' :: u) := by
  cases h with
  | free hfirst hgrown =>
      rw [List.append_assoc]
      exact .free hfirst (hgrown.grown_append (.operation hu))

/-- Every opening parenthesis comes right after a plus; `last` is the character before the text. -/
def Guarded : Option Char → List Char → Prop
  | _, [] => True
  | last, c :: rest => (c = '(' → last = some '+') ∧ Guarded (some c) rest

theorem Guarded.left {last : Option Char} (h : Guarded last (t ++ u)) : Guarded last t := by
  induction t generalizing last with
  | nil => trivial
  | cons c t ih => exact ⟨h.1, ih h.2⟩

/-- What follows a character is guarded by it. -/
theorem Guarded.right {last : Option Char} {c : Char} (h : Guarded last (t ++ c :: u)) :
    Guarded (some c) u := by
  induction t generalizing last with
  | nil => exact h.2
  | cons d t ih => exact ih h.2

/-- A guarded sentence can follow a plus, and it can stand alone unless it begins a plus. -/
theorem Sentence.phrases (h : Sentence t) {last : Option Char} (hguarded : Guarded last t) :
    (last ≠ some '+' → Phrase (.entry false) t) ∧
      ∀ s, Phrase (.entry false) s → Phrase (.entry false) (s ++ '+' :: t) := by
  induction h generalizing last with
  | @number t hnumber =>
      refine ⟨fun _ => ?_, fun s hs => hs.plus (.blocked (.atom_number hnumber))⟩
      exact (List.append_nil t) ▸ .free (.atom_number hnumber) .grown_nil
  | group _ ih =>
      have hinner := (ih hguarded.2.left).1 (by decide)
      refine ⟨fun hlast => absurd (hguarded.1 rfl) hlast, fun s hs => ?_⟩
      exact hs.plus (.blocked (.atom_group (.group hinner)))
  | @sum t u _ _ iht ihu =>
      obtain ⟨halone, hafter⟩ := iht hguarded.left
      obtain ⟨-, hplus⟩ := ihu hguarded.right
      refine ⟨fun hlast => hplus t (halone hlast), fun s hs => ?_⟩
      have hassoc : s ++ '+' :: (t ++ '+' :: u) = (s ++ '+' :: t) ++ '+' :: u := by simp
      exact hassoc ▸ hplus _ (hafter s hs)

theorem Guarded.phrase (h : Guarded none t) (hsentence : Sentence t) : Phrase (.entry false) t :=
  (hsentence.phrases h).1 (by decide)

/-! ## Reading -/

/-- What is left after the longest number, if there is one. -/
def afterNumber (s : List Char) : Option (List Char) :=
  if s.head?.any isDigit then some (s.dropWhile isDigit) else none

/-- What a part leaves of the characters that it is given, or nothing if it does not match. -/
inductive Reads : Part → List Char → Option (List Char) → Prop where
  | not_opened {b : Bool} {s : List Char} : s.head? ≠ some '(' → Reads (.group b) s none
  | not_filled {b : Bool} {s : List Char} : Reads (.entry b) s none →
      Reads (.group b) ('(' :: s) none
  | not_closed {b : Bool} {s v : List Char} : Reads (.entry b) s (some v) → v.head? ≠ some ')' →
      Reads (.group b) ('(' :: s) none
  | group {b : Bool} {s v : List Char} : Reads (.entry b) s (some (')' :: v)) →
      Reads (.group b) ('(' :: s) (some v)
  | atom_group {b : Bool} {s v : List Char} : Reads (.group b) s (some v) →
      Reads (.atom b) s (some v)
  | atom_number {b : Bool} {s : List Char} : Reads (.group b) s none →
      Reads (.atom b) s (afterNumber s)
  | blocked {s : List Char} {o : Option (List Char)} : Reads (.atom false) s o →
      Reads (.entry true) s o
  | free_none {s : List Char} : Reads (.atom true) s none → Reads (.entry false) s none
  | free {s v : List Char} {o : Option (List Char)} : Reads (.atom true) s (some v) →
      Reads .grown v o → Reads (.entry false) s o
  | no_plus {s : List Char} : s.head? ≠ some '+' → Reads .operation s none
  | operation {s : List Char} {o : Option (List Char)} : Reads (.entry true) s o →
      Reads .operation ('+' :: s) o
  | grown_more {s v : List Char} {o : Option (List Char)} : Reads .operation s (some v) →
      Reads .grown v o → Reads .grown s o
  | grown_stop {s : List Char} : Reads .operation s none → Reads .grown s (some s)

/-- Reading leaves no choice. -/
theorem Reads.unique (h : Reads part s o) (h' : Reads part s o') : o = o' := by
  induction h generalizing o' with
  | not_opened hopen =>
      cases h' with
      | not_opened | not_filled | not_closed => rfl
      | group => exact absurd rfl hopen
  | not_filled _ ih =>
      cases h' with
      | not_opened | not_filled | not_closed => rfl
      | group h' => cases ih h'
  | not_closed _ hclose ih =>
      cases h' with
      | not_opened | not_filled | not_closed => rfl
      | group h' =>
          cases ih h'
          exact absurd rfl hclose
  | group _ ih =>
      cases h' with
      | not_opened hopen => exact absurd rfl hopen
      | not_filled h' => cases ih h'
      | not_closed h' hclose =>
          cases ih h'
          exact absurd rfl hclose
      | group h' =>
          cases ih h'
          rfl
  | atom_group _ ih =>
      cases h' with
      | atom_group h' => exact ih h'
      | atom_number h' => cases ih h'
  | atom_number _ ih =>
      cases h' with
      | atom_group h' => cases ih h'
      | atom_number => rfl
  | blocked _ ih =>
      cases h' with
      | blocked h' => exact ih h'
  | free_none _ ih =>
      cases h' with
      | free_none => rfl
      | free h' => cases ih h'
  | free _ _ ihfirst ihgrown =>
      cases h' with
      | free_none h' => cases ihfirst h'
      | free h' hgrown =>
          cases ihfirst h'
          exact ihgrown hgrown
  | no_plus hplus =>
      cases h' with
      | no_plus => rfl
      | operation => exact absurd rfl hplus
  | operation _ ih =>
      cases h' with
      | no_plus hplus => exact absurd rfl hplus
      | operation h' => exact ih h'
  | grown_more _ _ ihoperation ihgrown =>
      cases h' with
      | grown_more h' hgrown =>
          cases ihoperation h'
          exact ihgrown hgrown
      | grown_stop h' => cases ihoperation h'
  | grown_stop _ ih =>
      cases h' with
      | grown_more h' => cases ih h'
      | grown_stop => rfl

/-- What is read is a phrase. -/
theorem Reads.phrase (h : Reads part s o) (ho : o = some v) : ∃ t, s = t ++ v ∧ Phrase part t := by
  induction h generalizing v with
  | not_opened | not_filled | not_closed | free_none | no_plus => cases ho
  | group _ ih =>
      cases ho
      obtain ⟨t, rfl, ht⟩ := ih rfl
      exact ⟨'(' :: (t ++ [')']), by simp, .group ht⟩
  | atom_group _ ih =>
      obtain ⟨t, rfl, ht⟩ := ih ho
      exact ⟨t, rfl, .atom_group ht⟩
  | @atom_number b s _ _ =>
      rw [afterNumber] at ho
      split at ho
      · rename_i hdigit
        cases ho
        refine ⟨s.takeWhile isDigit, List.takeWhile_append_dropWhile.symm, .atom_number ⟨?_, ?_⟩⟩
        · cases s with
          | nil => cases hdigit
          | cons c s => simp [show isDigit c = true by simpa using hdigit]
        · exact fun c hc => List.mem_takeWhile_imp hc
      · cases ho
  | blocked _ ih =>
      obtain ⟨t, rfl, ht⟩ := ih ho
      exact ⟨t, rfl, .blocked ht⟩
  | free _ _ ihfirst ihgrown =>
      obtain ⟨t, rfl, ht⟩ := ihfirst rfl
      obtain ⟨u, rfl, hu⟩ := ihgrown ho
      exact ⟨t ++ u, (List.append_assoc ..).symm, .free ht hu⟩
  | operation _ ih =>
      obtain ⟨t, rfl, ht⟩ := ih ho
      exact ⟨'+' :: t, rfl, .operation ht⟩
  | grown_more _ _ ihoperation ihgrown =>
      obtain ⟨t, rfl, ht⟩ := ihoperation rfl
      obtain ⟨u, rfl, hu⟩ := ihgrown ho
      exact ⟨t ++ u, (List.append_assoc ..).symm, .grown_more ht hu⟩
  | grown_stop =>
      cases ho
      exact ⟨[], rfl, .grown_nil⟩

/-- A part that takes every operation there is. -/
def Part.grows : Part → Bool
  | .entry false | .grown => true
  | _ => false

/-- What follows operations, or nothing, is no digit. -/
theorem Phrase.no_digit (h : Phrase .grown t) (hv : v.head?.any isDigit = false) :
    (t ++ v).head?.any isDigit = false := by
  cases h with
  | grown_nil => exact hv
  | grown_more hoperation =>
      cases hoperation
      exact (by decide : isDigit '+' = false)

theorem afterNumber_number (h : Number t) (hv : v.head?.any isDigit = false) :
    afterNumber (t ++ v) = some v := by
  have hfirst : (t ++ v).head?.any isDigit = true := by
    cases t with
    | nil => exact absurd rfl h.1
    | cons c t => exact h.2 c (List.mem_cons_self ..)
  have hrest : v.dropWhile isDigit = v := by
    cases v with
    | nil => rfl
    | cons c v => exact List.dropWhile_cons_of_neg (by simpa using hv)
  rw [afterNumber, if_pos hfirst, List.dropWhile_append_of_pos h.2, hrest]

/-- A phrase is read to its end if what follows cannot be taken for more of it. -/
theorem Phrase.reads (h : Phrase part t) (hdigit : v.head?.any isDigit = false)
    (hplus : part.grows = true → v.head? ≠ some '+') : Reads part (t ++ v) (some v) := by
  induction h generalizing v with
  | @group b t _ ih =>
      have hinner : Reads (.entry b) (t ++ ')' :: v) (some (')' :: v)) :=
        ih (by decide : isDigit ')' = false) fun _ => by simp
      rw [List.cons_append, List.append_assoc]
      exact .group hinner
  | atom_group _ ih => exact .atom_group (ih hdigit (by rintro ⟨⟩))
  | @atom_number b t hnumber =>
      rw [← afterNumber_number hnumber hdigit]
      refine .atom_number (.not_opened ?_)
      obtain ⟨hne, hall⟩ := hnumber
      cases t with
      | nil => exact absurd rfl hne
      | cons c t =>
          rintro ⟨⟩
          exact absurd (hall '(' (List.mem_cons_self ..)) (by decide)
  | blocked _ ih => exact .blocked (ih hdigit (by rintro ⟨⟩))
  | free _ hgrown ihfirst ihgrown =>
      rw [List.append_assoc]
      refine .free (ihfirst (hgrown.no_digit hdigit) (by rintro ⟨⟩)) (ihgrown hdigit hplus)
  | operation _ ih => exact .operation (ih hdigit (by rintro ⟨⟩))
  | grown_nil => exact .grown_stop (.no_plus (hplus rfl))
  | grown_more _ hgrown ihoperation ihgrown =>
      rw [List.append_assoc]
      exact .grown_more (ihoperation (hgrown.no_digit hdigit) (by rintro ⟨⟩)) (ihgrown hdigit hplus)

/-- A free boundary reads all of a text if and only if the text is one of its phrases. -/
theorem reads_all_iff : Reads (.entry false) t (some []) ↔ Phrase (.entry false) t := by
  constructor
  · intro h
    obtain ⟨u, rfl, hu⟩ := h.phrase rfl
    exact (List.append_nil u).symm ▸ hu
  · intro h
    exact (List.append_nil t) ▸ h.reads rfl fun _ => by decide

end Packrat.Sums
