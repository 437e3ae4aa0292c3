import Packrat.Proofs.Arithmetic.LeftRecursive
import Packrat.Proofs.Sums.Operands

/-! # How tokens of arithmetic are written

    A token is written as its characters and any number of blanks (`Lexeme.Spells`).  Where one is
    written it is found, as long as nothing follows that would make it longer: a blank never, a
    digit not after a number.  No other token is found there, since no two of them begin with the
    same character (`Lexeme.begins`).

    * **`lexer_found`** — a token is found where it is written, and ends where its blanks end.
    * **`lexer_other`** — no other token is found there. -/

namespace Packrat.Arithmetic

open Sums (rest rest_cons rest_add isDigit Number)
open LeftRecursive (lexer)

variable {text : Text} {s : Shape ExprId} {e : ExprId} {p : Nat} {f : Found} {c : Char}
variable {many blanks t chars : List Char} {accepts : Char → Bool} {x y : Lexeme} {op : String}

/-! ## Classes of characters -/

/-- Spaces, tabs and line ends. -/
def isBlank (c : Char) : Bool :=
  [' ', '\t', '\r', '\n'].contains c

/-- No character of the class stands at the front. -/
def NotNext (accepts : Char → Bool) (t : List Char) : Prop :=
  ∀ c ∈ t.head?, accepts c = false

theorem notNext_nil : NotNext accepts [] := by
  rintro c ⟨⟩

theorem notNext_cons : NotNext accepts (c :: t) ↔ accepts c = false := by
  simp [NotNext]

theorem NotNext.at? (h : NotNext accepts (rest text p)) (hc : text.at? p = some c) :
    accepts c = false := by
  have hrest : rest text p = c :: rest text (p + 1) := Text.drop_of_at?_some hc
  rwa [hrest, notNext_cons] at h

/-- The shape takes one character of a class. -/
structure Takes (text : Text) (s : Shape ExprId) (accepts : Char → Bool) : Prop where
  met : ∀ {p c}, text.at? p = some c → accepts c = true →
    Peg tiered text s p (some (.nothing (p + 1)))
  missed : ∀ {p}, NotNext accepts (rest text p) → Peg tiered text s p none

theorem takes_digit (text : Text) : Takes text (.range '0' '9') isDigit := by
  refine ⟨fun hc hdigit => ?_, fun hnext => .range_fail fun c hc => ?_⟩
  · obtain ⟨hlo, hhi⟩ : '0' ≤ _ ∧ _ ≤ '9' := by simpa [isDigit] using hdigit
    exact .range hc hlo hhi
  · have hother := hnext.at? hc
    simpa [isDigit] using hother

theorem takes_blank (text : Text) : Takes text (.set [' ', '\t', '\r', '\n']) isBlank := by
  refine ⟨fun hc hblank => .set hc (List.contains_iff_mem.mp hblank), fun hnext => ?_⟩
  refine .set_fail fun c hc hmem => ?_
  cases (hnext.at? hc).symm.trans (List.contains_iff_mem.mpr hmem)

/-- Characters of a class are found up to the first other one. -/
theorem Takes.zeroMore (h : Takes text s accepts) (he : tiered.shape? e = some s)
    (hmany : ∀ c ∈ many, accepts c = true) (hnext : NotNext accepts t)
    (hrest : rest text p = many ++ t) :
    Peg tiered text (.zeroMore e) p (some (.nothing (p + many.length))) := by
  induction many generalizing p with
  | nil =>
      rw [List.nil_append] at hrest
      exact .zeroMore_end he (h.missed (hrest ▸ hnext))
  | cons c many ih =>
      obtain ⟨hhead, htail⟩ := List.forall_mem_cons.mp hmany
      obtain ⟨-, hbehind, hat⟩ := rest_cons hrest
      have hmore := Peg.zeroMore_next he (h.met hat hhead) (ih htail hbehind)
      rwa [List.length_cons, ← Nat.add_assoc, Nat.add_right_comm]

/-! ## Tokens -/

/-- The marks of arithmetic. -/
def marks : List String :=
  ["(", ")", "+", "-", "*", "/"]

/-- The grammar has a token of its own for it. -/
def Lexeme.Known : Lexeme → Prop
  | .number => True
  | .mark op => op ∈ marks

/-- The token begins with the character. -/
def Lexeme.begins : Lexeme → Char → Bool
  | .number, c => isDigit c
  | .mark op, c => op.toList == [c]

/-- The characters are those of the token, and blanks. -/
def Lexeme.Spells (x : Lexeme) (chars : List Char) : Prop :=
  x.Known ∧ ∃ bare blanks, chars = bare ++ blanks ∧ (∀ c ∈ blanks, isBlank c = true) ∧
    match x with
    | .number => Number bare
    | .mark op => bare = op.toList

theorem shape_mark (hop : op ∈ marks) : ∃ e,
    tiered.shape? (LeftRecursive.token (.mark op)) = some (.token e) ∧
      tiered.shape? e = some (.literal op) := by
  simp only [marks, List.mem_cons, List.not_mem_nil, or_false] at hop
  rcases hop with rfl | rfl | rfl | rfl | rfl | rfl <;> exact ⟨_, rfl, rfl⟩

theorem toList_mark (hop : op ∈ marks) :
    ∃ c, op.toList = [c] ∧ isBlank c = false ∧ isDigit c = false := by
  have hother : (marks.map String.toList).all (fun chars =>
      chars.length == 1 && chars.all fun c => !isBlank c && !isDigit c) = true := by decide
  rw [List.all_map, List.all_eq_true] at hother
  have hchars := hother op hop
  obtain ⟨hlength, hall⟩ := Bool.and_eq_true_iff.mp hchars
  obtain ⟨c, hc⟩ := List.length_eq_one_iff.mp (eq_of_beq hlength)
  rw [hc] at hall
  refine ⟨c, hc, ?_⟩
  simpa using hall

theorem not_digit_of_blank (h : isBlank c = true) : isDigit c = false := by
  have hall : [' ', '\t', '\r', '\n'].all (fun c => !isDigit c) = true := by decide
  have hother := List.all_eq_true.mp hall c (List.contains_iff_mem.mp h)
  simpa using hother

/-- What is written begins as it should, and not with a blank. -/
theorem Lexeme.Spells.head (h : x.Spells chars) :
    ∃ c s, chars = c :: s ∧ x.begins c = true ∧ isBlank c = false := by
  obtain ⟨hknown, bare, blanks, rfl, -, hbare⟩ := h
  cases x with
  | number =>
      obtain ⟨hne, hdigits⟩ := hbare
      obtain ⟨c, digits, rfl⟩ := List.exists_cons_of_ne_nil hne
      have hdigit := hdigits c (List.mem_cons_self ..)
      refine ⟨c, _, rfl, hdigit, ?_⟩
      by_contra hblank
      rw [Bool.not_eq_false] at hblank
      cases hdigit.symm.trans (not_digit_of_blank hblank)
  | mark op =>
      obtain rfl : bare = op.toList := hbare
      obtain ⟨c, hc, hblank, -⟩ := toList_mark hknown
      exact ⟨c, blanks, by rw [hc]; rfl, by rw [begins, hc, beq_self_eq_true], hblank⟩

/-- No two tokens begin with the same character. -/
theorem Lexeme.begins_unique (hx : x.Known) (hy : y.Known) (h : x.begins c = true)
    (h' : y.begins c = true) : x = y := by
  have hmark : ∀ op ∈ marks, isDigit c = true → (Lexeme.mark op).begins c = false := by
    intro op hop hdigit
    obtain ⟨d, hd, -, hother⟩ := toList_mark hop
    by_contra hbegins
    rw [begins, Bool.not_eq_false, beq_iff_eq, hd] at hbegins
    cases hbegins
    cases hdigit.symm.trans hother
  cases x with
  | number =>
      cases y with
      | number => rfl
      | mark op => cases h'.symm.trans (hmark op hy h)
  | mark op =>
      cases y with
      | number => cases h.symm.trans (hmark op hx h')
      | mark op' =>
          have hsame : op.toList = op'.toList := (eq_of_beq h).trans (eq_of_beq h').symm
          rw [String.toList_injective hsame]

/-- A token ends behind its blanks. -/
theorem token_found (he : tiered.shape? e = some s) (h : Peg tiered text s p (some f))
    (hblanks : ∀ c ∈ blanks, isBlank c = true) (hnext : NotNext isBlank t)
    (hrest : rest text f.stop = blanks ++ t) :
    Peg tiered text (.token e) p (some { f with stop := f.stop + blanks.length }) :=
  .token rfl he h rfl ((takes_blank text).zeroMore rfl hblanks hnext hrest)

/-- A token is found where it is written, unless what follows makes it longer. -/
theorem lexer_found (h : x.Spells chars) (hblank : NotNext isBlank t)
    (hdigit : x = .number → NotNext isDigit t) (hrest : rest text p = chars ++ t) :
    ∃ f, lexer text x p (some f) ∧ f.stop = p + chars.length := by
  obtain ⟨hknown, bare, blanks, rfl, hblanks, hbare⟩ := h
  rw [List.append_assoc] at hrest
  cases x with
  | number =>
      obtain ⟨hne, hdigits⟩ := hbare
      obtain ⟨c, digits, rfl⟩ := List.exists_cons_of_ne_nil hne
      obtain ⟨hhead, htail⟩ := List.forall_mem_cons.mp hdigits
      obtain ⟨-, hbehind, hat⟩ := rest_cons hrest
      have hbetween : NotNext isDigit (blanks ++ t) := by
        cases blanks with
        | nil => exact hdigit rfl
        | cons b blanks =>
            exact notNext_cons.mpr (not_digit_of_blank (hblanks b (List.mem_cons_self ..)))
      have hrun := (takes_digit text).zeroMore (e := 28) rfl htail hbetween hbehind
      have hcaptured := Peg.capture (.text "num") (e := 29) rfl
        (Peg.oneMore rfl ((takes_digit text).met hat hhead) hrun)
      have hend : rest text (p + 1 + digits.length) = blanks ++ t := rest_add hbehind
      refine ⟨_, ⟨_, rfl, token_found rfl hcaptured hblanks hblank hend⟩, ?_⟩
      show p + 1 + digits.length + blanks.length = _
      rw [List.length_append, List.length_cons]
      omega
  | mark op =>
      obtain rfl : bare = op.toList := hbare
      obtain ⟨e, htoken, he⟩ := shape_mark hknown
      have hend : rest text (p + op.length) = blanks ++ t := by
        rw [← String.length_toList]
        exact rest_add hrest
      have hliteral : Peg tiered text (.literal op) p (some (.nothing (p + op.length))) :=
        .literal ⟨blanks ++ t, hrest.symm⟩
      refine ⟨_, ⟨_, htoken, token_found he hliteral hblanks hblank hend⟩, ?_⟩
      show p + op.length + blanks.length = _
      rw [List.length_append, String.length_toList, Nat.add_assoc]

/-- A token is missed where no character stands with which it begins. -/
theorem lexer_missed (hx : x.Known) (h : NotNext x.begins (rest text p)) :
    lexer text x p none := by
  cases x with
  | number =>
      have hcaptured := Peg.capture (.text "num") (e := 29) rfl
        (Peg.oneMore_fail rfl ((takes_digit text).missed h))
      exact ⟨_, rfl, .token_fail rfl hcaptured⟩
  | mark op =>
      obtain ⟨e, htoken, he⟩ := shape_mark hx
      obtain ⟨c, hc, -⟩ := toList_mark hx
      refine ⟨_, htoken, .token_fail he (.literal_fail ?_)⟩
      rintro ⟨t, ht⟩
      have hrest : rest text p = c :: t := by rw [rest, ← ht, hc]; rfl
      rw [hrest, notNext_cons, Lexeme.begins, hc, beq_self_eq_true] at h
      cases h

/-- Where a token is written, no other is found. -/
theorem lexer_other (h : x.Spells chars) (hrest : rest text p = chars ++ t) (hne : y ≠ x)
    (hy : y.Known) : lexer text y p none := by
  obtain ⟨c, s, rfl, hbegins, -⟩ := h.head
  refine lexer_missed hy ?_
  rw [hrest, List.cons_append, notNext_cons]
  by_contra hother
  rw [Bool.not_eq_false] at hother
  exact hne (Lexeme.begins_unique hy h.1 hother hbegins)

end Packrat.Arithmetic
