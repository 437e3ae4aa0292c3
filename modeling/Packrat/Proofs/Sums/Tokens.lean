import Mathlib
import Packrat.Proofs.Peg.Agreement
import Packrat.Proofs.Sums.Language

/-! # What the tokens of a grammar find

    As far as the characters at a position go: a sign finds itself, and a captured number finds the
    longest number that is there, as a leaf.  No whitespace is skipped around them. -/

namespace Packrat.Sums

/-! ## Characters at a position -/

/-- The characters from a position on. -/
def rest (text : Text) (p : Nat) : List Char :=
  text.chars.toList.drop p

variable {g : Grammar} {text : Text} {id : ExprId} {p q : Nat} {o : Option Found} {f : Found}
variable {c : Char} {s : List Char}

theorem length_rest (text : Text) (p : Nat) : (rest text p).length = text.length - p := by
  rw [rest, List.length_drop]
  rfl

theorem rest_cons (h : rest text p = c :: s) :
    p < text.length ∧ rest text (p + 1) = s ∧ text.at? p = some c := by
  have hlength := congrArg List.length h
  rw [length_rest, List.length_cons] at hlength
  cases hc : text.at? p with
  | none =>
      rw [rest, Text.drop_of_at?_none hc] at h
      cases h
  | some d =>
      rw [rest, Text.drop_of_at?_some hc] at h
      cases h
      exact ⟨by omega, rfl, rfl⟩

/-- Positions in the text that have the same characters ahead are the same. -/
theorem rest_injective (hp : p ≤ text.length) (hq : q ≤ text.length)
    (h : rest text p = rest text q) : p = q := by
  have hlength := congrArg List.length h
  rw [length_rest, length_rest] at hlength
  omega

/-- What a match that ended leaves. -/
def left (text : Text) (o : Option Found) : Option (List Char) :=
  o.map fun f => rest text f.stop

/-! ## Tokens -/

/-- A token of one sign, with no whitespace to skip. -/
def IsSign (g : Grammar) (id : ExprId) (c : Char) : Prop :=
  g.whitespace = none ∧ ∃ e l, g.shape? id = some (.token e) ∧ g.shape? e = some (.literal l) ∧
    l.toList = [c]

/-- A token of digits that are captured as a number, with no whitespace to skip. -/
def IsNumber (g : Grammar) (id : ExprId) : Prop :=
  g.whitespace = none ∧ ∃ captured digits digit, g.shape? id = some (.token captured) ∧
    g.shape? captured = some (.capture digits (.text "num")) ∧
    g.shape? digits = some (.oneMore digit) ∧ g.shape? digit = some (.range '0' '9')

/-- The leaf of a number. -/
def numberLeaf (text : Text) (p q : Nat) : CaptureNode :=
  { accessor := some "num", start := p, stop := q, text := some (text.slice p q) }

theorem of_token {e : ExprId} (hws : g.whitespace = none) (hs : g.shape? id = some (.token e))
    (h : PegAt g text id p o) : PegAt g text e p o := by
  obtain ⟨s, hs', hpeg⟩ := h
  cases hs.symm.trans hs'
  cases hpeg with
  | token hws' =>
      rw [hws] at hws'
      cases hws'
  | token_fail ht hpeg => exact ⟨_, ht, hpeg⟩
  | token_bare _ ht hpeg => exact ⟨_, ht, hpeg⟩

theorem literal_found {l : String} (hl : l.toList = [c]) (h : Peg g text (.literal l) p o) :
    o = none ∧ (rest text p).head? ≠ some c ∨
      o = some (.nothing (p + 1)) ∧ rest text p = c :: rest text (p + 1) := by
  cases h with
  | literal hprefix =>
      right
      rw [hl] at hprefix
      obtain ⟨s, hs⟩ := hprefix
      have hrest : rest text p = c :: s := hs.symm
      refine ⟨by rw [← String.length_toList, hl]; rfl, ?_⟩
      rw [hrest, (rest_cons hrest).2.1]
  | literal_fail hprefix =>
      left
      refine ⟨rfl, fun hhead => hprefix ?_⟩
      rw [hl]
      cases hrest : rest text p with
      | nil =>
          rw [hrest] at hhead
          cases hhead
      | cons d s =>
          rw [hrest] at hhead
          cases hhead
          exact ⟨s, hrest.symm⟩

namespace IsSign

/-- A sign finds itself. -/
theorem found (hsign : IsSign g id c) (h : PegAt g text id p o) :
    o = none ∧ (rest text p).head? ≠ some c ∨
      o = some (.nothing (p + 1)) ∧ rest text p = c :: rest text (p + 1) := by
  obtain ⟨hws, e, l, htoken, hshape, hl⟩ := hsign
  obtain ⟨s, hs, hpeg⟩ := of_token hws htoken h
  cases hshape.symm.trans hs
  exact literal_found hl hpeg

theorem missed (hsign : IsSign g id c) (h : PegAt g text id p none) :
    (rest text p).head? ≠ some c := by
  rcases hsign.found h with ⟨-, hhead⟩ | ⟨hsome, -⟩
  · exact hhead
  · cases hsome

theorem met (hsign : IsSign g id c) (h : PegAt g text id p (some f)) :
    f = .nothing (p + 1) ∧ rest text p = c :: rest text (p + 1) := by
  rcases hsign.found h with ⟨hnone, -⟩ | ⟨hsome, hrest⟩
  · cases hnone
  · exact ⟨Option.some.inj hsome, hrest⟩

end IsSign

theorem digit_found (h : Peg g text (.range '0' '9') p o) :
    o = none ∧ (rest text p).head?.any isDigit = false ∨
      o = some (.nothing (p + 1)) ∧
        ∃ c, isDigit c = true ∧ rest text p = c :: rest text (p + 1) := by
  cases h with
  | @range _ _ c _ hc hlo hhi =>
      refine Or.inr ⟨rfl, c, ?_, Text.drop_of_at?_some hc⟩
      simp [isDigit, hlo, hhi]
  | range_fail hno =>
      refine Or.inl ⟨rfl, ?_⟩
      cases hrest : rest text p with
      | nil => rfl
      | cons c s =>
          have hout := hno c (rest_cons hrest).2.2
          simpa [isDigit] using hout

/-- Digits are found up to the first character that is none. -/
theorem digits_found {e : ExprId} (he : g.shape? e = some (.range '0' '9'))
    (h : Peg g text (.zeroMore e) p o) (hp : p ≤ text.length) :
    ∃ stop, o = some (.nothing stop) ∧ p ≤ stop ∧ stop ≤ text.length ∧
      rest text stop = (rest text p).dropWhile isDigit := by
  generalize hs : Shape.zeroMore e = s at h
  induction h with
  | @zeroMore_end _ s p he' hpeg =>
      cases hs
      cases he.symm.trans he'
      rcases digit_found hpeg with ⟨-, hno⟩ | ⟨hsome, -⟩
      · refine ⟨p, rfl, le_rfl, hp, ?_⟩
        cases hrest : rest text p with
        | nil => rfl
        | cons c s =>
            rw [hrest] at hno
            exact (List.dropWhile_cons_of_neg (by simpa using hno)).symm
      · cases hsome
  | zeroMore_next he' hpeg _ _ ih =>
      cases hs
      cases he.symm.trans he'
      rcases digit_found hpeg with ⟨hnone, -⟩ | ⟨hsome, c, hdigit, hrest⟩
      · cases hnone
      · cases hsome
        have hlt := (rest_cons hrest).1
        obtain ⟨stop, hstop, hforward, hend, hleft⟩ := ih hlt rfl
        cases hstop
        refine ⟨stop, rfl, (Nat.le_succ _).trans hforward, hend, ?_⟩
        rw [hleft, hrest, List.dropWhile_cons_of_pos hdigit]
        rfl
  | _ => cases hs

/-- One digit or more are found up to the first character that is none. -/
theorem run_found {e : ExprId} (he : g.shape? e = some (.range '0' '9'))
    (h : Peg g text (.oneMore e) p o) :
    left text o = afterNumber (rest text p) ∧
      ∀ f, o = some f → f.Within text p false ∧ f.nodes = [] := by
  cases h with
  | oneMore_fail he' hdigit =>
      cases he.symm.trans he'
      rcases digit_found hdigit with ⟨-, hno⟩ | ⟨hsome, -⟩
      · refine ⟨?_, by rintro f ⟨⟩⟩
        rw [afterNumber, hno]
        rfl
      · cases hsome
  | oneMore he' hdigit hmore =>
      cases he.symm.trans he'
      rcases digit_found hdigit with ⟨hnone, -⟩ | ⟨hsome, c, hc, hrest⟩
      · cases hnone
      · cases hsome
        have hlt := (rest_cons hrest).1
        obtain ⟨stop, hstop, hforward, hend, hleft⟩ := digits_found he hmore hlt
        cases hstop
        have hmoved : p < stop := hforward
        refine ⟨?_, ?_⟩
        · rw [afterNumber, hrest, List.dropWhile_cons_of_pos hc,
            if_pos (show (c :: _).head?.any isDigit = true from hc)]
          exact congrArg some hleft
        · rintro f ⟨⟩
          exact ⟨⟨hmoved.le, hend, fun heq => absurd heq hmoved.ne'⟩, rfl⟩

/-- The token of numbers finds the longest number, as a leaf. -/
theorem IsNumber.found (hnumber : IsNumber g id) (h : PegAt g text id p o) :
    left text o = afterNumber (rest text p) ∧
      ∀ f, o = some f → f.Within text p false ∧ f.nodes = [numberLeaf text p f.stop] := by
  obtain ⟨hws, captured, digits, digit, htoken, hcaptured, hdigits, hdigit⟩ := hnumber
  obtain ⟨s, hs, hpeg⟩ := of_token hws htoken h
  cases hcaptured.symm.trans hs
  cases hpeg with
  | @capture _ _ _ o' _ ht hpeg =>
      cases hdigits.symm.trans ht
      obtain ⟨hleft, hfound⟩ := run_found hdigit hpeg
      refine ⟨?_, ?_⟩
      · rw [← hleft]
        cases o' <;> rfl
      · intro f hf
        obtain ⟨f', rfl, rfl⟩ := Option.map_eq_some_iff.mp hf
        obtain ⟨hwithin, hnodes⟩ := hfound f' rfl
        refine ⟨hwithin.withNodes _, ?_⟩
        show (CaptureMode.text "num").close text p f' = _
        rw [CaptureMode.close, hnodes]
        rfl

end Packrat.Sums
