import Packrat.Proofs.Sums.Tokens

/-! # Sums of numbers as trees

    Numbers with a plus between two of them, and the leaves that are captured of them (`leaves`).  An
    operation is a node that spans its operands (`plus`), so a sum may be folded from the left or
    from the right (`nestedRight`).

    A token of numbers finds just the number that stands at a position, and a plus with the number
    behind it is found if and only if the sum goes on. -/

namespace Packrat.Sums

/-! ## Trees -/

/-- The leaf of a number that begins at a position. -/
def leaf (p : Nat) (number : String) : CaptureNode :=
  { accessor := some "num", start := p, stop := p + number.length, text := some number }

/-- An operation on two operands. -/
def plus (l r : CaptureNode) : CaptureNode :=
  { accessor := some "+", start := l.start, stop := r.stop, children := [l, r] }

/-- The leaves of numbers of which the first begins at a position and each begins after a sign. -/
def leaves : Nat → List String → List CaptureNode
  | _, [] => []
  | p, number :: rest => leaf p number :: leaves (p + number.length + 1) rest

/-- Operands folded from the right. -/
def nestedRight : CaptureNode → List CaptureNode → CaptureNode
  | l, [] => l
  | l, r :: rest => plus l (nestedRight r rest)

/-- What a match found that captured one node and ended with it. -/
def ofNode (n : CaptureNode) : Found :=
  { stop := n.stop, nodes := [n] }

/-- What was found before and behind a sign, captured as an operation. -/
def operation (text : Text) (p : Nat) (f v : Found) : Found :=
  { f.append v with nodes := (CaptureMode.node "+").close text p (f.append v) }

theorem operation_ofNode (text : Text) (l r : CaptureNode) :
    operation text l.start (ofNode l) (ofNode r) = ofNode (plus l r) := rfl

/-! ## Texts -/

/-- Numbers, each behind a plus. -/
def added : List String → List Char
  | [] => []
  | number :: rest => '+' :: (number.toList ++ added rest)

/-- Numbers are joined by signs. -/
theorem toList_intercalate (first : String) (others : List String) :
    ("+".intercalate (first :: others)).toList = first.toList ++ added others := by
  rw [String.toList_intercalate]
  induction others generalizing first with
  | nil => simp [added]
  | cons second others ih =>
      rw [List.map_cons, List.map_cons, List.intercalate_cons_cons, ← List.map_cons, ih second]
      simp [added]

theorem head?_added (others : List String) : (added others).head?.any isDigit = false := by
  cases others with
  | nil => rfl
  | cons => exact (by decide : isDigit '+' = false)

variable {g : Grammar} {text : Text} {id sign number : ExprId} {p : Nat} {o : Option Found}
variable {d : String} {v : List Char} {others : List String} {n : CaptureNode}

/-- Behind the characters at a position. -/
theorem rest_add {s : List Char} (h : rest text p = s ++ v) : rest text (p + s.length) = v := by
  rw [rest, ← List.drop_drop]
  have hdrop : text.chars.toList.drop p = s ++ v := h
  rw [hdrop, List.drop_left]

/-- Nothing is left at the end of the text alone. -/
theorem eq_length (hp : p ≤ text.length) (h : rest text p = []) : p = text.length := by
  have hlength := congrArg List.length h
  rw [length_rest, List.length_nil] at hlength
  omega

/-- A token of numbers finds the number that stands at a position, up to the next sign. -/
theorem IsNumber.found_leaf (hnumber : IsNumber g number) (hd : Number d.toList)
    (hrest : rest text p = d.toList ++ added others) (h : PegAt g text number p o) :
    o = some (ofNode (leaf p d)) ∧ p + d.length ≤ text.length ∧
      rest text (p + d.length) = added others := by
  obtain ⟨hleft, hfound⟩ := hnumber.found h
  rw [hrest, afterNumber_number hd (head?_added others)] at hleft
  obtain ⟨f, rfl, hstop⟩ := Option.map_eq_some_iff.mp hleft
  obtain ⟨hwithin, hnodes⟩ := hfound f rfl
  have hbehind : rest text (p + d.length) = added others := by
    rw [← String.length_toList]
    exact rest_add hrest
  have hlength := congrArg List.length hrest
  rw [length_rest, List.length_append, String.length_toList] at hlength
  have hend : p + d.length ≤ text.length := by
    have hpos : 0 < d.length := by
      rw [← String.length_toList]
      exact List.length_pos_iff.mpr hd.1
    omega
  have heq : f.stop = p + d.length :=
    rest_injective hwithin.stop hend (hstop.trans hbehind.symm)
  have hslice : text.slice p (p + d.length) = d := by
    refine String.toList_injective ?_
    rw [Text.toList_slice, List.drop_take, Nat.add_sub_cancel_left]
    have hdrop : text.chars.toList.drop p = d.toList ++ added others := hrest
    rw [hdrop, ← String.length_toList, List.take_left]
  refine ⟨?_, hend, hbehind⟩
  obtain ⟨stop, nodes⟩ := f
  dsimp only at heq hnodes
  rw [hnodes, heq, numberLeaf, hslice]
  rfl

/-- A sign and a number move on inside the text. -/
theorem operand_within {c : Char} {f : Found} (hsign : IsSign g sign c) (hnumber : IsNumber g number)
    (h : Each (PegAt g text) [sign, number] p (some f)) : f.Within text p false := by
  generalize ho : some f = o at h
  cases h with
  | fail => cases ho
  | next hsome htail =>
      obtain ⟨rfl, hplus⟩ := hsign.met hsome
      have hmoved : (Found.nothing (p + 1)).Within text p false :=
        ⟨Nat.le_succ p, (rest_cons hplus).1, fun heq => absurd heq (Nat.succ_ne_self p)⟩
      cases htail with
      | fail => cases ho
      | next hsome hnil =>
          cases hnil
          cases ho
          have hwithin := ((hnumber.found hsome).2 _ rfl).1
          exact hmoved.append ⟨hwithin.forward, hwithin.stop, hwithin.nullable⟩

/-- A plus and a number are found if the sum goes on. -/
theorem operand_found (hsign : IsSign g sign '+') (hnumber : IsNumber g number)
    (hd : Number d.toList) (hrest : rest text p = added (d :: others))
    (h : Each (PegAt g text) [sign, number] p o) :
    o = some (ofNode (leaf (p + 1) d)) ∧ p + 1 + d.length ≤ text.length ∧
      rest text (p + 1 + d.length) = added others := by
  have hnext : rest text (p + 1) = d.toList ++ added others := (rest_cons hrest).2.1
  cases h with
  | fail _ hnone => exact absurd (by rw [hrest]; rfl) (hsign.missed hnone)
  | next hsome htail =>
      obtain ⟨rfl, -⟩ := hsign.met hsome
      cases htail with
      | fail _ hnone =>
          obtain ⟨hfound, -⟩ := hnumber.found_leaf hd hnext hnone
          cases hfound
      | next hsome hnil =>
          obtain ⟨hfound, hend, hbehind⟩ := hnumber.found_leaf hd hnext hsome
          cases hfound
          cases hnil
          exact ⟨rfl, hend, hbehind⟩

/-- No plus is found at the end of a sum. -/
theorem operand_missed (hsign : IsSign g sign '+') (hrest : rest text p = [])
    (h : Each (PegAt g text) [sign, number] p o) : o = none := by
  cases h with
  | fail => rfl
  | next hsome =>
      obtain ⟨-, hplus⟩ := hsign.met hsome
      cases hrest.symm.trans hplus

end Packrat.Sums
