import Mathlib
import Packrat.Proofs.Contract.Invocation
import Packrat.Proofs.Parametric

/-! # Programs that agree up to a fault

    Over a caller that aborts some of its matches, a match does the same as before, unless it is
    aborted with one of them.  So a program agrees with another UP TO faults of a kind if it does the
    same or ends with such a fault.

    On the way out of a fault, clean-ups change the parse state.  The kinds of faults considered are
    those that are still told apart then (`Lasting`). -/

namespace Packrat

namespace Matching

variable {α β : Type} {kind : Fault → Machine → Prop}

/-- Where `x` does not do the same as `y`, it is aborted with a fault of the kind. -/
def UpTo (kind : Fault → Machine → Prop) ⦃α : Type⦄ (x y : Matching α) : Prop :=
  ∀ m, x m = y m ∨ ∃ e m', x m = .error e m' ∧ kind e m'

/-- A change of the parse state does not hide a fault of the kind. -/
def Lasting (kind : Fault → Machine → Prop) : Prop :=
  ∀ e m s, kind e m → kind e (m.withState s)

namespace UpTo

variable {x y : Matching α}

theorem refl (x : Matching α) : UpTo kind x x :=
  fun _ => Or.inl rfl

theorem bind {x y : Matching β} {f g : β → Matching α} (hx : UpTo kind x y)
    (hf : ∀ b, UpTo kind (f b) (g b)) : UpTo kind (x >>= f) (y >>= g) := by
  intro m
  simp only [Bind.bind, EStateM.bind]
  rcases hx m with hsame | ⟨e, m₁, hfault, hkind⟩
  · rw [← hsame]
    cases x m with
    | ok b m₁ => exact hf b m₁
    | error e m₁ => exact Or.inl rfl
  · rw [hfault]
    exact Or.inr ⟨e, m₁, rfl, hkind⟩

/-- Programs that begin alike. -/
theorem after (x : Matching β) {f g : β → Matching α} (hf : ∀ b, UpTo kind (f b) (g b)) :
    UpTo kind (x >>= f) (x >>= g) :=
  (refl x).bind hf

variable (hlasting : Lasting kind)
include hlasting

theorem thenAlways (h : UpTo kind x y) (u : ParseState → ParseState) :
    UpTo kind (Matching.thenAlways x u) (Matching.thenAlways y u) := by
  intro m
  simp only [Matching.thenAlways]
  rcases h m with hsame | ⟨e, m₁, hfault, hkind⟩
  · rw [hsame]
    exact Or.inl rfl
  · rw [hfault]
    exact Or.inr ⟨e, _, rfl, hlasting e m₁ _ hkind⟩

/-- Forms agree up to faults if their callers do. -/
theorem parametric : Parametric (UpTo kind) where
  pure := fun _ => refl _
  throw := fun _ => refl _
  lift := fun _ => refl _
  state := refl _
  onState := fun _ => refl _
  onTally := fun _ _ => refl _
  log := fun _ => refl _
  transition := fun _ _ => refl _
  bind := bind
  thenAlways := thenAlways hlasting

end UpTo

end Matching

open Matching

variable {kind : Fault → Machine → Prop} {call call' : Caller} {c c' : Config}
variable (hlasting : Lasting kind) (g : Grammar) (text : Text)
  (h : ∀ id, UpTo kind (call id) (call' id))
include hlasting h

theorem Programs.custom_upTo (id : ExprId) (spec : Custom) (children : List ExprId) :
    UpTo kind (custom ⟨g, text, c⟩ call id spec children)
      (custom ⟨g, text, c'⟩ call' id spec children) := by
  intro m
  simp only [custom]
  rcases run_parametric g text c c' (UpTo.parametric hlasting) h id children spec.program m with
    hsame | ⟨e, m₁, hfault, hkind⟩
  · rw [hsame]
    exact Or.inl rfl
  · rw [hfault]
    exact Or.inr ⟨e, _, rfl, hlasting e m₁ _ hkind⟩

namespace Engine

/-- The configuration decides nothing in a shape. -/
theorem dispatch_upTo (id : ExprId) (shape : Shape ExprId) :
    UpTo kind (dispatch ⟨g, text, c⟩ call id shape) (dispatch ⟨g, text, c'⟩ call' id shape) :=
  dispatch_parametric (UpTo.parametric hlasting) g text c c' h id shape fun spec children _ =>
    Programs.custom_upTo hlasting g text h id spec children

/-- The configurations of the two matches may differ in the limits. -/
theorem attempt_upTo {depth : Nat} {steps : Option Nat}
    (hcount : UpTo kind (countStep ⟨g, text, c⟩)
      (countStep ⟨g, text, { c with maxDepth := depth, maxSteps := steps }⟩)) (id : ExprId) :
    UpTo kind (attempt ⟨g, text, c⟩ call id)
      (attempt ⟨g, text, { c with maxDepth := depth, maxSteps := steps }⟩ call' id) := by
  refine hcount.bind fun _ => .after _ fun expr => ?_
  have hevaluate : ∀ key, UpTo kind (evaluate ⟨g, text, c⟩ call id expr key)
      (evaluate ⟨g, text, { c with maxDepth := depth, maxSteps := steps }⟩ call' id expr key) := by
    intro key
    exact (dispatch_upTo hlasting g text h id expr.shape).bind fun _ => .refl _
  by_cases hmemoizes : memoizes ⟨g, text, c⟩ expr = true
  · have hmemoizes' :
        memoizes ⟨g, text, { c with maxDepth := depth, maxSteps := steps }⟩ expr = true := hmemoizes
    rw [if_pos hmemoizes, if_pos hmemoizes']
    refine .after _ fun key => .after _ fun answer => ?_
    cases answer with
    | some outcome => exact .refl _
    | none => exact hevaluate (some key)
  · have hmemoizes' :
        ¬ memoizes ⟨g, text, { c with maxDepth := depth, maxSteps := steps }⟩ expr = true := hmemoizes
    rw [if_neg hmemoizes, if_neg hmemoizes']
    exact hevaluate none

end Engine

end Packrat
