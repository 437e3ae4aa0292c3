import Packrat.Proofs.UpTo

/-! # Limits only abort

    A match does the same with more nesting and more steps allowed, unless a limit aborts it: a limit
    shows in a fault and nowhere else.  So a program *extends* another if it gives all the answers
    that the other gives and leaves the same machine. -/

namespace Packrat

/-- Whether a limit of the configuration was met. -/
def Fault.isLimit : Fault → Bool
  | .engine (.recursionLimit _ _) | .engine (.stepLimit _ _) => true
  | _ => false

namespace Matching

variable {α : Type}

/-- Whenever `x` answers, `y` gives the same answer and leaves the same machine. -/
def Extends (x y : Matching α) : Prop :=
  ∀ m a m', x m = .ok a m' → y m = .ok a m'

/-- Where `x` does not do the same as `y`, it is aborted at a limit. -/
abbrev UpToLimits : ∀ ⦃α : Type⦄, Matching α → Matching α → Prop :=
  UpTo fun e _ => e.isLimit = true

/-- A program that is the same up to limits answers whatever the other one answers. -/
theorem UpToLimits.to_extends {x y : Matching α} (h : UpToLimits x y) : Extends x y := by
  intro m a m' hrun
  rcases h m with hsame | ⟨e, m₁, hfault, -⟩
  · exact hsame ▸ hrun
  · cases hrun.symm.trans hfault

end Matching

open Matching

variable {call call' : Caller}

namespace Engine

variable (g : Grammar) (text : Text)

/-- Every number of steps within the first limit is within the second. -/
def StepsWithin (steps steps' : Option Nat) : Prop :=
  ∀ limit', steps' = some limit' → ∃ limit, steps = some limit ∧ limit ≤ limit'

theorem StepsWithin.refl (steps : Option Nat) : StepsWithin steps steps :=
  fun limit h => ⟨limit, h, le_rfl⟩

/-- A count that is within a limit is within a larger one. -/
theorem countStep_upToLimits {c c' : Config} (h : StepsWithin c.maxSteps c'.maxSteps) :
    UpToLimits (countStep ⟨g, text, c⟩) (countStep ⟨g, text, c'⟩) := by
  refine .after _ fun _ => .after _ fun m => ?_
  dsimp only
  cases hc' : c'.maxSteps with
  | none =>
      cases c.maxSteps with
      | none => exact .refl _
      | some limit =>
          dsimp only
          split
          · exact fun m₁ => Or.inr ⟨_, m₁, rfl, rfl⟩
          · exact .refl _
  | some limit' =>
      obtain ⟨limit, hc, hle⟩ := h limit' hc'
      rw [hc]
      dsimp only
      by_cases hbeyond : limit < m.tally.invocations
      · rw [if_pos hbeyond]
        exact fun m₁ => Or.inr ⟨_, m₁, rfl, rfl⟩
      · rw [if_neg hbeyond, if_neg (by omega)]
        exact .refl _

/-- With larger limits a node that answers does so in the same way. -/
theorem attempt_upToLimits (c : Config) (h : ∀ id, UpToLimits (call id) (call' id)) {depth : Nat}
    {steps : Option Nat} (hsteps : StepsWithin c.maxSteps steps) (id : ExprId) :
    UpToLimits (attempt ⟨g, text, c⟩ call id)
      (attempt ⟨g, text, { c with maxDepth := depth, maxSteps := steps }⟩ call' id) :=
  attempt_upTo (fun _ _ _ hlimit => hlimit) g text h (countStep_upToLimits g text hsteps) id

/-- With no nesting left, a match is aborted. -/
theorem invoke_zero (c : Config) (id : ExprId) (m : Machine) :
    ∃ e m', invoke ⟨g, text, c⟩ 0 id m = .error e m' ∧ e.isLimit = true := by
  have hcount : UpToLimits (countStep ⟨g, text, c⟩)
      (countStep ⟨g, text, { c with maxSteps := none }⟩) :=
    countStep_upToLimits g text (by rintro _ ⟨⟩)
  rw [invoke]
  rcases hcount m with hsame | ⟨e, m', hfault, hlimit⟩
  · rw [bind_eq (hsame.trans rfl)]
    exact ⟨_, _, rfl, rfl⟩
  · simp only [Bind.bind, EStateM.bind, hfault]
    exact ⟨e, m', rfl, hlimit⟩

/-- With more nesting and more steps allowed, a match does the same unless a limit aborts it. -/
theorem invoke_upToLimits (c : Config) {nesting nesting' depth : Nat} {steps : Option Nat}
    (hnesting : nesting ≤ nesting') (hsteps : StepsWithin c.maxSteps steps) (id : ExprId) :
    UpToLimits (invoke ⟨g, text, c⟩ nesting id)
      (invoke ⟨g, text, { c with maxDepth := depth, maxSteps := steps }⟩ nesting' id) := by
  induction nesting generalizing nesting' id with
  | zero => exact fun m => Or.inr (invoke_zero g text c id m)
  | succ nesting ih =>
      obtain ⟨more, rfl⟩ : ∃ more, nesting' = more + 1 := ⟨nesting' - 1, by omega⟩
      rw [invoke_succ, invoke_succ]
      exact attempt_upToLimits g text c (fun child => ih (by omega) child) hsteps id

/-- With more nesting and more steps allowed, every answer stays as it is. -/
theorem invoke_extends (c : Config) {nesting nesting' depth : Nat} {steps : Option Nat}
    (hnesting : nesting ≤ nesting') (hsteps : StepsWithin c.maxSteps steps) (id : ExprId) :
    Extends (invoke ⟨g, text, c⟩ nesting id)
      (invoke ⟨g, text, { c with maxDepth := depth, maxSteps := steps }⟩ nesting' id) :=
  (invoke_upToLimits g text c hnesting hsteps id).to_extends

end Engine

end Packrat
