import Packrat.Engine.Combinators
import Packrat.Proofs.MemoEntries
import Packrat.Proofs.Twins

/-! # The contract of a match, for the plain forms

    A match begins in a settled state.  If it fails the state is as it was, if it succeeds the
    state holds what it did, with the commit points in place, and the scope is the same on every
    way out.  A form keeps this contract if its children do.

    The forms run between two kinds of states: settled ones, where a child may be matched, and
    states grown from the one where the form began, from which its snapshot leads back.  What is
    left of each proof is which of the ways back (`Grown.restore`, `Grown.uncommit`,
    `Kept.discard`) the form takes.

    The memo table enters through one clause: a predicate that matched is remembered with changes
    that do nothing (`PredicatesIdle`). -/

namespace Packrat

open Matching

/-- Whether the expression at `id` is a predicate, which never keeps anything. -/
def Grammar.IsPredicate (g : Grammar) (id : ExprId) : Prop :=
  ∃ operand, g.shape? id = some (.lookahead operand) ∨ g.shape? id = some (.not operand)

/-- A predicate that matched is remembered with changes that do nothing. -/
def PredicatesIdle (g : Grammar) (memo : Table Fingerprint (Option Changes)) : Prop :=
  ∀ key c, memo.Holds key (some c) → g.IsPredicate key.expr → c.Idle key.position

/-- What a machine must satisfy for an expression to be matched. -/
structure Ready (g : Grammar) (m : Machine) : Prop where
  settled : m.state.Settled
  canonical : m.state.scope.Canonical
  memo : PredicatesIdle g m.memo

/-- What a match may do to a parse state. -/
def Answers (s : ParseState) (matched : Bool) (t : ParseState) : Prop :=
  if matched then s.Kept t else t = s

/-- What a form that was matched from `m` leaves. -/
def Left (g : Grammar) (m : Machine) (matched : Bool) (m' : Machine) : Prop :=
  PredicatesIdle g m'.memo ∧ Answers m.state matched m'.state

/-- Both callers keep the contract, and they agree wherever an expression may be matched. -/
def Obeys (g : Grammar) (call call' : Caller) : Prop :=
  ∀ id m, Ready g m → Twins m (· = m.state.scope) (call id) (call' id) (Left g m)

variable {g : Grammar} {call call' : Caller} {m m₁ : Machine} {s : ParseState}

/-- Whatever the answer, the state has only grown. -/
theorem Answers.grown {t : ParseState} {b : Bool} (h : Answers s b t) : s.Grown t := by
  cases b with
  | true => exact ParseState.Kept.grown h
  | false =>
      have heq : t = s := h
      rw [heq]
      exact .refl s

/-- What a node leaves is told from the state it started in, and not from what was counted. -/
theorem Left.of_state_eq {b : Bool} {m' : Machine} (h : Left g m₁ b m')
    (heq : m₁.state = m.state) : Left g m b m' := by
  unfold Left at h ⊢
  rw [← heq]
  exact h

/-- After a commit the machine is ready again, as long as the scope is canonical. -/
theorem ready_commit (hmemo : PredicatesIdle g m.memo) (hscope : m.state.scope.Canonical)
    (hfit : m.state.countersFit) : Ready g (m.withState m.state.commit) :=
  ⟨ParseState.settled_commit hfit, hscope, hmemo⟩

/-- A machine with the state of a ready one is ready if its memo table is in order. -/
theorem Ready.of_state_eq (h : Ready g m) (hmemo : PredicatesIdle g m₁.memo)
    (heq : m₁.state = m.state) : Ready g m₁ := by
  refine ⟨?_, ?_, hmemo⟩
  · rw [heq]
    exact h.settled
  · rw [heq]
    exact h.canonical

/-- Another canonical scope keeps a machine ready. -/
theorem Ready.withScope (h : Ready g m) {c : Scope} (hc : c.Canonical) :
    Ready g (m.withState (m.state.withScope c)) :=
  ⟨h.settled.withScope c, hc, h.memo⟩

/-- A caller that agrees on ready machines keeps the contract beside the other. -/
theorem Obeys.of_agree (hcall : Obeys g call call)
    (hagree : ∀ i n, Ready g n → call' i n = call i n) : Obeys g call call' := by
  intro i n hready
  have h := hcall i n hready
  exact ⟨hagree i n hready, h.answer, h.fault⟩

/-- A child matched in a state grown from `s`. -/
theorem Obeys.call_grown (hcall : Obeys g call call') (hready : Ready g m)
    (hgrown : s.Grown m.state) (id : ExprId) :
    Twins m (· = s.scope) (call id) (call' id) (Left g m) := by
  refine (hcall id m hready).imp_fault ?_
  intro c hc
  exact hc.trans hgrown.scope

/-- A child matched in another scope, which a clean-up puts back. -/
theorem Obeys.call_scoped (hcall : Obeys g call call') (hready : Ready g m) {c : Scope}
    (hc : c.Canonical) {u : ParseState → ParseState}
    (hu : ∀ t : ParseState, t.scope = c → u t = t.withScope m.state.scope) (id : ExprId) :
    Twins (m.withState (m.state.withScope c)) (· = m.state.scope) (thenAlways (call id) u)
      (thenAlways (call' id) u) (Left g m) := by
  refine (hcall id _ (hready.withScope hc)).thenAlways ?_ ?_
  · rintro matched m₁ ⟨hmemo, hanswer⟩
    refine ⟨hmemo, ?_⟩
    cases matched with
    | false =>
        have heq : m₁.state = m.state.withScope c := hanswer
        show u m₁.state = m.state
        rw [heq, hu (m.state.withScope c) rfl]
        rfl
    | true =>
        have hkept : (m.state.withScope c).Kept m₁.state := hanswer
        show m.state.Kept (u m₁.state)
        rw [hu m₁.state hkept.scope]
        exact hkept.withScope
  · intro t ht
    rw [hu t ht]
    rfl

namespace Combinators

/-! ## Consuming forms -/

/-- A terminal moves on if it matches, and leaves nothing pending. -/
theorem terminal_left (hready : Ready g m) (stop : Option Nat) :
    Twins m (· = m.state.scope) (terminal stop) (terminal stop) (Left g m) := by
  cases stop with
  | none => exact Twins.pure ⟨hready.memo, rfl⟩
  | some stop =>
      refine Twins.onState_bind (Twins.pure ⟨hready.memo, ?_⟩)
      exact (ParseState.Kept.refl m.state).moveTo stop

/-- Items matched one after the other only add to the state where the first began. -/
theorem matchAll_grown (hcall : Obeys g call call') (items : List ExprId)
    (hready : Ready g m) (hgrown : s.Grown m.state) :
    Twins m (· = s.scope) (matchAll call items) (matchAll call' items)
      fun _ m' => PredicatesIdle g m'.memo ∧ s.Grown m'.state := by
  induction items generalizing m with
  | nil => exact Twins.pure ⟨hready.memo, hgrown⟩
  | cons item rest ih =>
      refine (hcall.call_grown hready hgrown item).bind ?_
      rintro matched m₁ ⟨hmemo, hanswer⟩
      have hgrown₁ : s.Grown m₁.state := hgrown.trans hanswer.grown
      cases matched with
      | false => exact Twins.pure ⟨hmemo, hgrown₁⟩
      | true =>
          refine Twins.commit_bind hgrown₁.scope ?_
          intro hfit
          have hcanonical : m₁.state.scope.Canonical := hanswer.grown.scope ▸ hready.canonical
          exact ih (ready_commit hmemo hcanonical hfit) (hgrown₁.commit hfit)

/-- A sequence commits after each item and uncommits or goes back at its end. -/
theorem sequence_left (hcall : Obeys g call call') (items : List ExprId) (hready : Ready g m) :
    Twins m (· = m.state.scope) (sequence call items) (sequence call' items) (Left g m) := by
  refine Twins.state_bind ?_
  refine (matchAll_grown hcall items hready (.refl m.state)).bind ?_
  rintro matched m₁ ⟨hmemo, hgrown⟩
  cases matched with
  | true =>
      refine Twins.uncommit_bind hgrown.scope ?_
      intro hfit
      exact Twins.pure ⟨hmemo, hgrown.uncommit hfit⟩
  | false => exact Twins.onState_bind (Twins.pure ⟨hmemo, hgrown.restore⟩)

/-- An alternative that fails leaves the start as it was, so the next one begins there too. -/
theorem choice_left (hcall : Obeys g call call') (items : List ExprId) (hready : Ready g m) :
    Twins m (· = m.state.scope) (choice call items) (choice call' items) (Left g m) := by
  induction items generalizing m with
  | nil => exact Twins.pure ⟨hready.memo, rfl⟩
  | cons item rest ih =>
      refine (hcall item m hready).bind ?_
      rintro matched m₁ hleft
      cases matched with
      | true => exact Twins.pure hleft
      | false =>
          have heq : m₁.state = m.state := hleft.2
          refine ((ih (hready.of_state_eq hleft.1 heq)).imp ?_).imp_fault ?_
          · intro b m' h
            exact h.of_state_eq heq
          · intro c hc
            rw [← heq]
            exact hc

/-- An option that fails stays where it started. -/
theorem optional_left (hcall : Obeys g call call') (operand : ExprId) (hready : Ready g m) :
    Twins m (· = m.state.scope) (optional call operand) (optional call' operand) (Left g m) := by
  refine (hcall operand m hready).bind ?_
  rintro matched m₁ ⟨hmemo, hanswer⟩
  refine Twins.pure ⟨hmemo, ?_⟩
  cases matched with
  | true => exact hanswer
  | false =>
      have heq : m₁.state = m.state := hanswer
      rw [heq]
      exact ParseState.Kept.refl m.state

/-- A repetition only adds to the state where it began. -/
theorem matchMany_grown (hcall : Obeys g call call') (operand : ExprId) (rounds count : Nat)
    (hready : Ready g m) (hgrown : s.Grown m.state) :
    Twins m (· = s.scope) (matchMany call operand rounds count)
      (matchMany call' operand rounds count)
      fun _ m' => PredicatesIdle g m'.memo ∧ s.Grown m'.state := by
  induction rounds generalizing m count with
  | zero => exact Twins.pure ⟨hready.memo, hgrown⟩
  | succ rounds ih =>
      refine Twins.state_bind ?_
      refine (hcall.call_grown hready hgrown operand).bind ?_
      rintro matched m₁ ⟨hmemo, hanswer⟩
      have hgrown₁ : s.Grown m₁.state := hgrown.trans hanswer.grown
      cases matched with
      | false => exact Twins.pure ⟨hmemo, hgrown₁⟩
      | true =>
          have hkept : m.state.Kept m₁.state := hanswer
          refine Twins.state_bind ?_
          by_cases hstay : m₁.state.stop = m.state.stop
          · -- a match that stays in place is dropped, which leads back to where it began
            simp only [if_pos hstay]
            refine Twins.onState_bind (Twins.pure ⟨hmemo, ?_⟩)
            show s.Grown m₁.state.discard
            rw [hkept.discard hready.settled]
            exact hgrown
          · simp only [if_neg hstay]
            refine Twins.commit_bind hgrown₁.scope ?_
            intro hfit
            have hcanonical : m₁.state.scope.Canonical := hanswer.grown.scope ▸ hready.canonical
            exact ih (count + 1) (ready_commit hmemo hcanonical hfit) (hgrown₁.commit hfit)

/-- A repetition with too few rounds goes back to its start. -/
theorem repetition_left (hcall : Obeys g call call') (text : Text) (least : Nat)
    (operand : ExprId) (hready : Ready g m) :
    Twins m (· = m.state.scope) (repetition call text least operand)
      (repetition call' text least operand) (Left g m) := by
  refine Twins.state_bind ?_
  refine (matchMany_grown hcall operand _ 0 hready (.refl m.state)).bind ?_
  rintro count m₁ ⟨hmemo, hgrown⟩
  by_cases hfew : count < least
  · simp only [if_pos hfew]
    exact Twins.onState_bind (Twins.pure ⟨hmemo, hgrown.restore⟩)
  · simp only [if_neg hfew]
    refine Twins.uncommit_bind hgrown.scope ?_
    intro hfit
    exact Twins.pure ⟨hmemo, hgrown.uncommit hfit⟩

/-! ## Predicates -/

/-- A predicate leaves the state as it was, whether or not it matches. -/
def Unchanged (g : Grammar) (m : Machine) (_ : Bool) (m' : Machine) : Prop :=
  PredicatesIdle g m'.memo ∧ m'.state = m.state

/-- A predicate that leaves everything as it was keeps the contract. -/
theorem Unchanged.left {b : Bool} (h : Unchanged g m b m₁) : Left g m b m₁ := by
  refine ⟨h.1, ?_⟩
  rw [h.2]
  cases b with
  | true => exact ParseState.Kept.refl m.state
  | false => rfl

/-- A lookahead discards what its operand did. -/
theorem lookahead_unchanged (hcall : Obeys g call call') (operand : ExprId)
    (hready : Ready g m) :
    Twins m (· = m.state.scope) (lookahead call operand) (lookahead call' operand)
      (Unchanged g m) := by
  refine (hcall operand m hready).bind ?_
  rintro matched m₁ ⟨hmemo, hanswer⟩
  cases matched with
  | false => exact Twins.pure ⟨hmemo, hanswer⟩
  | true =>
      have hkept : m.state.Kept m₁.state := hanswer
      exact Twins.onState_bind (Twins.pure ⟨hmemo, hkept.discard hready.settled⟩)

/-- So does a negation, which turns recording on again besides. -/
theorem negation_unchanged (hcall : Obeys g call call') (operand : ExprId)
    (hready : Ready g m) :
    Twins m (· = m.state.scope) (negation call operand) (negation call' operand)
      (Unchanged g m) := by
  -- the operand runs in the same state with recording off
  let c : Scope := { m.state.scope with recording := false }
  have hc : c.Canonical := ⟨hready.canonical.seeds, hready.canonical.floors⟩
  have hback : ∀ t : ParseState, t.scope = c →
      ({ t with recording := m.state.recording } : ParseState) = t.withScope m.state.scope := by
    intro t ht
    obtain ⟨hseeds, hfloors, -⟩ := ParseState.eq_of_scope (s := m.state.withScope c) ht
    exact ParseState.eq_withScope t hseeds hfloors rfl
  refine Twins.state_bind (Twins.onState_bind ?_)
  refine (hcall.call_scoped hready hc hback operand).bind ?_
  rintro matched m₁ ⟨hmemo, hanswer⟩
  cases matched with
  | false => exact Twins.pure ⟨hmemo, hanswer⟩
  | true =>
      have hkept : m.state.Kept m₁.state := hanswer
      exact Twins.onState_bind (Twins.pure ⟨hmemo, hkept.discard hready.settled⟩)

/-! ## Decorations -/

/-- A token moves on over the blanks behind its operand. -/
theorem token_left (hcall : Obeys g call call') (setting : Setting) (operand : ExprId)
    (hready : Ready g m) :
    Twins m (· = m.state.scope) (token call setting operand) (token call' setting operand)
      (Left g m) := by
  refine (hcall operand m hready).bind ?_
  rintro matched m₁ ⟨hmemo, hanswer⟩
  cases matched with
  | false => exact Twins.pure ⟨hmemo, hanswer⟩
  | true =>
      have hkept : m.state.Kept m₁.state := hanswer
      cases hws : setting.grammar.whitespace with
      | none =>
          simp only [if_true]
          exact Twins.pure ⟨hmemo, hkept⟩
      | some whitespace =>
          simp only [if_true]
          refine Twins.state_bind (Twins.lift_bind hkept.scope ?_)
          rintro stop -
          cases stop with
          | none => exact Twins.pure ⟨hmemo, hkept⟩
          | some stop => exact Twins.onState_bind (Twins.pure ⟨hmemo, hkept.moveTo stop⟩)

/-- A capture closes over the nodes that its operand added. -/
theorem capture_left (hcall : Obeys g call call') (text : Text) (operand : ExprId)
    (mode : CaptureMode) (hready : Ready g m) :
    Twins m (· = m.state.scope) (capture call text operand mode)
      (capture call' text operand mode) (Left g m) := by
  refine Twins.state_bind ?_
  refine (hcall operand m hready).bind ?_
  rintro matched m₁ ⟨hmemo, hanswer⟩
  cases matched with
  | false => exact Twins.pure ⟨hmemo, hanswer⟩
  | true =>
      have hkept : m.state.Kept m₁.state := hanswer
      refine Twins.state_bind (Twins.onState_bind (Twins.pure ⟨hmemo, ?_⟩))
      exact hkept.close mode _ _ _

end Combinators

end Packrat
