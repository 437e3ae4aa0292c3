import Mathlib
import Packrat.Proofs.Protocol.Bounds
import Packrat.Proofs.StepLimits

/-! # One or more is one and then zero or more

    `oneMore e` runs the same loop as `zeroMore e`, and fails unless the loop counted.  The loop does
    not count a match that stays in place, and drops what it did.  So `oneMore e` does what
    `sequence [e, zeroMore e]` does, with ONE exception: where `e` matches in place, the sequence
    matches and `oneMore e` fails.

    The two runs do not begin their loops alike.  The sequence is a match deeper and has counted that
    match, its loop begins after the first match of `e`, with rounds for the text that is left from
    there, and it commits twice.  Counters do not matter as long as nothing is memoized and no step
    limit is met (`ByState`), the rounds suffice because matches end in the text, and where the commit
    point was in between does not show once it is moved back (`uncommit_commit`). -/

namespace Packrat

open Matching Engine

/-! ## Commit points -/

/-- A commit point that is moved back, taken over and moved back again is where it was meant to be. -/
theorem Slot.uncommit_commit {x y z w w' : Slot} {first second : SlotMark}
    (hy : x.uncommit? second = some y) (hz : y.commit? = some z) (hw : z.uncommit? first = some w)
    (hw' : x.uncommit? first = some w') : w = w' := by
  cases x with
  | names quiet committed entries =>
      cases second with
      | counter => cases hy
      | names =>
          cases hy
          cases hz
          cases first with
          | counter => cases hw
          | names =>
              cases hw
              cases hw'
              rfl
  | counter committed pending =>
      cases second with
      | names => cases hy
      | counter later =>
          cases first with
          | names => cases hw'
          | counter earlier =>
              simp only [uncommit?, Option.ite_none_right_eq_some, Option.some.injEq] at hy hw'
              obtain ⟨⟨hlater, -⟩, rfl⟩ := hy
              simp only [commit?, Option.ite_none_right_eq_some, Option.some.injEq] at hz
              obtain ⟨-, rfl⟩ := hz
              simp only [uncommit?, Option.ite_none_right_eq_some, Option.some.injEq] at hw
              rw [← hw.2, ← hw'.2]
              have hsame : 0 + (later + (pending + (committed - later)) - earlier) =
                  pending + (committed - earlier) := by omega
              rw [hsame]

theorem Slots.uncommit_commit {a c t : List Slot} (hat : List.Forall₂ Slot.Grown a t)
    (hct : List.Forall₂ Slot.Grown c t)
    (hback : marksFit Slot.uncommit? t (c.map Slot.mark) = true)
    (hfit : fit (uncommit t (c.map Slot.mark)) = true)
    (hagain : marksFit Slot.uncommit? (commit (uncommit t (c.map Slot.mark))) (a.map Slot.mark) = true)
    (honce : marksFit Slot.uncommit? t (a.map Slot.mark) = true) :
    uncommit (commit (uncommit t (c.map Slot.mark))) (a.map Slot.mark) =
      uncommit t (a.map Slot.mark) := by
  induction hat generalizing c with
  | nil =>
      cases hct
      rfl
  | @cons x u as ts _ _ ih =>
      cases hct with
      | @cons v _ cs _ _ hcs =>
          simp only [List.map_cons, marksFit, Bool.and_eq_true, Option.isSome_iff_exists]
            at hback honce
          obtain ⟨⟨y, hy⟩, hback⟩ := hback
          obtain ⟨⟨w', hw'⟩, honce⟩ := honce
          simp only [List.map_cons, uncommit, withMarks, hy, fit, List.all_cons,
            Bool.and_eq_true] at hfit hagain ⊢
          obtain ⟨z, hz⟩ := Slot.isSome_commit? hfit.1
          simp only [commit, hz, marksFit, Bool.and_eq_true, Option.isSome_iff_exists,
            withMarks, hw'] at hagain ⊢
          obtain ⟨⟨w, hw⟩, hagain⟩ := hagain
          simp only [hw, List.cons.injEq]
          exact ⟨Slot.uncommit_commit hy hz hw hw', ih hcs hback hfit.2 hagain honce⟩

/-- Where the commit point was in between does not show once it is moved back. -/
theorem ParseState.uncommit_commit {s c t : ParseState} (hst : s.Grown t) (hct : c.Grown t)
    (hback : t.canUncommit c.snapshot = true) (hfit : (t.uncommit c.snapshot).countersFit = true)
    (hagain : (t.uncommit c.snapshot).commit.canUncommit s.snapshot = true)
    (honce : t.canUncommit s.snapshot = true) :
    ((t.uncommit c.snapshot).commit).uncommit s.snapshot = t.uncommit s.snapshot := by
  have hslots : Slots.uncommit (Slots.commit (Slots.uncommit t.slots c.snapshot.slots))
      s.snapshot.slots = Slots.uncommit t.slots s.snapshot.slots :=
    Slots.uncommit_commit hst.slots hct.slots hback hfit hagain honce
  simp only [uncommit, commit] at hslots ⊢
  rw [hslots]
  rfl

/-! ## Programs that go by the parse state -/

namespace Matching

/-- Two runs came to the same, and left the same parse state. -/
inductive SameEnd {α : Type} :
    EStateM.Result Fault Machine α → EStateM.Result Fault Machine α → Prop where
  | ok (a : α) {m m' : Machine} : m'.state = m.state → SameEnd (.ok a m) (.ok a m')
  | error (e : Fault) {m m' : Machine} : m'.state = m.state → SameEnd (.error e m) (.error e m')

namespace SameEnd

variable {α : Type} {a : α} {m : Machine} {r r' r'' : EStateM.Result Fault Machine α}

theorem symm (h : SameEnd r r') : SameEnd r' r := by
  cases h with
  | ok a hstate => exact .ok a hstate.symm
  | error e hstate => exact .error e hstate.symm

theorem trans (h : SameEnd r r') (h' : SameEnd r' r'') : SameEnd r r'' := by
  cases h with
  | ok a hstate =>
      cases h' with
      | ok _ hstate' => exact .ok a (hstate'.trans hstate)
  | error e hstate =>
      cases h' with
      | error _ hstate' => exact .error e (hstate'.trans hstate)

theorem of_ok (h : SameEnd (.ok a m) r) : ∃ m', r = .ok a m' ∧ m'.state = m.state := by
  cases h with
  | ok _ hstate => exact ⟨_, rfl, hstate⟩

end SameEnd

/-- Run from machines in one parse state, `x` and `y` come to the same. -/
def ByState ⦃α : Type⦄ (x y : Matching α) : Prop :=
  ∀ m m', m'.state = m.state → SameEnd (x m) (y m')

namespace ByState

variable {α β : Type}

theorem bind {x y : Matching β} {f f' : β → Matching α} (hx : ByState x y)
    (hf : ∀ b, ByState (f b) (f' b)) : ByState (x >>= f) (y >>= f') := by
  intro m m' hm
  have hfirst := hx m m' hm
  simp only [Bind.bind, EStateM.bind]
  generalize x m = r at hfirst ⊢
  generalize y m' = r' at hfirst ⊢
  cases hfirst with
  | ok b hstate => exact hf b _ _ hstate
  | error e hstate => exact .error e hstate

theorem thenAlways {x y : Matching α} (h : ByState x y) (u : ParseState → ParseState) :
    ByState (thenAlways x u) (thenAlways y u) := by
  intro m m' hm
  have hfirst := h m m' hm
  simp only [Matching.thenAlways]
  generalize x m = r at hfirst ⊢
  generalize y m' = r' at hfirst ⊢
  cases hfirst with
  | ok a hstate => exact .ok a (congrArg u hstate)
  | error e hstate => exact .error e (congrArg u hstate)

/-- Forms go by the parse state if their callers do. -/
theorem parametric : Parametric ByState where
  pure := fun a _ _ hm => .ok a hm
  throw := fun e _ _ hm => .error e hm
  lift := fun v _ _ hm => by
    cases v with
    | ok a => exact .ok a hm
    | error e => exact .error e hm
  state := fun m m' hm => by
    have hread : state m' = .ok m.state m' := by rw [← hm]; rfl
    rw [hread]
    exact .ok m.state hm
  onState := fun u _ _ hm => .ok () (congrArg u hm)
  onTally := fun _ _ _ _ hm => .ok () hm
  log := fun _ _ _ hm => .ok () hm
  transition := fun allowed u m m' hm => by
    rw [transition, transition, hm]
    split
    · exact .ok () rfl
    · exact .error _ rfl
  bind := bind
  thenAlways := thenAlways

end ByState

end Matching

variable {g : Grammar} {text : Text} {c : Config} {call call' : Caller} {id operand : ExprId}
variable {m m' : Machine} {b : Bool} {expr : Expr} {shape : Shape ExprId}

theorem Programs.custom_byState (h : ∀ id, ByState (call id) (call' id)) (id : ExprId)
    (spec : Custom) (children : List ExprId) :
    ByState (custom ⟨g, text, c⟩ call id spec children)
      (custom ⟨g, text, c⟩ call' id spec children) := by
  have hprogram := run_parametric g text c c ByState.parametric h id children spec.program
  intro m m' hm
  have hends := hprogram m m' hm
  simp only [custom, hm]
  generalize run ⟨g, text, c⟩ call id children spec.program m = r at hends ⊢
  generalize run ⟨g, text, c⟩ call' id children spec.program m' = r' at hends ⊢
  cases hends with
  | ok matched hstate =>
      cases matched with
      | true =>
          exact (ByState.bind (ByState.parametric.transition _ _) fun _ =>
            ByState.parametric.pure true) _ _ hstate
      | false => exact .ok false (congrArg (·.restore m.state.snapshot) hstate)
  | error e hstate => exact .error e (congrArg (·.restore m.state.snapshot) hstate)

namespace Engine

/-- Without a step limit, counting a match is all that is done. -/
theorem countStep_free (hsteps : c.maxSteps = none) (m : Machine) :
    countStep ⟨g, text, c⟩ m = .ok () m.counted := by
  simp only [countStep, hsteps]
  rfl

theorem recordFailure_state (setting : Setting) (id : ExprId) (expr : Expr) (m : Machine) :
    ∃ m', recordFailure setting id expr m = .ok () m' ∧ m'.state = m.state := by
  show ∃ m', (if m.state.recording && expr.flags.recordErrors then _ else _ : Matching Unit) m
    = .ok () m' ∧ _
  split
  · split <;> exact ⟨_, rfl, rfl⟩
  · exact ⟨_, rfl, rfl⟩

/-- What follows the shape of an expression that is not memoized leaves the parse state alone. -/
theorem evaluate_state (setting : Setting) (call : Caller) (id : ExprId) (expr : Expr)
    (m : Machine) :
    SameEnd (dispatch setting call id expr.shape m) (evaluate setting call id expr none m) := by
  simp only [evaluate, Bind.bind, EStateM.bind]
  cases dispatch setting call id expr.shape m with
  | error e m₁ => exact .error e rfl
  | ok matched m₁ =>
      cases matched with
      | true => exact .ok true rfl
      | false =>
          obtain ⟨m₂, hrun, hstate⟩ := recordFailure_state setting id expr m₁
          dsimp only
          simp only [Bool.not_false, if_true, EStateM.bind, hrun]
          exact .ok false hstate

section Unmemoized

variable (hmemoization : c.memoization = .none) (hsteps : c.maxSteps = none)
include hmemoization hsteps

/-- Without memoization and a step limit, a match is that of the shape. -/
theorem attempt_state (hshape : g.shape? id = some shape) (m : Machine) :
    SameEnd (dispatch ⟨g, text, c⟩ call id shape m.counted) (attempt ⟨g, text, c⟩ call id m) := by
  obtain ⟨expr, hnode, rfl⟩ := Option.map_eq_some_iff.mp hshape
  have hrun : attempt ⟨g, text, c⟩ call id m =
      evaluate ⟨g, text, c⟩ call id expr none m.counted := by
    rw [attempt, bind_eq (countStep_free hsteps m), Grammar.node_eq hnode]
    simp only [memoizes, hmemoization]
    rfl
  rw [hrun]
  exact evaluate_state ⟨g, text, c⟩ call id expr m.counted

theorem attempt_byState (h : ∀ id, ByState (call id) (call id)) (id : ExprId) :
    ByState (attempt ⟨g, text, c⟩ call id) (attempt ⟨g, text, c⟩ call id) := by
  refine ByState.bind ?_ fun _ => (ByState.parametric.lift _).bind fun expr => ?_
  · intro m m' hm
    rw [countStep_free hsteps, countStep_free hsteps]
    exact .ok () hm
  · simp only [memoizes, hmemoization, Bool.false_eq_true, if_false]
    intro m m' hm
    have hdispatch := dispatch_parametric ByState.parametric g text c c h id expr.shape
      (fun spec children _ => Programs.custom_byState h id spec children) m m' hm
    have hleft := evaluate_state ⟨g, text, c⟩ call id expr m
    have hright := evaluate_state ⟨g, text, c⟩ call id expr m'
    exact hleft.symm.trans (hdispatch.trans hright)

/-- Without memoization and a step limit, a match goes by the parse state. -/
theorem invoke_byState (nesting : Nat) (id : ExprId) :
    ByState (invoke ⟨g, text, c⟩ nesting id) (invoke ⟨g, text, c⟩ nesting id) := by
  induction nesting generalizing id with
  | zero =>
      refine ByState.bind ?_ fun _ => ByState.parametric.state.bind fun _ =>
        ByState.parametric.throw _
      intro m m' hm
      rw [countStep_free hsteps, countStep_free hsteps]
      exact .ok () hm
  | succ nesting ih =>
      rw [invoke_succ]
      exact attempt_byState hmemoization hsteps ih id

end Unmemoized

end Engine

/-! ## The loop -/

namespace Combinators

/-- How a form ends that has got from `s` to `t`: it moves the commit point back and matches, or goes
    back itself and fails. -/
inductive Closes (s t : ParseState) : Bool → ParseState → Prop where
  | kept : t.canUncommit s.snapshot = true → Closes s t true (t.uncommit s.snapshot)
  | undone : Closes s t false (t.restore s.snapshot)

theorem Closes.eq_uncommit {s t u : ParseState} (h : Closes s t true u) :
    t.canUncommit s.snapshot = true ∧ u = t.uncommit s.snapshot := by
  cases h with
  | kept hfit => exact ⟨hfit, rfl⟩

theorem Closes.eq_restore {s t u : ParseState} (h : Closes s t false u) :
    u = t.restore s.snapshot := by
  cases h with
  | undone => rfl

variable {text : Text} {operand more : ExprId} {items : List ExprId} {least count : Nat} {b' : Bool}
variable {m₁ m₂ : Machine}

theorem transition_ok {allowed : ParseState → Bool} {u : ParseState → ParseState} {a : Unit}
    (h : transition allowed u m = .ok a m') :
    allowed m.state = true ∧ m' = m.withState (u m.state) := by
  rw [transition] at h
  split at h
  · rename_i hallowed
    cases h
    exact ⟨hallowed, rfl⟩
  · cases h

theorem closes_kept {s : ParseState} (h : (do uncommit s.snapshot; return true : Matching Bool) m
    = .ok b m') : b = true ∧ Closes s m.state true m'.state := by
  obtain ⟨⟨⟩, n, huncommit, hpure⟩ := bind_ok h
  obtain ⟨hfit, rfl⟩ := transition_ok huncommit
  cases hpure
  exact ⟨rfl, .kept hfit⟩

theorem sequence_ok (h : sequence call items m = .ok b m') :
    ∃ m₁, matchAll call items m = .ok b m₁ ∧ Closes m.state m₁.state b m'.state := by
  obtain ⟨matched, m₁, hall, hend⟩ := bind_ok (x := matchAll call items) (m := m) (b := b) h
  cases matched with
  | true =>
      obtain ⟨rfl, hcloses⟩ := closes_kept hend
      exact ⟨m₁, hall, hcloses⟩
  | false =>
      cases hend
      exact ⟨m₁, hall, .undone⟩

theorem repetition_ok (h : repetition call text least operand m = .ok b m') :
    ∃ count m₁, matchMany call operand (text.length - m.state.stop + 1) 0 m = .ok count m₁ ∧
      b = decide (least ≤ count) ∧ Closes m.state m₁.state b m'.state := by
  obtain ⟨count, m₁, hmany, hend⟩ := bind_ok
    (x := matchMany call operand (text.length - m.state.stop + 1) 0) (m := m) (b := b) h
  refine ⟨count, m₁, hmany, ?_⟩
  by_cases hfew : count < least
  · rw [if_pos hfew] at hend
    cases hend
    exact ⟨(decide_eq_false (by omega)).symm, .undone⟩
  · rw [if_neg hfew] at hend
    obtain ⟨rfl, hcloses⟩ := closes_kept hend
    exact ⟨(decide_eq_true (by omega)).symm, hcloses⟩

/-- The count that a loop begins with is added to what it counts. -/
theorem matchMany_count (rounds count : Nat) :
    matchMany call operand rounds (count + 1) = (· + 1) <$> matchMany call operand rounds count := by
  induction rounds generalizing count with
  | zero => rfl
  | succ rounds ih =>
      simp only [matchMany, map_bind]
      refine bind_congr fun before => bind_congr fun matched => ?_
      cases matched with
      | false => rfl
      | true =>
          simp only [if_true, map_bind]
          refine bind_congr fun s => ?_
          split
          · rfl
          · rw [map_bind]
            exact bind_congr fun _ => ih (count + 1)

/-- The loop begins with the first match, and goes on where that one ended if it moved. -/
theorem matchMany_ok {rounds : Nat} {b₀ : Bool} {m₀ : Machine} (hfirst : call operand m = .ok b₀ m₀)
    (h : matchMany call operand (rounds + 1) 0 m = .ok count m₁) :
    (b₀ = false ∧ count = 0 ∧ m₁ = m₀) ∨
      (b₀ = true ∧ m₀.state.stop = m.state.stop ∧ count = 0 ∧
        m₁ = m₀.withState m₀.state.discard) ∨
      (b₀ = true ∧ m₀.state.stop ≠ m.state.stop ∧ m₀.state.countersFit = true ∧
        matchMany call operand rounds 1 (m₀.withState m₀.state.commit) = .ok count m₁) := by
  obtain ⟨matched, n, hmatched, hrest⟩ := bind_ok (x := call operand) (m := m) (b := count) h
  cases hfirst.symm.trans hmatched
  cases b₀ with
  | false =>
      cases hrest
      exact Or.inl ⟨rfl, rfl, rfl⟩
  | true =>
      have hloop : (if m₀.state.stop = m.state.stop then do onState (·.discard); return 0
          else do commit; matchMany call operand rounds 1 : Matching Nat) m₀ = .ok count m₁ := hrest
      by_cases hstay : m₀.state.stop = m.state.stop
      · rw [if_pos hstay] at hloop
        cases hloop
        exact Or.inr (Or.inl ⟨rfl, hstay, rfl, rfl⟩)
      · rw [if_neg hstay] at hloop
        obtain ⟨⟨⟩, n, hcommit, hnext⟩ := bind_ok hloop
        obtain ⟨hfit, rfl⟩ := transition_ok hcommit
        exact Or.inr (Or.inr ⟨rfl, hstay, hfit, hnext⟩)

/-- Two items, of which the second matches if it answers at all. -/
theorem matchAll_pair_ok (h : matchAll call [operand, more] m = .ok b' m') :
    ∃ b₀ m₀, call operand m = .ok b₀ m₀ ∧
      ((b₀ = false ∧ b' = false ∧ m' = m₀) ∨
        (b₀ = true ∧ m₀.state.countersFit = true ∧ ∃ n,
          call more (m₀.withState m₀.state.commit) = .ok b' n ∧
          (b' = true → n.state.countersFit = true ∧ m' = n.withState n.state.commit))) := by
  obtain ⟨b₀, m₀, hfirst, hrest⟩ := bind_ok (x := call operand) (m := m) (b := b') h
  refine ⟨b₀, m₀, hfirst, ?_⟩
  cases b₀ with
  | false =>
      cases hrest
      exact Or.inl ⟨rfl, rfl, rfl⟩
  | true =>
      obtain ⟨⟨⟩, n₀, hcommit, hsecond⟩ := bind_ok (x := commit) (m := m₀) (b := b') hrest
      obtain ⟨hfit, rfl⟩ := transition_ok hcommit
      obtain ⟨matched, n, hmatched, hlast⟩ := bind_ok (x := call more) (b := b') hsecond
      cases matched with
      | false =>
          cases hlast
          exact Or.inr ⟨rfl, hfit, _, hmatched, nofun⟩
      | true =>
          obtain ⟨⟨⟩, n₁, hcommit', hpure⟩ := bind_ok (x := commit) (m := n) (b := b') hlast
          obtain ⟨hfit', rfl⟩ := transition_ok hcommit'
          cases hpure
          exact Or.inr ⟨rfl, hfit, _, hmatched, fun _ => ⟨hfit', rfl⟩⟩

section Loop

variable {kept : MemoKey Fingerprint → Option Changes → Prop}
variable (hcall : (Protocol.within g text (fun _ _ _ => True) kept).Serves
    (fun c _ p => Inside text c p) call call)
  (hblind : ∀ id, ByState (call id) (call id))
include hcall hblind

/-- From where the first match of the operand ended, the loop does the same, whatever was counted,
    and whether it has rounds for the text that is left there or from where it began. -/
theorem matchMany_rest (hready : Ready g m)
    (hkeeps : (Protocol.within g text (fun _ _ _ => True) kept).Keeps m)
    (hinside : Inside text m.state.scope m.state.stop) {rounds : Nat}
    (hrounds : text.length - m.state.stop < rounds) {n n' : Machine} (hstate : n.state = m.state)
    (h : matchMany call operand (text.length - m.state.stop + 1) 0 n = .ok count n') :
    ∃ t, matchMany call operand rounds 1 m = .ok (count + 1) t ∧ t.state = n'.state ∧
      m.state.Grown t.state := by
  have hrepeats : Repeats (Protocol.within g text (fun _ _ _ => True) kept)
      (fun c _ p => Inside text c p) m.state.scope operand m.state.stop text.length :=
    ⟨fun p _ hp => hinside.moved hp, fun p f _ _ htell =>
      ⟨(Protocol.tell_within htell).forward, (Protocol.tell_within htell).stop⟩⟩
  have htwins := matchMany_told hcall operand 0 hready hkeeps hrepeats hinside.position
    (Nat.lt_succ_self _) hrounds
  have hends := matchMany_parametric ByState.parametric hblind operand
    (text.length - m.state.stop + 1) 0 n m hstate.symm
  rw [h] at hends
  obtain ⟨t, hrun, ht⟩ := hends.of_ok
  obtain ⟨-, -, -, hgrown, -⟩ := htwins.answer hrun
  refine ⟨t, ?_, ht, hgrown⟩
  rw [← Nat.zero_add 1, matchMany_count]
  show EStateM.map (· + 1) (matchMany call operand rounds 0) m = .ok (count + 1) t
  simp only [EStateM.map, htwins.same.trans hrun]

/-- One or more of an operand, and the operand followed by zero or more of it. -/
theorem oneOrMore_ok (hready : Ready g m)
    (hkeeps : (Protocol.within g text (fun _ _ _ => True) kept).Keeps m)
    (hinside : Inside text m.state.scope m.state.stop)
    (hmore : ∀ n b n', call more n = .ok b n' → ∃ k k', k.state = n.state ∧
      repetition call text 0 operand k = .ok b k' ∧ k'.state = n'.state)
    (hone : repetition call text 1 operand m = .ok b m₁)
    (hboth : sequence call [operand, more] m = .ok b' m₂) :
    ∃ b₀ m₀, call operand m = .ok b₀ m₀ ∧ b' = b₀ ∧
      (b₀ = true → m₀.state.stop = m.state.stop → b = false ∧ m₁.state = m.state) ∧
      (b₀ = true → m₀.state.stop ≠ m.state.stop → b = true ∧ m₁.state = m₂.state) ∧
      (b₀ = false → b = false ∧ m₁.state = m₂.state) := by
  obtain ⟨last, hall, hcloses'⟩ := sequence_ok hboth
  obtain ⟨b₀, m₀, hfirst, hsecond⟩ := matchAll_pair_ok hall
  obtain ⟨count, loop, hmany, rfl, hcloses⟩ := repetition_ok hone
  have hloop := matchMany_ok hfirst hmany
  obtain ⟨⟨hkeeps₀, htell⟩, hmemo, hanswer⟩ := (hcall.asked hready hkeeps hinside).answer hfirst
  refine ⟨b₀, m₀, hfirst, ?_⟩
  rcases hsecond with ⟨rfl, rfl, rfl⟩ | ⟨rfl, hfit, n, hrun, hcommit⟩
  · -- the operand does not match, and both go back
    obtain ⟨rfl, rfl⟩ : count = 0 ∧ loop = last := by simpa using hloop
    exact ⟨rfl, nofun, nofun, fun _ => ⟨rfl, hcloses.eq_restore.trans hcloses'.eq_restore.symm⟩⟩
  · -- the operand matches, and so does the rest of the sequence
    have hkept : m.state.Kept m₀.state := hanswer
    obtain ⟨k, k', hk, hrepeat, hk'⟩ := hmore _ _ _ hrun
    obtain ⟨more, t, hrest, rfl, hcloses₀⟩ := repetition_ok hrepeat
    have hmatches : decide (0 ≤ more) = true := decide_eq_true (Nat.zero_le more)
    rw [hmatches] at hcloses₀ hcloses' hcommit ⊢
    obtain ⟨hfit', rfl⟩ := hcommit rfl
    refine ⟨rfl, fun _ hstay => ?_, fun _ hmoved => ?_, nofun⟩
    · -- in place: the loop drops the match and counts nothing
      obtain ⟨rfl, rfl⟩ : count = 0 ∧ loop = m₀.withState m₀.state.discard := by
        simpa [hstay] using hloop
      refine ⟨rfl, ?_⟩
      rw [hcloses.eq_restore, hkept.discard hready.settled, (ParseState.Grown.refl m.state).restore]
    · obtain ⟨-, hnext⟩ : m₀.state.countersFit = true ∧ matchMany call operand
          (text.length - m.state.stop) 1 (m₀.withState m₀.state.commit) = .ok count loop := by
        simpa [hmoved] using hloop
      have hwithin := Protocol.tell_within htell
      have hforward : m.state.stop ≤ m₀.state.stop := hwithin.forward
      have hend : m₀.state.stop ≤ text.length := hwithin.stop
      have hgrown₀ : m.state.Grown m₀.state.commit := hkept.grown.commit hfit
      have hready₀ : Ready g (m₀.withState m₀.state.commit) :=
        ready_commit hmemo (hkept.scope ▸ hready.canonical) hfit
      have hinside₀ : Inside text m₀.state.commit.scope m₀.state.commit.stop := by
        have hscope : m₀.state.commit.scope = m.state.scope := hkept.scope
        rw [hscope]
        exact hinside.moved hend
      -- both loops go on from there
      have hstop : k.state.stop = m₀.state.stop := by
        rw [hk]
        rfl
      rw [hstop] at hrest
      obtain ⟨t', hsame, ht', hgrown⟩ := matchMany_rest hcall hblind hready₀ hkeeps₀.commit
        hinside₀
        (show text.length - m₀.state.stop < text.length - m.state.stop by omega) hk hrest
      cases hsame.symm.trans hnext
      have hcounted : decide (1 ≤ more + 1) = true := decide_eq_true (by omega)
      rw [hcounted] at hcloses ⊢
      refine ⟨rfl, ?_⟩
      -- the sequence moves the commit point back twice
      obtain ⟨honce, hleft⟩ := hcloses.eq_uncommit
      obtain ⟨hagain, hright⟩ := hcloses'.eq_uncommit
      obtain ⟨hback, hbetween⟩ := hcloses₀.eq_uncommit
      rw [hk', hk, ← ht'] at hbetween
      rw [hk, ← ht'] at hback
      rw [hbetween] at hfit'
      rw [hleft, hright]
      simp only [hbetween] at hagain ⊢
      exact (ParseState.uncommit_commit (hgrown₀.trans hgrown) hgrown hback hfit' hagain honce).symm

end Loop

end Combinators

/-! ## Matches -/

namespace Engine

/-- Without limits, the match of an expression comes to an outcome and leaves a parse state.  There is
    one such outcome at most (`Comes.unique`), and a match that answers within limits comes to it
    (`comes_of_ok`). -/
def Comes (g : Grammar) (text : Text) (c : Config) (id : ExprId) (m : Machine) (b : Bool)
    (s : ParseState) : Prop :=
  ∃ nesting m', invoke ⟨g, text, { c with maxSteps := none }⟩ nesting id m = .ok b m' ∧ m'.state = s

/-- With limits a match comes to the same, as long as it answers. -/
theorem comes_of_ok {nesting : Nat} (h : invoke ⟨g, text, c⟩ nesting id m = .ok b m') :
    Comes g text c id m b m'.state :=
  ⟨nesting, m', invoke_extends g text c le_rfl (by rintro _ ⟨⟩) id m b m' h, rfl⟩

/-- Whatever the nesting, a match without limits comes to one outcome. -/
theorem Comes.unique {b' : Bool} {s s' : ParseState} (h : Comes g text c id m b s)
    (h' : Comes g text c id m b' s') : b = b' ∧ s = s' := by
  obtain ⟨nesting, n, hrun, rfl⟩ := h
  obtain ⟨nesting', n', hrun', rfl⟩ := h'
  let c' : Config := { c with maxSteps := none }
  have hmore : invoke ⟨g, text, c'⟩ (nesting + nesting') id m = .ok b n :=
    invoke_extends g text c' (Nat.le_add_right nesting nesting') (.refl none) id m b n hrun
  have hmore' : invoke ⟨g, text, c'⟩ (nesting + nesting') id m = .ok b' n' :=
    invoke_extends g text c' (Nat.le_add_left nesting' nesting) (.refl none) id m b' n' hrun'
  cases hmore.symm.trans hmore'
  exact ⟨rfl, rfl⟩

/-- Without memoization and a step limit, a match that answers is one of its shape. -/
theorem dispatch_of_attempt (hmemoization : c.memoization = .none) (hsteps : c.maxSteps = none)
    (hshape : g.shape? id = some shape) (h : attempt ⟨g, text, c⟩ call id m = .ok b m') :
    ∃ m₁, dispatch ⟨g, text, c⟩ call id shape m.counted = .ok b m₁ ∧ m₁.state = m'.state := by
  have hends : SameEnd (attempt ⟨g, text, c⟩ call id m)
      (dispatch ⟨g, text, c⟩ call id shape m.counted) :=
    (attempt_state hmemoization hsteps hshape m).symm
  rw [h] at hends
  exact hends.of_ok

end Engine

/-- From every machine of a parse that memoizes nothing, one or more of an expression does what the
    expression followed by zero or more of it does: it matches if the expression does, and leaves the
    same parse state.  The exception is an expression that matches in place: then one or more of it
    fails and leaves the state as it was, while the sequence matches. -/
theorem Parser.Reaches.oneMore_sequence {parser : Parser} {m m₁ m₂ : Machine}
    (hmemoization : parser.config.memoization = .none) (hreach : parser.Reaches text m)
    (hsettled : m.state.Settled) {one both more operand : ExprId}
    (hone : parser.grammar.shape? one = some (.oneMore operand))
    (hboth : parser.grammar.shape? both = some (.sequence [operand, more]))
    (hmore : parser.grammar.shape? more = some (.zeroMore operand)) {nesting nesting' : Nat}
    {b b' : Bool} (h₁ : invoke (parser.setting text) nesting one m = .ok b m₁)
    (h₂ : invoke (parser.setting text) nesting' both m = .ok b' m₂) :
    ∃ b₀ s₀, Comes parser.grammar text parser.config operand m b₀ s₀ ∧ b' = b₀ ∧
      (b₀ = true → s₀.stop = m.state.stop → b = false ∧ m₁.state = m.state) ∧
      ((b₀ = true → s₀.stop ≠ m.state.stop) → b = b' ∧ m₁.state = m₂.state) := by
  let g := parser.grammar
  let c : Config := { parser.config with maxSteps := none }
  have hc : c.memoization = .none := hmemoization
  let depth := nesting + nesting'
  -- both matches answer alike with more nesting and no step limit, over one caller
  have hfree : StepsWithin parser.config.maxSteps none := by rintro _ ⟨⟩
  have hdeep₁ : attempt ⟨g, text, c⟩ (invoke ⟨g, text, c⟩ depth) one m = .ok b m₁ :=
    show invoke ⟨g, text, c⟩ (depth + 1) one m = .ok b m₁ from
      invoke_extends g text parser.config (by omega) hfree one m b m₁ h₁
  have hdeep₂ : attempt ⟨g, text, c⟩ (invoke ⟨g, text, c⟩ depth) both m = .ok b' m₂ :=
    show invoke ⟨g, text, c⟩ (depth + 1) both m = .ok b' m₂ from
      invoke_extends g text parser.config (by omega) hfree both m b' m₂ h₂
  obtain ⟨n₁, hrepetition, hn₁⟩ := dispatch_of_attempt hc rfl hone hdeep₁
  obtain ⟨n₂, hsequence, hn₂⟩ := dispatch_of_attempt hc rfl hboth hdeep₂
  have hrepeats : ∀ n b n', invoke ⟨g, text, c⟩ depth more n = .ok b n' →
      ∃ k k', k.state = n.state ∧
        Combinators.repetition (invoke ⟨g, text, c⟩ depth) text 0 operand k = .ok b k' ∧
          k'.state = n'.state := by
    intro n b n' hrun
    have hdeeper : attempt ⟨g, text, c⟩ (invoke ⟨g, text, c⟩ depth) more n = .ok b n' :=
      invoke_extends g text c (Nat.le_succ depth) (.refl none) more n b n' hrun
    obtain ⟨k', hrepeat, hk'⟩ := dispatch_of_attempt hc rfl hmore hdeeper
    exact ⟨n.counted, k', rfl, hrepeat, hk'⟩
  -- matches end in the text
  have hsustains : ∀ config : Config, Sustains g text config (fun _ _ _ => True) fun _ _ => True :=
    fun _ => sustains_bounds fun _ _ _ _ _ => trivial
  obtain ⟨hmemo, hcanonical, hkeeps, hinside⟩ := hreach.within (hsustains parser.config)
  have hready : Ready g m := ⟨hsettled, hcanonical, hmemo⟩
  obtain ⟨b₀, m₀, hfirst, rfl, hstays, hmoves, hfails⟩ := Combinators.oneOrMore_ok (m := m.counted)
    (invoke_within (hsustains c) depth) (invoke_byState hc rfl depth)
    (hready.of_state_eq hready.memo rfl) ⟨hkeeps.blank, hkeeps.memo, hkeeps.recorded⟩ hinside
    hrepeats hrepetition hsequence
  have hbyState : ByState (invoke ⟨g, text, c⟩ depth operand) (invoke ⟨g, text, c⟩ depth operand) :=
    invoke_byState hc rfl depth operand
  have hends := hbyState m.counted m rfl
  rw [hfirst] at hends
  obtain ⟨m₀', hfirst', hm₀⟩ := hends.of_ok
  refine ⟨b', m₀.state, ⟨depth, m₀', hfirst', hm₀⟩, rfl, fun hb hstay => ?_, fun hnot => ?_⟩
  · rw [← hn₁]
    exact hstays hb hstay
  · rw [← hn₁, ← hn₂]
    cases b' with
    | false => exact hfails rfl
    | true => exact hmoves rfl (hnot rfl)

/-- One or more of an optional letter, and the optional letter followed by zero or more of it. -/
def optionalLetters : Parser :=
  { grammar := {
      nodes := #[.ofShape (.oneMore 2), .ofShape (.sequence [2, 3]), .ofShape (.optional 4),
        .ofShape (.zeroMore 2), .ofShape (.literal "a")] }
    root := 0
    config := { memoization := .none } }

theorem oneMore_sequence_letters :
    ∃ m₁ m₂, invoke (optionalLetters.setting (.ofString "aa")) 9 0 (.initial optionalLetters.config) =
        .ok true m₁ ∧
      invoke (optionalLetters.setting (.ofString "aa")) 9 1 (.initial optionalLetters.config) =
        .ok true m₂ ∧ m₁.state = m₂.state ∧ m₁.state.stop = 2 := by
  obtain ⟨m₁, h₁, hstop⟩ := exists_of_answer (a := true) (f := fun m => m.state.stop) (v := 2)
    (x := invoke (optionalLetters.setting (.ofString "aa")) 9 0 (.initial optionalLetters.config))
    (by decide +kernel)
  obtain ⟨m₂, h₂, -⟩ := exists_of_answer (a := true) (f := fun m => m.state.stop) (v := 2)
    (x := invoke (optionalLetters.setting (.ofString "aa")) 9 1 (.initial optionalLetters.config))
    (by decide +kernel)
  obtain ⟨b₀, s₀, -, rfl, hstays, hmoves⟩ := Parser.Reaches.oneMore_sequence rfl (.begun .root)
    (settled_initial _) rfl rfl rfl h₁ h₂
  refine ⟨m₁, m₂, h₁, h₂, (hmoves fun hb hstay => ?_).2, hstop⟩
  cases (hstays hb hstay).1

/-- On the empty text the optional letter matches in place, and so does the sequence, but one or more
    of it fails. -/
theorem oneMore_ne_sequence :
    (∃ m₀, invoke (optionalLetters.setting (.ofString "")) 9 2 (.initial optionalLetters.config) =
        .ok true m₀ ∧ m₀.state.stop = 0) ∧
      (∃ m₂, invoke (optionalLetters.setting (.ofString "")) 9 1 (.initial optionalLetters.config) =
        .ok true m₂ ∧ m₂.state.stop = 0) ∧
      ∃ m₁, invoke (optionalLetters.setting (.ofString "")) 9 0 (.initial optionalLetters.config) =
        .ok false m₁ ∧ m₁.state.stop = 0 :=
  ⟨exists_of_answer (by decide +kernel), exists_of_answer (by decide +kernel),
    exists_of_answer (by decide +kernel)⟩

end Packrat
