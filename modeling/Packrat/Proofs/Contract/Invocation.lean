import Packrat.Engine.Parse
import Packrat.Proofs.Contract.Growth
import Packrat.Proofs.Contract.Programs

/-! # The contract of every match of a parse

    Every expression is matched through one entry point, and a parse performs such matches inside
    each other.  Whatever the grammar, the text and the configuration are:

    * a match begins with an empty uncommitted view;
    * one that fails leaves the parse state as it was;
    * one that succeeds keeps everything that was committed, and a predicate keeps the whole state.

    Which matches a parse performs is read off the program itself: a program asks its caller for a
    match if another answer there could change what the program does (`Asks`).  Since the forms
    behave alike over callers that agree on ready machines, none of them asks anywhere else. -/

namespace Packrat

/-- The failures once it is known in state `s` whether `id` matched. -/
def Failures.after (f : Failures) (s : ParseState) (id : ExprId) (expr : Expr)
    (matched : Bool) : Failures :=
  if !matched && (s.recording && expr.flags.recordErrors) then f.record id s.stop else f

theorem Grammar.node_ok {g : Grammar} {id : ExprId} {expr : Expr} (h : g.node id = .ok expr) :
    g.node? id = some expr := by
  rw [Grammar.node] at h
  split at h
  · rename_i e he
    cases h
    exact he
  · cases h

theorem Grammar.node_eq {g : Grammar} {id : ExprId} {expr : Expr} (h : g.node? id = some expr) :
    g.node id = .ok expr := by
  rw [Grammar.node, h]

theorem Grammar.shape?_of_node? {g : Grammar} {id : ExprId} {expr : Expr}
    (h : g.node? id = some expr) : g.shape? id = some expr.shape := by
  rw [Grammar.shape?, h]
  rfl

namespace Engine

open Matching

variable {setting : Setting} {call call' : Caller} {m : Machine} {id : ExprId}

/-! ## Around the dispatch -/

/-- Match an expression once, with its children matched through `call`. -/
def attempt (setting : Setting) (call : Caller) : Caller := fun id => do
  countStep setting
  let expr ← lift (setting.grammar.node id)
  if memoizes setting expr then
    let key ← memoKey id
    match ← consult setting key with
    | some outcome => replayMemo setting id expr outcome
    | none => evaluate setting call id expr (some key)
  else evaluate setting call id expr none

/-- An invocation attempts its node, with invocations one level deeper for the children. -/
theorem invoke_succ (setting : Setting) (nesting : Nat) :
    invoke setting (nesting + 1) = attempt setting (invoke setting nesting) := rfl

/-- The machine stands where it stood; only counters and the log may have changed. -/
structure Standing (m m' : Machine) : Prop where
  state : m'.state = m.state
  memo : m'.memo = m.memo
  failures : m'.failures = m.failures

/-- Counting a step touches neither the state nor the table. -/
theorem countStep_standing (m : Machine) :
    Twins m (· = m.state.scope) (countStep setting) (countStep setting)
      fun _ m' => Standing m m' := by
  refine Twins.onTally_bind (Twins.get_bind ?_)
  cases setting.config.maxSteps with
  | none => exact Twins.pure ⟨rfl, rfl, rfl⟩
  | some limit =>
      dsimp only
      split
      · exact Twins.throw rfl
      · exact Twins.pure ⟨rfl, rfl, rfl⟩

/-- The key of a match: expression, position and everything that decides the outcome. -/
def keyAt (s : ParseState) (id : ExprId) : MemoKey Fingerprint :=
  { expr := id, position := s.stop, print := { s.fingerprint with recording := s.recording } }

/-- The key is that of the state at hand, and computing it changes nothing. -/
theorem memoKey_eq (m : Machine) :
    Twins m (· = m.state.scope) (memoKey id) (memoKey id)
      fun key m' => key = keyAt m.state id ∧ m' = m := by
  refine (Twins.fingerprint (E := (· = m.state.scope)) rfl).bind ?_
  rintro print m' ⟨rfl, rfl⟩
  exact Twins.state_bind (Twins.pure ⟨rfl, rfl⟩)

/-- What a lookup answers is held by the table, under the key it was asked for. -/
theorem consult_held (m : Machine) (key : MemoKey Fingerprint) :
    Twins m (· = m.state.scope) (consult setting key) (consult setting key)
      fun answer m' => Standing m m' ∧ ∀ o, answer = some o → m.memo.Holds key o := by
  rw [consult]
  cases setting.config.memo with
  | table =>
      refine Twins.get_bind (Twins.pure ⟨⟨rfl, rfl, rfl⟩, ?_⟩)
      intro o ho
      exact Table.holds_of_get? ho
  | traced =>
      refine Twins.get_bind (Twins.log_bind (Twins.pure ⟨⟨rfl, rfl, rfl⟩, ?_⟩))
      intro o ho
      exact Table.holds_of_get? ho
  | off =>
      refine Twins.log_bind (Twins.pure ⟨⟨rfl, rfl, rfl⟩, ?_⟩)
      intro o ho
      cases ho

/-- Storing adds at most the one outcome. -/
theorem store_held (setting : Setting) (m : Machine) (key : MemoKey Fingerprint)
    (outcome : Option Changes) :
    Twins m (· = m.state.scope) (store setting key outcome) (store setting key outcome)
      fun _ m' => m'.state = m.state ∧ m'.failures = m.failures ∧
        ∀ k o, m'.memo.Holds k o → k = key ∧ o = outcome ∨ m.memo.Holds k o := by
  rw [store]
  cases setting.config.memo with
  | table =>
      refine ⟨rfl, ?_, ?_⟩
      · intro a m' hx
        cases hx
        exact ⟨rfl, rfl, fun k o h => Table.holds_insert h⟩
      · intro e m' hx
        cases hx
  | traced =>
      refine ⟨rfl, ?_, ?_⟩
      · intro a m' hx
        cases hx
        exact ⟨rfl, rfl, fun k o h => Table.holds_insert h⟩
      · intro e m' hx
        cases hx
  | off =>
      refine ⟨rfl, ?_, ?_⟩
      · intro a m' hx
        cases hx
        exact ⟨rfl, rfl, fun k o h => Or.inr h⟩
      · intro e m' hx
        cases hx

/-- A recorded failure changes the failures and nothing else. -/
theorem recordFailure_records (m : Machine) (expr : Expr) :
    Twins m (· = m.state.scope) (recordFailure setting id expr) (recordFailure setting id expr)
      fun _ m' => m'.state = m.state ∧ m'.memo = m.memo ∧
        m'.failures = m.failures.after m.state id expr false := by
  refine Twins.state_bind ?_
  rw [Failures.after]
  by_cases hrecords : (m.state.recording && expr.flags.recordErrors) = true
  · simp only [hrecords, if_true, Bool.not_false, Bool.and_self]
    split
    · refine ⟨rfl, ?_, ?_⟩
      · intro a m' hx
        cases hx
        exact ⟨rfl, rfl, rfl⟩
      · intro e m' hx
        cases hx
    · refine ⟨rfl, ?_, ?_⟩
      · intro a m' hx
        cases hx
        exact ⟨rfl, rfl, rfl⟩
      · intro e m' hx
        cases hx
  · simp only [hrecords, Bool.and_false, Bool.false_eq_true, if_false]
    exact Twins.pure ⟨rfl, rfl, rfl⟩

/-! ## Dispatch -/

/-- The contract of a match of `id`, with the clause for predicates. -/
def Concludes (g : Grammar) (id : ExprId) (m : Machine) (matched : Bool) (m' : Machine) : Prop :=
  Left g m matched m' ∧ (g.IsPredicate id → m'.state = m.state)

/-- A shape keeps the contract if the caller does. -/
theorem dispatch_concludes (hcall : Obeys setting.grammar call call') {shape : Shape ExprId}
    (hshape : setting.grammar.shape? id = some shape) (hready : Ready setting.grammar m) :
    Twins m (· = m.state.scope) (dispatch setting call id shape) (dispatch setting call' id shape)
      (Concludes setting.grammar id m) := by
  -- all forms but the two predicates need the first clause only
  have hplain : ∀ {x y : Matching Bool},
      (∀ operand, shape ≠ .lookahead operand ∧ shape ≠ .not operand) →
      Twins m (· = m.state.scope) x y (Left setting.grammar m) →
      Twins m (· = m.state.scope) x y (Concludes setting.grammar id m) := by
    intro x y hno htwins
    refine htwins.imp fun b m' hleft => ⟨hleft, ?_⟩
    rintro ⟨operand, hp | hp⟩
    · exact absurd (Option.some.inj (hshape.symm.trans hp)) (hno operand).1
    · exact absurd (Option.some.inj (hshape.symm.trans hp)) (hno operand).2
  refine Twins.state_bind ?_
  cases shape with
  | literal literal => exact hplain (by simp) (Combinators.terminal_left hready _)
  | any => exact hplain (by simp) (Combinators.terminal_left hready _)
  | range lo hi => exact hplain (by simp) (Combinators.terminal_left hready _)
  | set members => exact hplain (by simp) (Combinators.terminal_left hready _)
  | sequence items => exact hplain (by simp) (Combinators.sequence_left hcall items hready)
  | choice items => exact hplain (by simp) (Combinators.choice_left hcall items hready)
  | optional operand => exact hplain (by simp) (Combinators.optional_left hcall operand hready)
  | zeroMore operand =>
      exact hplain (by simp) (Combinators.repetition_left hcall _ 0 operand hready)
  | oneMore operand =>
      exact hplain (by simp) (Combinators.repetition_left hcall _ 1 operand hready)
  | lookahead operand =>
      refine (Combinators.lookahead_unchanged hcall operand hready).imp ?_
      exact fun b m' h => ⟨h.left, fun _ => h.2⟩
  | not operand =>
      refine (Combinators.negation_unchanged hcall operand hready).imp ?_
      exact fun b m' h => ⟨h.left, fun _ => h.2⟩
  | token operand => exact hplain (by simp) (Combinators.token_left hcall setting operand hready)
  | capture operand mode =>
      exact hplain (by simp) (Combinators.capture_left hcall _ operand mode hready)
  | leftRecursive operand assoc =>
      exact hplain (by simp) (Growth.leftRecursive_left hcall _ id operand assoc hready)
  | cluster groups => exact hplain (by simp) (Growth.cluster_left hcall _ id groups hready)
  | minPrecedence operand floor =>
      exact hplain (by simp) (Growth.minPrecedence_left hcall operand floor hready)
  | reference name => exact Twins.throw rfl
  | custom spec children =>
      exact hplain (by simp) (Programs.custom_left setting hcall id spec children hready)

/-- A node that is evaluated ends as its contract says, and what it leaves in the table under its
    key is its own outcome. -/
theorem evaluate_concludes (hcall : Obeys setting.grammar call call') {expr : Expr}
    (hshape : setting.grammar.shape? id = some expr.shape) (hready : Ready setting.grammar m)
    {key : Option (MemoKey Fingerprint)} (hkey : ∀ k, key = some k → k = keyAt m.state id) :
    Twins m (· = m.state.scope) (evaluate setting call id expr key)
      (evaluate setting call' id expr key) (Concludes setting.grammar id m) := by
  -- what the memo table and the failure record see of the match does not touch the state
  have hrecord : ∀ {matched : Bool} {m₁ : Machine}, Concludes setting.grammar id m matched m₁ →
      Twins m₁ (· = m.state.scope)
        (if !matched then do recordFailure setting id expr; pure matched else pure matched)
        (if !matched then do recordFailure setting id expr; pure matched else pure matched)
        (Concludes setting.grammar id m) := by
    intro matched m₁ h₁
    have hscope : m₁.state.scope = m.state.scope := h₁.1.2.grown.scope
    cases matched with
    | true => exact Twins.pure h₁
    | false =>
        refine ((recordFailure_records m₁ expr).imp_fault fun c hc => hc.trans hscope).bind ?_
        rintro ⟨⟩ m₂ ⟨hstate, hmemo, -⟩
        refine Twins.pure ⟨⟨hmemo ▸ h₁.1.1, ?_⟩, fun hp => hstate.trans (h₁.2 hp)⟩
        rw [hstate]
        exact h₁.1.2
  refine (dispatch_concludes hcall hshape hready).bind ?_
  intro matched m₁ h₁
  have hscope : m₁.state.scope = m.state.scope := h₁.1.2.grown.scope
  cases key with
  | none => exact hrecord h₁
  | some k =>
      refine Twins.onTally_bind (Twins.state_bind ?_)
      have hstore := store_held setting
        { m₁ with tally := { m₁.tally with memoMisses := m₁.tally.memoMisses + 1 } } k
        (if matched then some m₁.state.extract else none)
      refine (hstore.imp_fault fun c hc => hc.trans hscope).bind ?_
      rintro ⟨⟩ m₂ ⟨hstate, -, hheld⟩
      refine hrecord ⟨⟨?_, ?_⟩, fun hp => hstate.trans (h₁.2 hp)⟩
      · -- a predicate that matched left a settled state, whose changes do nothing
        intro k' c hk' hp
        rcases hheld k' (some c) hk' with ⟨rfl, ho⟩ | hold
        · obtain rfl := hkey k' rfl
          cases matched with
          | false => cases ho
          | true =>
              have hc : c = m₁.state.extract := Option.some.inj ho
              rw [hc, h₁.2 hp]
              exact ParseState.idle_extract hready.settled
        · exact h₁.1.1 k' c hold hp
      · rw [hstate]
        exact h₁.1.2

/-- An outcome held by the table ends the node as its evaluation would have, by the contract of the
    table. -/
theorem replayMemo_concludes {expr : Expr} {outcome : Option Changes}
    (hready : Ready setting.grammar m) (hheld : m.memo.Holds (keyAt m.state id) outcome) :
    Twins m (· = m.state.scope) (replayMemo setting id expr outcome)
      (replayMemo setting id expr outcome) (Concludes setting.grammar id m) := by
  refine Twins.onTally_bind ?_
  cases outcome with
  | some changes =>
      refine Twins.merge_bind rfl ?_
      intro hfit
      refine Twins.pure ⟨⟨hready.memo, (ParseState.Kept.refl m.state).merge hfit⟩, ?_⟩
      intro hp
      exact ParseState.merge_idle (hready.memo _ changes hheld hp)
  | none =>
      refine (recordFailure_records _ expr).bind ?_
      rintro ⟨⟩ m₁ ⟨hstate, hmemo, -⟩
      refine Twins.pure ⟨⟨?_, hstate⟩, fun _ => hstate⟩
      rw [hmemo]
      exact hready.memo

/-! ## The entry point -/

/-- The step of the induction: if the children keep their contracts, so does the node. -/
theorem attempt_concludes (hcall : Obeys setting.grammar call call')
    (hready : Ready setting.grammar m) :
    Twins m (· = m.state.scope) (attempt setting call id) (attempt setting call' id)
      (Concludes setting.grammar id m) := by
  refine (countStep_standing m).bind ?_
  rintro ⟨⟩ m₁ ⟨hstate, hmemo, -⟩
  have hready₁ : Ready setting.grammar m₁ := hready.of_state_eq (hmemo ▸ hready.memo) hstate
  have hback : ∀ b m', Concludes setting.grammar id m₁ b m' → Concludes setting.grammar id m b m' :=
    fun b m' h => ⟨h.1.of_state_eq hstate, fun hp => (h.2 hp).trans hstate⟩
  rw [← hstate]
  refine Twins.lift_bind rfl ?_
  intro expr hnode
  have hshape := Grammar.shape?_of_node? (Grammar.node_ok hnode)
  by_cases hmemoizes : memoizes setting expr = true
  · simp only [if_pos hmemoizes]
    refine (memoKey_eq m₁).bind ?_
    rintro key m₂ ⟨rfl, rfl⟩
    refine (consult_held m₂ _).bind ?_
    rintro answer m₃ ⟨⟨hstate₃, hmemo₃, -⟩, hheld⟩
    have hready₃ : Ready setting.grammar m₃ :=
      hready₁.of_state_eq (hmemo₃ ▸ hready₁.memo) hstate₃
    have hback₃ : ∀ b m', Concludes setting.grammar id m₃ b m' →
        Concludes setting.grammar id m b m' := fun b m' h =>
      hback b m' ⟨h.1.of_state_eq hstate₃, fun hp => (h.2 hp).trans hstate₃⟩
    rw [← hstate₃]
    cases answer with
    | some outcome =>
        have hout : m₃.memo.Holds (keyAt m₃.state id) outcome := by
          rw [hmemo₃, hstate₃]
          exact hheld outcome rfl
        exact (replayMemo_concludes hready₃ hout).imp hback₃
    | none =>
        refine (evaluate_concludes hcall hshape hready₃ ?_).imp hback₃
        intro k hk
        exact (Option.some.inj hk).symm
  · simp only [if_neg hmemoizes]
    refine (evaluate_concludes hcall hshape hready₁ ?_).imp hback
    intro k hk
    cases hk

/-- The entry point keeps the contract with any nesting still allowed. -/
theorem invoke_concludes (setting : Setting) (nesting : Nat) (id : ExprId)
    (hready : Ready setting.grammar m) :
    Twins m (· = m.state.scope) (invoke setting nesting id) (invoke setting nesting id)
      (Concludes setting.grammar id m) := by
  induction nesting generalizing id m with
  | zero =>
      refine (countStep_standing m).bind ?_
      rintro ⟨⟩ m₁ ⟨hstate, -, -⟩
      refine Twins.state_bind (Twins.throw ?_)
      rw [hstate]
  | succ nesting ih =>
      have hcall : Obeys setting.grammar (invoke setting nesting) (invoke setting nesting) :=
        fun child n hn => (ih child hn).imp fun b m' h => h.1
      rw [invoke_succ]
      exact attempt_concludes hcall hready

/-- Every invocation keeps the contract, by induction on the nesting. -/
theorem invoke_obeys (setting : Setting) (nesting : Nat) :
    Obeys setting.grammar (invoke setting nesting) (invoke setting nesting) :=
  fun id _ hready => (invoke_concludes setting nesting id hready).imp fun _ _ h => h.1

/-! ## The matches of a parse -/

/-- From `m`, the program asks its caller to match `child` on the machine `m'`: if the caller did
    anything else there and nowhere else, the program could come out otherwise. -/
def Asks (body : Caller → Matching Bool) (call : Caller) (m : Machine) (child : ExprId)
    (m' : Machine) : Prop :=
  ∃ other : Caller, (∀ i n, (i, n) ≠ (child, m') → other i n = call i n) ∧ body other m ≠ body call m

/-- Matching an expression asks for its children on ready machines only. -/
theorem ready_of_asks (hcall : Obeys setting.grammar call call) (hready : Ready setting.grammar m)
    {child : ExprId} {m' : Machine}
    (h : Asks (fun call => attempt setting call id) call m child m') : Ready setting.grammar m' := by
  obtain ⟨other, hagree, hdiffer⟩ := h
  by_contra hnot
  apply hdiffer
  have hother : Obeys setting.grammar call other := by
    refine hcall.of_agree ?_
    intro i n hn
    refine hagree i n ?_
    rintro ⟨⟩
    exact hnot hn
  exact (attempt_concludes hother hready).same

end Engine

open Engine

/-- The parser performs a match of an expression on a machine, with a nesting still allowed: it
    begins with the root, and a match performs those that it asks for. -/
inductive Parser.Performs (p : Parser) (text : Text) : Nat → ExprId → Machine → Prop where
  | root : p.Performs text p.config.maxDepth p.root (.initial p.config)
  | child {nesting : Nat} {id child : ExprId} {m m' : Machine} :
      p.Performs text (nesting + 1) id m →
      Asks (fun call => attempt (p.setting text) call id) (invoke (p.setting text) nesting) m
        child m' →
      p.Performs text nesting child m'

/-- A parse starts with an empty table and in order. -/
theorem ready_initial (g : Grammar) (config : Config) : Ready g (.initial config) := by
  refine ⟨settled_initial config.slots, ⟨Seeds.canonical_empty, Floors.canonical_uniform 0⟩, ?_⟩
  intro key c hheld
  exact absurd hheld (Table.not_holds_empty key (some c))

/-- Every invocation that a parse performs is in a machine for which the contracts hold. -/
theorem Parser.Performs.ready {p : Parser} {text : Text} {nesting : Nat} {id : ExprId}
    {m : Machine} (h : p.Performs text nesting id m) : Ready p.grammar m := by
  induction h with
  | root => exact ready_initial p.grammar p.config
  | child _ hasks ih => exact ready_of_asks (invoke_obeys (p.setting text) _) ih hasks

/-- What a match of `id` that answered may have done to the parse state. -/
structure ParseState.Honoured (g : Grammar) (id : ExprId) (before : ParseState) (matched : Bool)
    (after : ParseState) : Prop where
  failed : matched = false → after = before
  succeeded : matched = true → before.Kept after
  predicate : matched = true → g.IsPredicate id → after = before

/-- Every match that a parse performs begins with an empty uncommitted view.  If it fails, the
    whole parse state is as it was; if it succeeds, everything committed is as it was; and a
    predicate leaves the whole parse state as it was. -/
theorem Parser.Performs.honoured {p : Parser} {text : Text} {nesting : Nat} {id : ExprId}
    {m : Machine} (h : p.Performs text nesting id m) :
    m.state.Settled ∧ ∀ matched m', invoke (p.setting text) nesting id m = .ok matched m' →
      m.state.Honoured p.grammar id matched m'.state := by
  refine ⟨h.ready.settled, ?_⟩
  intro matched m' hrun
  obtain ⟨⟨-, hanswer⟩, hpredicate⟩ :=
    (invoke_concludes (p.setting text) nesting id h.ready).answer hrun
  refine ⟨?_, ?_, fun _ => hpredicate⟩
  · rintro rfl
    exact hanswer
  · rintro rfl
    exact hanswer

/-- A parser for texts that do not begin with an `a`. -/
def notA : Parser :=
  { grammar := { nodes := #[.ofShape (.not 1), .ofShape (.literal "a")] }, root := 0, config := {} }

/-- The machine on which it matches the literal: the first match is counted, and failures are not
    recorded. -/
def notAInner : Machine :=
  { Machine.initial {} with
    state := { ParseState.initial [] with recording := false }
    tally := { invocations := 1 } }

/-- The negation runs its operand with recording off, and takes the state back. -/
theorem attempt_notA (call : Caller) :
    attempt (notA.setting ⟨#['b']⟩) call 0 (.initial {}) =
      match call 1 notAInner with
      | .ok true m => .ok false { m with state := { m.state with recording := true }.discard }
      | .ok false m => .ok true { m with state := { m.state with recording := true } }
      | .error e m => .error e { m with state := { m.state with recording := true } } := by
  have hevaluate : attempt (notA.setting ⟨#['b']⟩) call 0 (.initial {}) =
      evaluate (notA.setting ⟨#['b']⟩) call 0 (.ofShape (.not 1)) none
        { Machine.initial {} with tally := { invocations := 1 } } := rfl
  have hdispatch : dispatch (notA.setting ⟨#['b']⟩) call 0 (.not 1)
      { Machine.initial {} with tally := { invocations := 1 } } =
      (Matching.thenAlways (call 1) ({ · with recording := true }) >>= fun matched =>
        if matched then do
          Matching.onState (·.discard)
          return false
        else return true) notAInner := rfl
  rw [hevaluate]
  simp only [evaluate, Expr.ofShape, bind, EStateM.bind, hdispatch, Matching.thenAlways]
  rcases call 1 notAInner with ⟨_ | _, m⟩ | ⟨e, m⟩ <;> rfl

/-- The operand of the negation is invoked where recording is off. -/
theorem asks_notA : Asks (fun call => attempt (notA.setting ⟨#['b']⟩) call 0)
    (invoke (notA.setting ⟨#['b']⟩) 511) (.initial {}) 1 notAInner := by
  classical
  -- a caller that faults on this match makes the root fault
  let other : Caller := fun i n =>
    if (i, n) = (1, notAInner) then .error (.crash .slotRefusal) n
    else invoke (notA.setting ⟨#['b']⟩) 511 i n
  refine ⟨other, ?_, ?_⟩
  · intro i n hother
    exact if_neg hother
  · intro heq
    have hfault : other 1 notAInner = .error (.crash .slotRefusal) notAInner := if_pos rfl
    have hright := attempt_notA (invoke (notA.setting ⟨#['b']⟩) 511)
    have hleft := attempt_notA other
    rw [hfault] at hleft
    cases hleft.symm.trans (heq.trans hright)

/-- This invocation is one that the parse performs. -/
theorem notA_performs : notA.Performs ⟨#['b']⟩ 511 1 notAInner :=
  .child .root asks_notA

theorem honoured_notA :
    notAInner.state.Settled ∧ ∃ m', invoke (notA.setting ⟨#['b']⟩) 511 1 notAInner = .ok false m' ∧
      m'.state = notAInner.state := by
  obtain ⟨hsettled, hanswer⟩ := notA_performs.honoured
  exact ⟨hsettled, _, rfl, (hanswer false _ rfl).failed rfl⟩

end Packrat
