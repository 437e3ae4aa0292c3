import Packrat.Proofs.Protocol.Growth
import Packrat.Proofs.Transparency.Invocation

/-! # What a match tells, at the entry point

    An expression is answered for by the memo table, or its shape is matched.  If what the table
    holds is what the protocol tells, and what the protocol tells may be stored, then an expression
    tells whatever its shape does. -/

namespace Packrat

open Matching Engine

namespace Protocol

variable {π : Protocol} {ask : Scope → ExprId → Nat → Prop} {call call' : Caller} {m m₁ : Machine}
variable {setting : Setting} {id : ExprId} {expr : Expr}

/-- At the start of a parse nothing is kept. -/
theorem keeps_initial (config : Config) (h : π.recorded (.initial config.failures)) :
    π.Keeps (.initial config) :=
  ⟨Or.inr (ParseState.blank_initial config.slots),
    fun key o hheld => absurd hheld (Table.not_holds_empty key o), h⟩

theorem Keeps.of_standing (h : π.Keeps m) (hstanding : Standing m m₁) : π.Keeps m₁ :=
  ⟨hstanding.state ▸ h.blank, hstanding.memo ▸ h.memo, hstanding.failures ▸ h.recorded⟩

/-- What has to be known of an expression, besides what its shape tells and what may be kept of it, to
    match it in `s`. -/
structure Recalls (π : Protocol) (setting : Setting) (s : ParseState) (id : ExprId) : Prop where
  grammar : setting.grammar = π.grammar
  steps : π.faults ∨ setting.config.maxSteps = none
  node : π.faults ∨ ∃ expr, π.grammar.node id = .ok expr
  /-- What is kept is what is told. -/
  held : ∀ o, π.entry (keyAt s id) o →
    Growth.BareSeed π o ∧ π.tell s.scope id s.stop (o.map Changes.found)
  record : ∀ f position, π.recorded f → π.recorded (f.record id position)

/-- Moreover, what is told may be kept. -/
structure Admits (π : Protocol) (setting : Setting) (s : ParseState) (id : ExprId) : Prop
    extends Recalls π setting s id where
  store : ∀ expr o, memoizes setting expr = true → Growth.BareSeed π o →
    π.tell s.scope id s.stop (o.map Changes.found) → π.entry (keyAt s id) o

theorem Recalls.after (h : π.Recalls setting m.state id) {f : Failures} (hf : π.recorded f)
    (s : ParseState) (matched : Bool) : π.recorded (f.after s id expr matched) := by
  rw [Failures.after]
  split
  · exact h.record f s.stop hf
  · exact hf

/-- The failure of an expression is recorded. -/
theorem recordFailure_told (h : π.Recalls setting m.state id) (hkeeps : π.Keeps m₁) :
    Twins m₁ (fun _ => π.faults) (recordFailure setting id expr) (recordFailure setting id expr)
      fun _ m' => π.Keeps m' ∧ m'.state = m₁.state := by
  have hanswers : ∃ a m', recordFailure setting id expr m₁ = .ok a m' := by
    show ∃ a m', (if m₁.state.recording && expr.flags.recordErrors then _ else _ : Matching Unit) m₁
      = .ok a m'
    split
    · split <;> exact ⟨_, _, rfl⟩
    · exact ⟨_, _, rfl⟩
  refine ((recordFailure_records m₁ expr).settle (Or.inr hanswers)).imp ?_
  rintro ⟨⟩ m' ⟨hstate, hmemo, hfailures⟩
  refine ⟨⟨hstate ▸ hkeeps.blank, hmemo ▸ hkeeps.memo, ?_⟩, hstate⟩
  rw [hfailures]
  exact h.after hkeeps.recorded _ _

theorem replayMemo_told (h : π.Recalls setting m.state id) (hkeeps : π.Keeps m) {o : Option Changes}
    (hheld : m.memo.Holds (keyAt m.state id) o) :
    Twins m (fun _ => π.faults) (replayMemo setting id expr o) (replayMemo setting id expr o)
      (π.Leaves (π.tell m.state.scope id m.state.stop) m) := by
  obtain ⟨hbare, htell⟩ := h.held o (hkeeps.memo _ o hheld)
  refine Twins.onTally_bind ?_
  have hcounted : π.Keeps { m with tally := { m.tally with memoHits := m.tally.memoHits + 1 } } :=
    ⟨hkeeps.blank, hkeeps.memo, hkeeps.recorded⟩
  cases o with
  | some changes => exact Growth.replay_told (m := m) hcounted rfl hbare htell
  | none =>
      refine (recordFailure_told h hcounted).bind ?_
      rintro ⟨⟩ m₁ ⟨hkeeps₁, hstate⟩
      exact Twins.pure ⟨hkeeps₁, htell⟩

theorem store_told (setting : Setting) (hkeeps : π.Keeps m₁) {key : MemoKey Fingerprint}
    {o : Option Changes} (hentry : π.entry key o) :
    Twins m₁ (fun _ => π.faults) (store setting key o) (store setting key o)
      fun _ m' => π.Keeps m' ∧ m'.state = m₁.state := by
  have hanswers : ∃ a m', store setting key o m₁ = .ok a m' := by
    rw [store]
    cases setting.config.memo <;> exact ⟨_, _, rfl⟩
  refine ((store_held setting m₁ _ o).settle (Or.inr hanswers)).imp ?_
  rintro ⟨⟩ m' ⟨hstate, hfailures, hholds⟩
  refine ⟨⟨hstate ▸ hkeeps.blank, ?_, hfailures ▸ hkeeps.recorded⟩, hstate⟩
  intro k o' hheld
  rcases hholds k o' hheld with ⟨rfl, rfl⟩ | hold
  · exact hentry
  · exact hkeeps.memo k o' hold

/-- The outcome of a match is what it found. -/
theorem found_outcomeOf {s t : ParseState} {b : Bool} (hs : s.Settled) (hanswer : Answers s b t) :
    (outcomeOf b t).map Changes.found = s.outcome b t := by
  cases b with
  | true => exact congrArg some (ParseState.found_extract hs hanswer)
  | false => rfl

/-- A shape that was matched from the state `s` may be kept. -/
def Stores (π : Protocol) (setting : Setting) (call : Caller) (s : ParseState) (id : ExprId) : Prop :=
  ∀ expr m b m', π.grammar.node? id = some expr → m.state = s → Ready π.grammar m → π.Keeps m →
    memoizes setting expr = true → Growth.BareSeed π (outcomeOf b m'.state) →
    π.tell s.scope id s.stop ((outcomeOf b m'.state).map Changes.found) →
    dispatch setting call id expr.shape m = .ok b m' →
    π.entry (keyAt s id) (outcomeOf b m'.state)

theorem evaluate_told (h : π.Recalls setting m.state id) (hstores : π.Stores setting call m.state id)
    (hready : Ready π.grammar m) (hkeeps : π.Keeps m) (hnode : π.grammar.node? id = some expr)
    {key : Option (MemoKey Fingerprint)}
    (hkey : ∀ k, key = some k → k = keyAt m.state id ∧ memoizes setting expr = true)
    (hdispatch : Twins m (fun _ => π.faults) (dispatch setting call id expr.shape)
      (dispatch setting call' id expr.shape) fun b m' =>
        π.Leaves (π.tell m.state.scope id m.state.stop) m b m' ∧ Left π.grammar m b m') :
    Twins m (fun _ => π.faults) (evaluate setting call id expr key)
      (evaluate setting call' id expr key) (π.Leaves (π.tell m.state.scope id m.state.stop) m) := by
  refine hdispatch.ran.bind ?_
  rintro matched m₁ ⟨⟨⟨hkeeps₁, htell⟩, -, hanswer⟩, hrun⟩
  -- the end of the program, from a machine with the state that the shape left
  have hend : ∀ {m₂ : Machine}, π.Keeps m₂ → m₂.state = m₁.state →
      Twins m₂ (fun _ => π.faults)
        (if !matched then do recordFailure setting id expr; pure matched else pure matched)
        (if !matched then do recordFailure setting id expr; pure matched else pure matched)
        (π.Leaves (π.tell m.state.scope id m.state.stop) m) := by
    intro m₂ hkeeps₂ hstate
    cases matched with
    | true =>
        refine Twins.pure ⟨hkeeps₂, ?_⟩
        rw [hstate]
        exact htell
    | false =>
        refine (recordFailure_told h hkeeps₂).bind ?_
        rintro ⟨⟩ m₃ ⟨hkeeps₃, -⟩
        exact Twins.pure ⟨hkeeps₃, htell⟩
  cases key with
  | none => exact hend hkeeps₁ rfl
  | some k =>
      obtain ⟨rfl, hmemoizes⟩ := hkey k rfl
      refine Twins.onTally_bind (Twins.state_bind ?_)
      have hbare : Growth.BareSeed π (outcomeOf matched m₁.state) := by
        intro changes hchanges
        cases matched with
        | false => cases hchanges
        | true =>
            cases hchanges
            exact hkeeps₁.blank.imp_right ParseState.Blank.bare_extract
      have hentry : π.entry (keyAt m.state id) (outcomeOf matched m₁.state) := by
        refine hstores expr m matched m₁ hnode rfl hready hkeeps hmemoizes hbare ?_ hrun
        rw [found_outcomeOf hready.settled hanswer]
        exact htell
      have hcounted : π.Keeps
          { m₁ with tally := { m₁.tally with memoMisses := m₁.tally.memoMisses + 1 } } :=
        ⟨hkeeps₁.blank, hkeeps₁.memo, hkeeps₁.recorded⟩
      refine (store_told setting hcounted hentry).bind ?_
      rintro ⟨⟩ m₂ ⟨hkeeps₂, hstate⟩
      exact hend hkeeps₂ hstate

/-- An expression tells what its shape does. -/
theorem attempt_recalled (hcall : Obeys π.grammar call call) (h : π.Recalls setting m.state id)
    (hstores : π.Stores setting call m.state id) (hready : Ready π.grammar m) (hkeeps : π.Keeps m)
    (hdispatch : ∀ expr m₁, π.grammar.node? id = some expr → m₁.state = m.state →
      Ready π.grammar m₁ → π.Keeps m₁ →
      Twins m₁ (fun _ => π.faults) (dispatch setting call id expr.shape)
        (dispatch setting call' id expr.shape)
        (π.Leaves (π.tell m₁.state.scope id m₁.state.stop) m₁)) :
    Twins m (fun _ => π.faults) (attempt setting call id) (attempt setting call' id)
      (π.Leaves (π.tell m.state.scope id m.state.stop) m) := by
  have hcount : π.faults ∨ ∃ a m', countStep setting m = .ok a m' := by
    refine h.steps.imp_right fun hnone => ?_
    have hrun : countStep setting m =
        .ok () { m with tally := { m.tally with invocations := m.tally.invocations + 1 } } := by
      simp only [countStep, bind, EStateM.bind, onTally, hnone]
      rfl
    exact ⟨_, _, hrun⟩
  refine ((countStep_standing m).settle hcount).bind ?_
  rintro ⟨⟩ m₁ hstanding
  rw [h.grammar]
  refine Twins.answered_bind h.node ?_
  intro expr hnode
  have hexpr := Grammar.node_ok hnode
  -- from every machine that stands like `m`
  have hafresh : ∀ {n : Machine} {key : Option (MemoKey Fingerprint)}, n.state = m.state →
      Ready π.grammar n → π.Keeps n →
      (∀ k, key = some k → k = keyAt n.state id ∧ memoizes setting expr = true) →
      Twins n (fun _ => π.faults) (evaluate setting call id expr key)
        (evaluate setting call' id expr key)
        (π.Leaves (π.tell m.state.scope id m.state.stop) m) := by
    intro n key hstate hn hkeepsₙ hkey
    have hshape : setting.grammar.shape? id = some expr.shape := by
      rw [h.grammar]
      exact Grammar.shape?_of_node? hexpr
    have hleft : Twins n (· = n.state.scope) (dispatch setting call id expr.shape)
        (dispatch setting call id expr.shape) (Concludes setting.grammar id n) :=
      dispatch_concludes (h.grammar ▸ hcall) hshape (h.grammar ▸ hn)
    have htold := (hdispatch expr n hexpr hstate hn hkeepsₙ).and hleft
    have hrecalls : π.Recalls setting n.state id := hstate ▸ h
    have hstoresₙ : π.Stores setting call n.state id := hstate ▸ hstores
    refine (evaluate_told hrecalls hstoresₙ hn hkeepsₙ hexpr hkey (htold.imp ?_)).imp ?_
    · rintro b m' ⟨hleaves, hconcludes⟩
      exact ⟨hleaves, h.grammar ▸ hconcludes.1⟩
    · intro b m' hleaves
      rw [hstate] at hleaves
      exact hleaves.of_state_eq hstate
  have hready₁ : Ready π.grammar m₁ :=
    hready.of_state_eq (hstanding.memo ▸ hready.memo) hstanding.state
  have hkeeps₁ := hkeeps.of_standing hstanding
  by_cases hmemoizes : memoizes setting expr = true
  · simp only [if_pos hmemoizes]
    have hprint : π.faults ∨ ∃ a m', memoKey id m₁ = .ok a m' := by
      refine hkeeps₁.countersFit.imp_right fun hfit => ?_
      have hprint : fingerprint m₁ = .ok m₁.state.fingerprint m₁ := if_pos hfit
      exact ⟨_, m₁, bind_eq hprint⟩
    refine ((memoKey_eq m₁).settle hprint).bind ?_
    rintro key m₂ ⟨rfl, rfl⟩
    have hconsult : ∃ a m', consult setting (keyAt m₂.state id) m₂ = .ok a m' := by
      rw [consult]
      cases setting.config.memo <;> exact ⟨_, _, rfl⟩
    refine ((consult_held m₂ _).settle (Or.inr hconsult)).bind ?_
    rintro answer m₃ ⟨hstanding₃, hheld⟩
    have hstate₃ : m₃.state = m.state := hstanding₃.state.trans hstanding.state
    have hready₃ : Ready π.grammar m₃ :=
      hready₁.of_state_eq (hstanding₃.memo ▸ hready₁.memo) hstanding₃.state
    have hkeeps₃ := hkeeps₁.of_standing hstanding₃
    cases answer with
    | some o =>
        have hholds : m₃.memo.Holds (keyAt m₃.state id) o := by
          rw [hstanding₃.memo, hstanding₃.state]
          exact hheld o rfl
        have hrecalls : π.Recalls setting m₃.state id := hstate₃ ▸ h
        refine (replayMemo_told hrecalls hkeeps₃ hholds).imp ?_
        intro b m' hleaves
        rw [hstate₃] at hleaves
        exact hleaves.of_state_eq hstate₃
    | none =>
        refine hafresh hstate₃ hready₃ hkeeps₃ ?_
        rintro k ⟨⟩
        exact ⟨by rw [hstanding₃.state], hmemoizes⟩
  · simp only [if_neg hmemoizes]
    exact hafresh hstanding.state hready₁ hkeeps₁ (by rintro k ⟨⟩)

theorem attempt_told (hcall : Obeys π.grammar call call) (h : π.Admits setting m.state id)
    (hready : Ready π.grammar m) (hkeeps : π.Keeps m)
    (hdispatch : ∀ expr m₁, π.grammar.node? id = some expr → m₁.state = m.state →
      Ready π.grammar m₁ → π.Keeps m₁ →
      Twins m₁ (fun _ => π.faults) (dispatch setting call id expr.shape)
        (dispatch setting call' id expr.shape)
        (π.Leaves (π.tell m₁.state.scope id m₁.state.stop) m₁)) :
    Twins m (fun _ => π.faults) (attempt setting call id) (attempt setting call' id)
      (π.Leaves (π.tell m.state.scope id m.state.stop) m) :=
  attempt_recalled hcall h.toRecalls
    (fun expr _ _ _ _ _ _ _ hmemoizes hbare htell _ => h.store expr _ hmemoizes hbare htell)
    hready hkeeps hdispatch

/-- A parse that memoizes nothing, where faults are of no concern. -/
theorem admits_of_none (hgrammar : setting.grammar = π.grammar) (hfaults : π.faults)
    (hconfig : setting.config.memoization = .none) (hentry : ∀ key o, ¬ π.entry key o)
    (hrecorded : ∀ f, π.recorded f) (s : ParseState) (id : ExprId) : π.Admits setting s id where
  grammar := hgrammar
  steps := Or.inl hfaults
  node := Or.inl hfaults
  held := fun o ho => absurd ho (hentry _ o)
  store := by
    intro expr o hmemoizes
    rw [memoizes, hconfig] at hmemoizes
    cases hmemoizes
  record := fun f position _ => hrecorded _

/-- Where faults are of no concern, just what is told may be kept. -/
theorem admits_of_told {s : ParseState} (hgrammar : setting.grammar = π.grammar) (hfaults : π.faults)
    (hrecorded : ∀ f, π.recorded f)
    (hentry : ∀ o, π.entry (keyAt s id) o ↔ π.tell s.scope id s.stop (o.map Changes.found)) :
    π.Admits setting s id where
  grammar := hgrammar
  steps := Or.inl hfaults
  node := Or.inl hfaults
  held := fun o ho => ⟨fun _ _ => Or.inl hfaults, (hentry o).mp ho⟩
  store := fun _ o _ _ htell => (hentry o).mpr htell
  record := fun _ _ _ => hrecorded _

/-- A caller that differs only where nothing may be asked serves as well. -/
theorem Serves.besides (h : π.Serves ask call call) {child : ExprId} {m' : Machine}
    (hagree : ∀ i n, (i, n) ≠ (child, m') → call' i n = call i n)
    (hnot : ¬ (Ready π.grammar m' ∧ π.Keeps m' ∧ ask m'.state.scope child m'.state.stop)) :
    π.Serves ask call call' := by
  refine ⟨h.obeys, ?_⟩
  intro i n hready hkeeps hask
  have htold := h.told i n hready hkeeps hask
  refine ⟨hagree i n ?_, htold.answer, htold.fault⟩
  rintro ⟨⟩
  exact hnot ⟨hready, hkeeps, hask⟩

/-- If a program does the same over all callers that serve, it asks only for what may be asked for. -/
theorem Serves.of_asks (h : π.Serves ask call call) {body : Caller → Matching Bool} {child : ExprId}
    {m' : Machine} (hasks : Engine.Asks body call m child m')
    (hbody : ∀ other, π.Serves ask call other → body other m = body call m) :
    Ready π.grammar m' ∧ π.Keeps m' ∧ ask m'.state.scope child m'.state.stop := by
  obtain ⟨other, hagree, hdiffer⟩ := hasks
  by_contra hnot
  exact hdiffer (hbody other (h.besides hagree hnot))

/-- If every match tells what the protocol says while those one level deeper do, then matches do with
    any nesting.  With no nesting left a match is a fault. -/
theorem serves_invoke (setting : Setting) (ask : Nat → Scope → ExprId → Nat → Prop)
    (hgrammar : setting.grammar = π.grammar) (hzero : ∀ c id p, ask 0 c id p → π.faults)
    (hsucc : ∀ nesting, π.Serves (ask nesting) (invoke setting nesting) (invoke setting nesting) →
      ∀ id m, Ready π.grammar m → π.Keeps m → ask (nesting + 1) m.state.scope id m.state.stop →
        Twins m (fun _ => π.faults) (attempt setting (invoke setting nesting) id)
          (attempt setting (invoke setting nesting) id)
          (π.Leaves (π.tell m.state.scope id m.state.stop) m))
    (nesting : Nat) : π.Serves (ask nesting) (invoke setting nesting) (invoke setting nesting) := by
  have hobeys : ∀ nesting, Obeys π.grammar (invoke setting nesting) (invoke setting nesting) :=
    fun nesting => hgrammar ▸ invoke_obeys setting nesting
  induction nesting with
  | zero =>
      refine ⟨hobeys 0, ?_⟩
      intro id m _ _ hask
      have hfaults := hzero _ id _ hask
      refine ((countStep_standing m).settle (Or.inl hfaults)).bind ?_
      rintro ⟨⟩ m₁ -
      exact Twins.state_bind (Twins.throw hfaults)
  | succ nesting ih => exact ⟨hobeys (nesting + 1), hsucc nesting ih⟩

/-- Where faults are of no concern and whatever is told may be kept, matches tell what shapes do over
    callers that tell what the protocol says. -/
theorem serves_of_dispatch (setting : Setting) (hgrammar : setting.grammar = π.grammar)
    (hfaults : π.faults) (hadmits : ∀ id m, Ready π.grammar m → π.Admits setting m.state id)
    (hdispatch : ∀ {call}, π.Serves ask call call → ∀ {id expr m}, π.grammar.node? id = some expr →
      Ready π.grammar m → π.Keeps m → ask m.state.scope id m.state.stop →
      Twins m (fun _ => π.faults) (dispatch setting call id expr.shape)
        (dispatch setting call id expr.shape) (π.Leaves (π.tell m.state.scope id m.state.stop) m))
    (nesting : Nat) : π.Serves ask (invoke setting nesting) (invoke setting nesting) := by
  refine serves_invoke setting (fun _ => ask) hgrammar (fun _ _ _ _ => hfaults) ?_ nesting
  intro nesting ih id m hready hkeeps hask
  refine attempt_told ih.obeys (hadmits id m hready) hready hkeeps ?_
  intro expr m₁ hnode hstate hready₁ hkeeps₁
  exact hdispatch ih hnode hready₁ hkeeps₁ (hstate ▸ hask)

end Protocol

end Packrat
