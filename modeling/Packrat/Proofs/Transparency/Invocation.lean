import Mathlib.Logic.Relation
import Packrat.Proofs.Transparency.Programs

/-! # A parse without a memo table follows every parse

    An expression that is matched afresh is followed form by form.  One that the memo table answers
    for is followed because the table is faithful: when its outcome was stored, the parse without a
    table found the same from every state with the key.  That is why following is shown for all
    couplings at once: storing an outcome uses it from states that have nothing to do with the
    parse in progress.

    The forms match their children on ready machines only, so the caller may be replaced by one
    that answers on no other machine (`guarded`). -/

namespace Packrat

open Relation Matching Engine

/-! ## Expressions without custom parts -/

namespace Grammar

variable {g : Grammar} {id : ExprId}

def Child (g : Grammar) (id child : ExprId) : Prop :=
  ∃ shape, g.shape? id = some shape ∧ child ∈ shape.children

/-- No custom expression is reachable from `id`. -/
def CustomFree (g : Grammar) (id : ExprId) : Prop :=
  ∀ i, ReflTransGen g.Child id i → ∀ spec children, g.shape? i ≠ some (.custom spec children)

/-- Below a node without custom parts there are none either. -/
theorem CustomFree.children (h : g.CustomFree id) {shape : Shape ExprId}
    (hshape : g.shape? id = some shape) : ∀ child ∈ shape.children, g.CustomFree child := by
  intro child hchild i hreach
  exact h i (hreach.head ⟨shape, hshape, hchild⟩)

/-- What such a node invokes has none. -/
theorem CustomFree.invoked (h : g.CustomFree id) {target : ExprId}
    (hinvokes : g.Invokes id target) : g.CustomFree target := by
  obtain ⟨shape, hshape, hinvokes⟩ := hinvokes
  cases hinvokes with
  | child hchild => exact h.children hshape target hchild
  | named _ => exact absurd hshape (h id .refl _ _)

end Grammar

/-- Expressions on which two parses are compared: with the same slots, those whose programs are
    discreet and whose boundaries leave slots alone; without slots, those without custom parts. -/
structure Coupling.Admits (C : Coupling) (id : ExprId) : Prop where
  slotted : C.slotted = true → C.grammar.SilentBoundaries id
  discreet : C.slotted = true → C.grammar.Discreet id
  blind : C.slotted = false → C.grammar.CustomFree id

/-- What an admitted node invokes is admitted. -/
theorem Coupling.Admits.invoked {C : Coupling} {id target : ExprId} (h : C.Admits id)
    (hinvokes : C.grammar.Invokes id target) : C.Admits target :=
  ⟨fun hslotted => (h.slotted hslotted).invoked hinvokes,
    fun hslotted => (h.discreet hslotted).invoked hinvokes,
    fun hblind => (h.blind hblind).invoked hinvokes⟩

/-! ## Dispatch -/

variable {C : Coupling} {call : Caller} {call' : Nat → Caller} {m n : Machine} {id : ExprId}

/-- Silent expressions leave settled slots of the second parse as they are. -/
theorem Coupling.rests {slots : List Slot} {operands : List ExprId}
    (hsilent : C.slotted = true → ∀ i ∈ operands, C.grammar.Silent i)
    (hsettled : Slots.Settled slots) : C.Rests (fun j => invoke C.setting j) slots operands := by
  refine ⟨hsettled, ?_⟩
  rintro hslotted i hi m n h rfl j b n' hrun
  have hquiet : Quiet C.grammar n.state.slots n := by
    refine ⟨⟨rfl, h.state.seeds.right, fun key d hget => h.state.seeds.bare hget⟩, ?_⟩
    rw [h.empty]
    intro key d hheld
    exact absurd hheld (Table.not_holds_empty key (some d))
  exact ((invoke_quiet C.setting j (hsilent hslotted i hi) hsettled hquiet).answer hrun).state.slots

/-- Every shape of an admitted node is followed, by the lemma of its form. -/
theorem dispatch_follows (hcall : C.Simulates C.Admits call fun j => invoke C.setting j)
    (c : Config) {shape : Shape ExprId} (hshape : C.grammar.shape? id = some shape)
    (hadmits : C.Admits id) (hsettled : Slots.Settled n.state.slots) (h : C.Coupled m n) :
    Follows m n (dispatch ⟨C.grammar, C.text, c⟩ call id shape)
      (fun j => dispatch C.setting (invoke C.setting j) id shape) C.Agree := by
  have hinvoked : ∀ target, shape.Invokes target → C.Admits target :=
    fun _ hinvokes => hadmits.invoked ⟨shape, hshape, hinvokes⟩
  have hchildren : ∀ child ∈ shape.children, C.Admits child :=
    fun child hchild => hinvoked child (.child hchild)
  have hoperand : ∀ operand, shape.children = [operand] → C.Admits operand := by
    intro operand honly
    exact hchildren operand (honly ▸ List.mem_singleton_self operand)
  have hrests : shape.isBoundary = true →
      C.Rests (fun j => invoke C.setting j) n.state.slots shape.children := by
    intro hshaped
    refine Coupling.rests (fun hslotted => ?_) hsettled
    have hboundary : C.grammar.isBoundary id = true := by
      rw [Grammar.isBoundary, hshape]
      exact hshaped
    exact (hadmits.slotted hslotted id .refl hboundary).children hshape
  refine Follows.state_bind ?_
  rw [h.state.stop]
  cases shape with
  | literal literal => exact Combinators.terminal_follows h _
  | any => exact Combinators.terminal_follows h _
  | range lo hi => exact Combinators.terminal_follows h _
  | set members => exact Combinators.terminal_follows h _
  | sequence items => exact Combinators.sequence_follows hcall items hchildren h
  | choice items => exact Combinators.choice_follows hcall items hchildren h
  | optional operand => exact Combinators.optional_follows hcall (hoperand operand rfl) h
  | zeroMore operand =>
      exact Combinators.repetition_follows hcall _ 0 (hoperand operand rfl) h
  | oneMore operand =>
      exact Combinators.repetition_follows hcall _ 1 (hoperand operand rfl) h
  | lookahead operand =>
      exact Combinators.lookahead_follows hcall (hoperand operand rfl) h
  | not operand =>
      exact Combinators.negation_follows hcall (hoperand operand rfl) h
  | token operand =>
      exact Combinators.token_follows hcall _ _ c _ (hoperand operand rfl) h
  | capture operand mode =>
      exact Combinators.capture_follows hcall _ (hoperand operand rfl) mode h
  | leftRecursive operand assoc =>
      exact Growth.leftRecursive_follows hcall _ id (hoperand operand rfl) (hrests rfl) assoc h
  | cluster groups =>
      refine Growth.cluster_follows hcall _ id groups ?_ (hrests rfl) h
      intro group hgroup i hi
      exact hchildren i (List.mem_flatMap.mpr ⟨group, hgroup, hi⟩)
  | minPrecedence operand floor =>
      exact Growth.minPrecedence_follows hcall (hoperand operand rfl) floor h
  | reference name => exact Follows.throw
  | custom spec children =>
      cases hslotted : C.slotted with
      | true =>
          refine Programs.custom_follows hslotted hcall _ _ c _ id hinvoked ?_ h
          intro i hi
          exact hadmits.discreet hslotted i ⟨id, spec, children, .refl, hshape, hi⟩
      | false => exact absurd hshape (hadmits.blind hslotted id .refl spec children)

/-! ## Around the dispatch -/

variable {setting : Setting} {expr : Expr} {b : Bool} {m' : Machine}

/-- An expression evaluated: its shape was matched, and at most its outcome was stored.  What comes
    after the shape does not depend on the caller. -/
theorem evaluate_ok {key : Option (MemoKey Fingerprint)}
    (h : evaluate setting call id expr key m = .ok b m') :
    ∃ m₁, dispatch setting call id expr.shape m = .ok b m₁ ∧ m'.state = m₁.state ∧
      m'.failures = m₁.failures.after m₁.state id expr b ∧
      (∀ k o, m'.memo.Holds k o → m₁.memo.Holds k o ∨ key = some k ∧ o = outcomeOf b m₁.state) ∧
      ∀ call, dispatch setting call id expr.shape m = .ok b m₁ →
        evaluate setting call id expr key m = .ok b m' := by
  obtain ⟨matched, m₁, hdispatch, h⟩ := bind_ok h
  have hagain : ∀ call, dispatch setting call id expr.shape m = .ok matched m₁ →
      evaluate setting call id expr key m = .ok b m' :=
    fun call hsame => (bind_eq hsame).trans h
  -- the end of the program, from any machine
  have hend : ∀ {m₂ : Machine}, (if !matched then do recordFailure setting id expr; pure matched
      else pure matched : Matching Bool) m₂ = .ok b m' →
      b = matched ∧ m'.state = m₂.state ∧ m'.memo = m₂.memo ∧
        m'.failures = m₂.failures.after m₂.state id expr matched := by
    intro m₂ hrun
    cases matched with
    | true =>
        cases hrun
        exact ⟨rfl, rfl, rfl, rfl⟩
    | false =>
        obtain ⟨⟨⟩, m₃, hrecord, hpure⟩ := bind_ok hrun
        obtain ⟨hstate, hmemo, hfailures⟩ := (recordFailure_records m₂ expr).answer hrecord
        cases hpure
        exact ⟨rfl, hstate, hmemo, hfailures⟩
  cases key with
  | none =>
      obtain ⟨rfl, hstate, hmemo, hfailures⟩ := hend h
      refine ⟨m₁, hdispatch, hstate, hfailures, ?_, hagain⟩
      intro k o hheld
      exact Or.inl (hmemo ▸ hheld)
  | some key =>
      obtain ⟨⟨⟩, m₂, htally, h⟩ := bind_ok h
      cases htally
      obtain ⟨s, m₂, hstate, h⟩ := bind_ok h
      cases hstate
      obtain ⟨⟨⟩, m₂, hstore, h⟩ := bind_ok h
      obtain ⟨hstate₂, hfailures₂, hheld₂⟩ := (store_held setting _ _ _).answer hstore
      obtain ⟨rfl, hstate, hmemo, hfailures⟩ := hend h
      refine ⟨m₁, hdispatch, hstate.trans hstate₂, ?_, ?_, hagain⟩
      · rw [hfailures, hstate₂, hfailures₂]
      · intro k o hheld
        rw [hmemo] at hheld
        rcases hheld₂ k o hheld with ⟨rfl, ho⟩ | hold
        · exact Or.inr ⟨rfl, ho⟩
        · exact Or.inl hold

/-- The memo table answered for `id`, as it does whatever the caller is. -/
structure Answered (setting : Setting) (id : ExprId) (expr : Expr) (m : Machine) (matched : Bool)
    (m' : Machine) (o : Option Changes) : Prop where
  held : m.memo.Holds (keyAt m.state id) o
  matched_eq : matched = o.isSome
  state : m'.state = m.state.replayed o
  memo : m'.memo = m.memo
  failures : m'.failures = m.failures.after m.state id expr matched
  again : ∀ call, attempt setting call id m = .ok matched m'

/-- The shape of `id` was matched afresh, from a machine that stood like `m`, and left `m₂`.  Any
    caller over which the shape does the same comes out the same. -/
structure Evaluated (setting : Setting) (call : Caller) (id : ExprId) (expr : Expr) (m : Machine)
    (matched : Bool) (m' m₁ m₂ : Machine) : Prop where
  standing : Standing m m₁
  dispatched : dispatch setting call id expr.shape m₁ = .ok matched m₂
  state : m'.state = m₂.state
  failures : m'.failures = m₂.failures.after m₂.state id expr matched
  memo : ∀ k o, m'.memo.Holds k o → m₂.memo.Holds k o ∨
    memoizes setting expr = true ∧ k = keyAt m.state id ∧ o = outcomeOf matched m₂.state
  again : ∀ call, dispatch setting call id expr.shape m₁ = .ok matched m₂ →
    attempt setting call id m = .ok matched m'

/-- A replayed answer changes the state by what was stored, and the table not at all. -/
theorem replayMemo_ok {o : Option Changes} (h : replayMemo setting id expr o m = .ok b m') :
    b = o.isSome ∧ m'.state = m.state.replayed o ∧ m'.memo = m.memo ∧
      m'.failures = m.failures.after m.state id expr b := by
  obtain ⟨⟨⟩, m₁, htally, h⟩ := bind_ok h
  cases htally
  cases o with
  | some c =>
      obtain ⟨⟨⟩, m₂, hmerge, h⟩ := bind_ok h
      cases h
      rw [merge, Matching.transition] at hmerge
      split at hmerge
      · cases hmerge
        exact ⟨rfl, rfl, rfl, rfl⟩
      · cases hmerge
  | none =>
      obtain ⟨⟨⟩, m₂, hrecord, h⟩ := bind_ok h
      obtain ⟨hstate, hmemo, hfailures⟩ := (recordFailure_records _ expr).answer hrecord
      cases h
      exact ⟨rfl, hstate, hmemo, hfailures⟩

/-- A match that answered: the memo table did, or the shape was matched afresh. -/
theorem attempt_ok (h : attempt setting call id m = .ok b m') :
    ∃ expr, setting.grammar.node? id = some expr ∧
      ((∃ o, Answered setting id expr m b m' o) ∨
        ∃ m₁ m₂, Evaluated setting call id expr m b m' m₁ m₂) := by
  obtain ⟨⟨⟩, m₀, hcount, hcounted⟩ := bind_ok h
  have hstanding := (countStep_standing m).answer hcount
  obtain ⟨expr, m₁, hlift, hrest⟩ := bind_ok hcounted
  obtain ⟨hnode, rfl⟩ := lift_ok hlift
  refine ⟨expr, Grammar.node_ok hnode, ?_⟩
  by_cases hmemoizes : memoizes setting expr = true
  · simp only [if_pos hmemoizes] at hrest
    obtain ⟨key, m₂, hkey, hkeyed⟩ := bind_ok hrest
    obtain ⟨rfl, rfl⟩ := (memoKey_eq m₁).answer hkey
    obtain ⟨answer, m₃, hconsult, hanswered⟩ := bind_ok hkeyed
    obtain ⟨hstanding₃, hheld⟩ := (consult_held _ _).answer hconsult
    cases answer with
    | some o =>
        have hagain : ∀ call, attempt setting call id m = replayMemo setting id expr o m₃ := by
          intro call
          refine (bind_eq hcount).trans ((bind_eq hlift).trans ?_)
          simp only [if_pos hmemoizes]
          exact (bind_eq hkey).trans (bind_eq hconsult)
        obtain ⟨hmatched, hstate, hmemo, hfailures⟩ := replayMemo_ok hanswered
        refine Or.inl ⟨o, ?_, hmatched, ?_, ?_, ?_, fun call => (hagain call).trans hanswered⟩
        · rw [← hstanding.memo, ← hstanding.state]
          exact hheld o rfl
        · rw [hstate, hstanding₃.state, hstanding.state]
        · rw [hmemo, hstanding₃.memo, hstanding.memo]
        · rw [hfailures, hstanding₃.failures, hstanding₃.state, hstanding.failures,
            hstanding.state]
    | none =>
        have hagain : ∀ call, attempt setting call id m =
            evaluate setting call id expr (some (keyAt m₂.state id)) m₃ := by
          intro call
          refine (bind_eq hcount).trans ((bind_eq hlift).trans ?_)
          simp only [if_pos hmemoizes]
          exact (bind_eq hkey).trans (bind_eq hconsult)
        obtain ⟨m₄, hdispatch, hstate, hfailures, hmemo, hsame⟩ := evaluate_ok hanswered
        refine Or.inr ⟨m₃, m₄, ?_, hdispatch, hstate, hfailures, ?_,
          fun call hrun => (hagain call).trans (hsame call hrun)⟩
        · exact ⟨hstanding₃.state.trans hstanding.state, hstanding₃.memo.trans hstanding.memo,
            hstanding₃.failures.trans hstanding.failures⟩
        · intro k o hk
          rcases hmemo k o hk with hold | ⟨hkey, ho⟩
          · exact Or.inl hold
          · rw [hstanding.state] at hkey
            exact Or.inr ⟨hmemoizes, (Option.some.inj hkey).symm, ho⟩
  · simp only [if_neg hmemoizes] at hrest
    have hagain : ∀ call, attempt setting call id m = evaluate setting call id expr none m₁ := by
      intro call
      refine (bind_eq hcount).trans ((bind_eq hlift).trans ?_)
      simp only [if_neg hmemoizes]
    obtain ⟨m₄, hdispatch, hstate, hfailures, hmemo, hsame⟩ := evaluate_ok hrest
    refine Or.inr ⟨m₁, m₄, hstanding, hdispatch, hstate, hfailures, ?_,
      fun call hrun => (hagain call).trans (hsame call hrun)⟩
    intro k o hk
    rcases hmemo k o hk with hold | ⟨hkey, -⟩
    · exact Or.inl hold
    · cases hkey

/-! ## Without a memo table -/

/-- The machine once the failure of `id`, if it failed, is recorded. -/
def concluded (n : Machine) (id : ExprId) (expr : Expr) (matched : Bool) : Machine :=
  { n with failures := n.failures.after n.state id expr matched }

/-- A node that is not memoized ends by recording its failure. -/
theorem conclude_unmemoized (C : Coupling) (n : Machine) (id : ExprId) (expr : Expr) (b : Bool) :
    (if !b then do recordFailure C.setting id expr; pure b else pure b : Matching Bool) n =
      .ok b (concluded n id expr b) := by
  cases b with
  | true => rfl
  | false =>
      have hrecord : recordFailure C.setting id expr n = .ok () (concluded n id expr false) := by
        show (if n.state.recording && expr.flags.recordErrors then _ else _ : Matching Unit) n = _
        rw [concluded, Failures.after]
        by_cases hrecords : (n.state.recording && expr.flags.recordErrors) = true
        · simp only [hrecords, if_true, Bool.not_false, Bool.and_self]
          rfl
        · simp only [hrecords, Bool.and_false, Bool.false_eq_true, if_false]
          rfl
      exact bind_eq hrecord

/-- A parse that keeps no outcome matches the shape of every expression afresh, and hands the
    outcome over unless the expression is a terminal. -/
theorem attempt_unmemoized (C : Coupling) (hnode : C.grammar.node? id = some expr)
    (hfit : n.state.countersFit = true) :
    ∃ n₁, Standing n n₁ ∧ n.log <:+ n₁.log ∧ ∀ b n₂, ∃ n',
      (∀ call, dispatch C.setting call id expr.shape n₁ = .ok b n₂ →
        attempt C.setting call id n = .ok b n') ∧
      n'.state = n₂.state ∧ n'.memo = n₂.memo ∧
      n'.failures = n₂.failures.after n₂.state id expr b ∧ n₂.log <:+ n'.log ∧
      (expr.shape.isTerminal = false →
        .store (keyAt n.state id) (outcomeOf b n₂.state) ∈ n'.log) := by
  -- the match is counted, and the expression looked up
  let n₀ : Machine := { n with tally := { n.tally with invocations := n.tally.invocations + 1 } }
  have hcount : countStep C.setting n = .ok () n₀ := rfl
  have hlift : lift (C.setting.grammar.node id) n₀ = .ok expr n₀ := by
    show lift (C.grammar.node id) n₀ = _
    rw [Grammar.node_eq hnode]
    rfl
  cases hterm : expr.shape.isTerminal with
  | true =>
      have hmemoizes : memoizes C.setting expr = false := by
        show (!expr.shape.isTerminal) = false
        rw [hterm]
        rfl
      refine ⟨n₀, ⟨rfl, rfl, rfl⟩, List.suffix_rfl, ?_⟩
      intro b n₂
      refine ⟨concluded n₂ id expr b, ?_, rfl, rfl, rfl, List.suffix_rfl, by simp⟩
      intro call hdispatch
      refine ((bind_eq hcount).trans (bind_eq hlift)).trans ?_
      rw [hmemoizes]
      exact (bind_eq hdispatch).trans (conclude_unmemoized C n₂ id expr b)
  | false =>
      have hmemoizes : memoizes C.setting expr = true := by
        show (!expr.shape.isTerminal) = true
        rw [hterm]
        rfl
      let key := keyAt n.state id
      let n₁ : Machine := { n₀ with log := .lookup key none :: n.log }
      refine ⟨n₁, ⟨rfl, rfl, rfl⟩, List.suffix_cons _ _, ?_⟩
      intro b n₂
      let n₃ : Machine := { n₂ with
        tally := { n₂.tally with memoMisses := n₂.tally.memoMisses + 1 }
        log := .store key (outcomeOf b n₂.state) :: n₂.log }
      refine ⟨concluded n₃ id expr b, ?_, rfl, rfl, rfl, List.suffix_cons _ _, ?_⟩
      · intro call hdispatch
        have hkey : memoKey id n₀ = .ok key n₀ := by
          have hprint : fingerprint n₀ = .ok n.state.fingerprint n₀ := if_pos hfit
          exact bind_eq hprint
        have hconsult : consult C.setting key n₀ = .ok none n₁ := rfl
        have hstore : store C.setting key (outcomeOf b n₂.state)
            { n₂ with tally := { n₂.tally with memoMisses := n₂.tally.memoMisses + 1 } } =
            .ok () n₃ := rfl
        refine ((bind_eq hcount).trans (bind_eq hlift)).trans ?_
        rw [hmemoizes]
        refine ((bind_eq hkey).trans (bind_eq hconsult)).trans ((bind_eq hdispatch).trans ?_)
        show (store C.setting key (outcomeOf b n₂.state) >>= fun _ =>
          (if !b then do recordFailure C.setting id expr; pure b else pure b : Matching Bool)) _ = _
        exact (bind_eq hstore).trans (conclude_unmemoized C n₃ id expr b)
      · intro _
        exact List.mem_cons_self ..

/-! ## Callers on ready machines -/

open Classical in
/-- A caller that answers on ready machines only. -/
noncomputable def guarded (g : Grammar) (call : Caller) : Caller := fun id m =>
  if Ready g m then call id m else .error (.crash .slotRefusal) m

/-- Asking only on ready machines asks no more than the contract. -/
theorem guarded_obeys {g : Grammar} (h : Obeys g call call) : Obeys g call (guarded g call) :=
  h.of_agree fun _ _ hready => if_pos hready

/-- On a ready machine all children are invoked on ready machines, so the guard is never seen. -/
theorem dispatch_guarded (setting : Setting) (h : Obeys setting.grammar call call)
    {shape : Shape ExprId} (hshape : setting.grammar.shape? id = some shape)
    (hready : Ready setting.grammar m) :
    dispatch setting (guarded setting.grammar call) id shape m = dispatch setting call id shape m :=
  (dispatch_concludes (guarded_obeys h) hshape hready).same

/-- On ready machines, the second caller follows the first. -/
def SimulatesReady (C : Coupling) (call : Caller) (call' : Nat → Caller) : Prop :=
  ∀ id m n, C.Admits id → Ready C.grammar m → C.Coupled m n →
    Follows m n (call id) (fun j => call' j id) C.Agree

/-- So the simulation may assume that machines are ready. -/
theorem guarded_simulates (h : SimulatesReady C call call') :
    C.Simulates C.Admits (guarded C.grammar call) call' := by
  intro id m n hadmits hcoupled a m' hx
  rw [guarded] at hx
  split at hx
  · rename_i hready
    exact h id m n hadmits hready hcoupled a m' hx
  · cases hx

/-! ## Expressions matched afresh -/

theorem Engine.Standing.ready {g : Grammar} {m₁ : Machine} (h : Standing m m₁) (hready : Ready g m) :
    Ready g m₁ := by
  refine hready.of_state_eq ?_ h.state
  rw [h.memo]
  exact hready.memo

/-- A terminal adds no captures. -/
theorem dispatch_terminal {shape : Shape ExprId} (hterminal : shape.isTerminal = true)
    (h : dispatch setting call id shape m = .ok b m') : m'.state.captures = m.state.captures := by
  have hall : ∀ stop, Combinators.terminal stop m = .ok b m' →
      m'.state.captures = m.state.captures := by
    intro stop hrun
    cases stop with
    | none =>
        cases hrun
        rfl
    | some stop =>
        cases hrun
        rfl
  cases shape with
  | literal literal => exact hall _ h
  | any => exact hall _ h
  | range lo hi => exact hall _ h
  | set members => exact hall _ h
  | _ => cases hterminal

theorem isTerminal_eq {g : Grammar} (hnode : g.node? id = some expr) :
    g.isTerminal id = expr.shape.isTerminal := by
  rw [Grammar.isTerminal, Grammar.shape?_of_node? hnode]
  rfl

/-- Coupled machines stay coupled while only counts and tables change. -/
theorem Coupling.Coupled.standing {m₁ n₁ : Machine} (h : C.Coupled m n) (hm : Standing m m₁)
    (hn : Standing n n₁) (hlog : n.log <:+ n₁.log) : C.Coupled m₁ n₁ := by
  refine ⟨?_, hn.memo.trans h.empty, ?_, ?_⟩
  · rw [hm.state, hn.state]
    exact Coupling.alike_later h.state hlog
  · rw [hm.failures, hn.failures, hm.memo]
    exact h.recorded
  · rw [hm.memo]
    exact fun hexact => h.recalls (C.exact_of_suffix hlog hexact)

/-- The run of the second parse beside an expression that the first matched afresh. -/
theorem evaluated_follows {c : Config} {m₁ m₂ : Machine} (hobeys : Obeys C.grammar call call)
    (hcall : SimulatesReady C call fun j => invoke C.setting j) (hadmits : C.Admits id)
    (hready : Ready C.grammar m) (h : C.Coupled m n) (hnode : C.grammar.node? id = some expr)
    (hevaluated : Evaluated ⟨C.grammar, C.text, c⟩ call id expr m b m' m₁ m₂) :
    ∃ n₂ n' k, (∀ j, k ≤ j → invoke C.setting j id n = .ok b n') ∧ n.log <:+ n'.log ∧
      C.Coupled m₂ n₂ ∧ n₂.log <:+ n'.log ∧ n'.state = n₂.state ∧ n'.memo = n₂.memo ∧
      n'.failures = n₂.failures.after n₂.state id expr b ∧ Handed C.grammar id n b n' := by
  have hshape := Grammar.shape?_of_node? hnode
  obtain ⟨hsettled, hfit⟩ := h.state.settled_slots hready.settled.slots
  obtain ⟨n₁, hstanding, hlog₁, hfinish⟩ := attempt_unmemoized C hnode hfit
  have hready₁ := hevaluated.standing.ready hready
  have hguarded : dispatch ⟨C.grammar, C.text, c⟩ (guarded C.grammar call) id expr.shape m₁ =
      .ok b m₂ :=
    (dispatch_guarded ⟨C.grammar, C.text, c⟩ hobeys hshape hready₁).trans hevaluated.dispatched
  have h₁ := h.standing hevaluated.standing hstanding hlog₁
  obtain ⟨_, n₂, k, hrun, hlog₂, rfl, h₂⟩ :=
    dispatch_follows (guarded_simulates hcall) c hshape hadmits (hstanding.state ▸ hsettled) h₁ b m₂
      hguarded
  obtain ⟨n', hattempt, hstate, hmemo, hfailures, hlog', hstore⟩ := hfinish b n₂
  refine ⟨n₂, n', k + 1, ?_, (hlog₁.trans hlog₂).trans hlog', h₂, hlog', hstate, hmemo, hfailures,
    ?_⟩
  · intro j hj
    obtain ⟨i, rfl⟩ : ∃ i, j = i + 1 := ⟨j - 1, by omega⟩
    exact hattempt _ (hrun i (by omega))
  · rw [Handed, isTerminal_eq hnode]
    cases hterm : expr.shape.isTerminal with
    | true =>
        have hcaptures := dispatch_terminal hterm (hrun k le_rfl)
        simp only [if_true]
        rw [hstate, hcaptures, hstanding.state]
    | false =>
        simp only [Bool.false_eq_true, if_false]
        rw [hstate]
        exact hstore hterm

/-- Failures recorded at the end of corresponding matches stay related. -/
theorem Coupling.failures_after (C : Coupling) {failures : Failures} {f f' : Farthest}
    {s t : ParseState} {exact : Prop} (hst : s.Alike C.slotted exact t)
    (h : C.reports → failures = .farthest f ∧ C.failures f f') (id : ExprId) (expr : Expr)
    (matched : Bool) :
    ∃ f₁ f₁', (C.reports → failures.after s id expr matched = .farthest f₁ ∧ C.failures f₁ f₁') ∧
      (Failures.farthest f').after t id expr matched = .farthest f₁' ∧
      ∀ σ slotted reports key o, Faithful σ slotted reports f key o →
        Faithful σ slotted reports f₁ key o := by
  rw [Failures.after, Failures.after, hst.recording, hst.stop]
  split
  · refine ⟨f.record id t.stop, f'.record id t.stop, ?_, rfl, ?_⟩
    · intro hreports
      obtain ⟨rfl, hrelated⟩ := h hreports
      exact ⟨rfl, C.failures_record hrelated⟩
    · exact fun σ slotted reports key o hfaithful => hfaithful.record id t.stop
  · exact ⟨f, f', h, rfl, fun _ _ _ _ _ hfaithful => hfaithful⟩

/-- A coupling that follows from an unrelated machine, on which `f₀` is recorded: all that matters
    is that every further failure is covered. -/
def Coupling.sideways (C : Coupling) (f₀ : Farthest) : Coupling :=
  .loose C.grammar C.text C.depth C.slotted C.reports (fun f f' => f.Repeats f₀ f')
    (fun h => .record (h.mono _ _) (Farthest.covers_record_self _ _ _)) fun h hcovers =>
      .record h hcovers

/-- A record of failures is of the farthest kind before it is afterwards. -/
theorem Failures.record_eq_farthest {failures : Failures} {f : Farthest} {position : Nat}
    (h : failures.record id position = .farthest f) : ∃ f₀ : Farthest, f = f₀.record id position := by
  cases failures with
  | farthest f₀ =>
      cases h
      exact ⟨f₀, rfl⟩
  | first failure => cases failure <;> cases h
  | silent => cases h

/-- What an expression left is what replaying its outcome leaves, from any state with the key. -/
theorem alike_replayed {slotted : Bool} {e e₁ e₂ : Prop} {s s₁ s₂ t t₁ t₂ : ParseState}
    (h₂ : s₂.Alike slotted e₂ t₂) (h : s.Alike slotted e t) (h₁ : s₁.Alike slotted e₁ t₁)
    (hanswer : Answers s₁ b s₂) (hkey : keyAt s id = keyAt s₁ id) (hs : s.Settled)
    (hs₁ : s₁.Settled) : (s.replayed (outcomeOf b s₂)).Alike slotted False t₂ := by
  cases b with
  | false =>
      obtain rfl : s₂ = s₁ := hanswer
      exact h₂.of_key h hkey hs₁ hs
  | true =>
      have hkept : s₁.Kept s₂ := hanswer
      obtain ⟨hseeds, hfloors, hrecording⟩ := ParseState.eq_of_scope hkept.scope
      have hstop : s.stop = s₁.stop := congrArg MemoKey.position hkey
      have hprint := congrArg MemoKey.print hkey
      refine ⟨?_, h₂.stop, ?_, ?_, ?_, ?_, False.elim⟩
      · show s.start = t₂.start
        rw [hs.positions, hstop, ← hs₁.positions, ← hkept.start, h₂.start]
      · exact (congrArg Fingerprint.recording hprint).trans (hrecording.symm.trans h₂.recording)
      · exact (congrArg Fingerprint.floors hprint).trans (hfloors.symm.trans h₂.floors)
      · refine h₂.seeds.of_digest h.seeds ?_
        rw [hseeds]
        exact congrArg Fingerprint.seeds hprint
      · show Slots.Alike slotted (Slots.merge s.slots (s₂.slots.map Slot.extract)) t₂.slots
        have hprints : s.slots.map Slot.print = s₁.slots.map Slot.print :=
          congrArg Fingerprint.slots hprint
        exact h₂.slots.merge_extract h₁.slots h.slots hprints hs₁.slots hs.slots hkept.slots

/-- The outcome of an expression that was matched afresh is faithful. -/
theorem evaluated_faithful {c : Config} {m₁ m₂ : Machine} {f : Farthest}
    (hobeys : Obeys C.grammar call call)
    (hcall : ∀ f₀, SimulatesReady (C.sideways f₀) call fun j => invoke C.setting j)
    (hadmits : C.Admits id) (hready : Ready C.grammar m) (h : C.Coupled m n)
    (hnode : C.grammar.node? id = some expr)
    (hevaluated : Evaluated ⟨C.grammar, C.text, c⟩ call id expr m b m' m₁ m₂)
    (hanswer : Answers m.state b m₂.state) (hf : C.reports → m'.failures = .farthest f) :
    Faithful C.setting C.slotted C.reports f (keyAt m.state id) (outcomeOf b m₂.state) := by
  obtain ⟨f₀, _, hf₀, -, hfaithful⟩ := h.recorded
  refine ⟨?_, ?_⟩
  · intro s n f' hkey hs hst hmemo hf'
    have hcoupled : (C.sideways f').Coupled m n := by
      refine ⟨?_, hmemo, ⟨f₀, f', fun hreports => ⟨(hf₀ hreports).1, .none⟩, hf', hfaithful⟩,
        False.elim⟩
      exact hst.of_key h.state hkey.symm hs hready.settled
    obtain ⟨n₂, n', k, hrun, hlog, h₂, -, hstate, hmemo', hfailures, hhanded⟩ :=
      evaluated_follows (C := C.sideways f') hobeys (hcall f') ⟨hadmits.slotted, hadmits.discreet, hadmits.blind⟩
        hready hcoupled hnode hevaluated
    refine ⟨n', k, ?_, hlog, ?_, hmemo'.trans h₂.empty, ?_, ?_⟩
    · rw [isSome_outcomeOf]
      exact hrun
    · rw [hstate]
      exact alike_replayed h₂.state hst h.state hanswer hkey hs hready.settled
    · rw [isSome_outcomeOf]
      exact hhanded
    · obtain ⟨f₂, f₂', hf₂, hf₂', -⟩ := h₂.recorded
      obtain ⟨f₃, f₃', hafter, hafter', -⟩ := (C.sideways f').failures_after h₂.state hf₂ id expr b
      refine ⟨f₃', ?_, ?_⟩
      · rw [hfailures, hf₂', hafter']
      · intro hreports
        obtain ⟨hf₃, hrepeats⟩ := hafter hreports
        rw [← hevaluated.failures, hf hreports] at hf₃
        cases hf₃
        exact hrepeats
  · intro hreports expr' hexpr ho hrecording hflag
    obtain rfl : expr = expr' := Option.some.inj (hnode.symm.trans hexpr)
    cases b with
    | true => cases ho
    | false =>
        have heq : m₂.state = m.state := hanswer
        have hrecords : (m₂.state.recording && expr.flags.recordErrors) = true := by
          rw [heq, hflag, Bool.and_true]
          exact hrecording
        have hlast := hf hreports
        rw [hevaluated.failures, Failures.after, hrecords] at hlast
        obtain ⟨f₂, rfl⟩ := Failures.record_eq_farthest hlast
        rw [heq]
        exact f₂.covers_record_self id m.state.stop

/-! ## Expressions that the memo table answers for -/

/-- The second of coupled machines is ready if the first is, where they are alike exactly. -/
theorem Coupling.Coupled.ready_right (h : C.Coupled m n) (hexact : C.exact n.log)
    (hready : Ready C.grammar m) : Ready C.grammar n := by
  refine ⟨h.state.settled hexact hready.settled, ⟨h.state.seeds.right, ?_⟩, ?_⟩
  · show n.state.floors.Canonical
    rw [← h.state.floors]
    exact hready.canonical.floors
  · rw [h.empty]
    intro key c hheld
    exact absurd hheld (Table.not_holds_empty key (some c))

/-- What was added to a settled buffer. -/
theorem captures_eq_merge {s t : ParseState} (hs : s.Settled) (h : s.Kept t) :
    t.captures = s.captures.merge t.extract.captures := by
  have hnodes : t.captures.nodes = s.captures.nodes ++ t.captures.nodes.drop s.captures.length := by
    have htake : s.captures.nodes = t.captures.nodes.take s.captures.length :=
      List.prefix_iff_eq_take.mp h.nodes
    conv => lhs; rw [← List.take_append_drop s.captures.length t.captures.nodes, ← htake]
  have hcommitted := h.committed
  have hextract : t.extract.captures = t.captures.nodes.drop s.captures.length := by
    show t.captures.nodes.drop t.captures.committed = _
    rw [hcommitted, hs.captures]
  rw [hextract, CaptureBuffer.merge, ← hnodes, ← hcommitted]

/-- As long as the condition on the log holds, the memo table answers with the right captures. -/
theorem answered_exact {o : Option Changes} {n' : Machine} {k : Nat} (h : C.Coupled m n)
    (hready : Ready C.grammar m) (hanswered : Answered setting id expr m b m' o)
    (hrun : invoke C.setting k id n = .ok o.isSome n') (hlog : n.log <:+ n'.log)
    (hinexact : (m.state.replayed o).Alike C.slotted False n'.state)
    (hhanded : Handed C.grammar id n o.isSome n') (hexact : C.exact n'.log) :
    (m.state.replayed o).Alike C.slotted True n'.state := by
  have hbefore : C.exact n.log := C.exact_of_suffix hlog hexact
  have hblind := C.slotted_of_exact hexact
  rw [hblind] at hinexact ⊢
  have hst : m.state.Alike false True n.state := hblind ▸ h.state.mono fun _ => hbefore
  have hready' := h.ready_right hbefore hready
  have hleft := (invoke_obeys C.setting k id n hready').answer hrun
  have hrecalls := h.recalls hbefore _ o hanswered.held
  cases o with
  | none =>
      have heq : n'.state = n.state := hleft.2
      rw [heq]
      exact hst
  | some c =>
      have hkept : n.state.Kept n'.state := hleft.2
      obtain ⟨hseeds, -, -⟩ := ParseState.eq_of_scope hkept.scope
      have hcaptures : n'.state.captures = n.state.captures.merge c.captures := by
        rw [Handed] at hhanded
        have hrecalls : if C.grammar.isTerminal id then ∀ d, some c = some d → d.captures = []
            else C.kept id ∧ C.outcome (keyAt m.state id).plain (some c.plain) := hrecalls
        by_cases hterm : C.grammar.isTerminal id = true
        · rw [if_pos hterm] at hhanded hrecalls
          rw [hhanded, hrecalls c rfl, CaptureBuffer.merge, List.append_nil]
        · -- both parses handed over the outcome for this key, so it is the same
          rw [if_neg hterm] at hhanded hrecalls
          obtain ⟨hkeeps, hrecalled⟩ := hrecalls
          have hfound := C.outcome_of_mem hexact hhanded
          rw [hst.keyAt_eq] at hfound
          have hsame : c.plain = n'.state.extract :=
            Option.some.inj (C.outcome_unique hkeeps hrecalled hfound)
          rw [captures_eq_merge hready'.settled hkept, ← hsame]
          rfl
      refine ⟨hinexact.start, hinexact.stop, hinexact.recording, hinexact.floors, ?_,
        hinexact.slots, ?_⟩
      · rw [hseeds]
        exact hst.seeds
      · intro _
        rw [hcaptures, ← hst.captures trivial]
        rfl

/-- Failures that the second parse records again, having covered them, are not seen. -/
theorem Coupling.failures_repeats (C : Coupling) {f f₁ f₂ : Farthest} (h : C.failures f f₁)
    (hrepeats : f.Repeats f₁ f₂) : C.failures f f₂ := by
  induction hrepeats with
  | none => exact h
  | record _ hcovers ih => exact C.failures_again ih hcovers

/-- A node that the table answers for is matched afresh by the second parse, with the same answer:
    the table is faithful. -/
theorem answered_follows {o : Option Changes} (h : C.Coupled m n) (hready : Ready C.grammar m)
    (hnode : C.grammar.node? id = some expr) (hanswered : Answered setting id expr m b m' o) :
    ∃ n' k, (∀ j, k ≤ j → invoke C.setting j id n = .ok b n') ∧ n.log <:+ n'.log ∧
      C.Coupled m' n' := by
  obtain ⟨f, f', hf, hf', hfaithful⟩ := h.recorded
  have hentry := hfaithful _ o hanswered.held
  obtain ⟨n', k, hrun, hlog, hst, hmemo, hhanded, f₂, hf₂, hrepeats⟩ :=
    hentry.finds m.state n f' rfl hready.settled (h.state.mono False.elim) h.empty hf'
  refine ⟨n', k, ?_, hlog, ?_, hmemo, ?_, ?_⟩
  · rw [hanswered.matched_eq]
    exact hrun
  · rw [hanswered.state]
    refine hst.of_exact ?_
    exact answered_exact h hready hanswered (hrun k le_rfl) hlog hst hhanded
  · -- a failure that is answered for was recorded before
    have hsame : C.reports → m'.failures = .farthest f := by
      intro hreports
      rw [hanswered.failures, (hf hreports).1, Failures.after]
      split
      · rename_i hrecords
        simp only [Bool.and_eq_true, Bool.not_eq_true'] at hrecords
        obtain ⟨hb, hrecording, hflag⟩ := hrecords
        have ho : o = none := by
          rw [hanswered.matched_eq] at hb
          exact Option.isNone_iff_eq_none.mp (by simpa using hb)
        have hcovers : f.Covers id m.state.stop :=
          hentry.covers hreports expr hnode ho hrecording hflag
        show Failures.farthest (f.record id m.state.stop) = _
        rw [hcovers.record_eq]
      · rfl
    refine ⟨f, f₂, ?_, hf₂, hanswered.memo ▸ hfaithful⟩
    intro hreports
    exact ⟨hsame hreports, C.failures_repeats (hf hreports).2 (hrepeats hreports)⟩
  · rw [hanswered.memo]
    exact fun hexact => h.recalls (C.exact_of_suffix hlog hexact)

/-! ## Every parse is followed -/

/-- A fresh outcome has the captures that the second parse handed over. -/
theorem evaluated_recalls {c : Config} {m₁ m₂ n₂ n' : Machine} (hready : Ready C.grammar m)
    (h : C.Coupled m n) (hnode : C.grammar.node? id = some expr)
    (hevaluated : Evaluated ⟨C.grammar, C.text, c⟩ call id expr m b m' m₁ m₂)
    (hanswer : Answers m.state b m₂.state) (h₂ : C.Coupled m₂ n₂) (hlog : n₂.log <:+ n'.log)
    (hstate : n'.state = n₂.state) (hhanded : Handed C.grammar id n b n')
    (hexact : C.exact n'.log) (hkeeps : C.kept id) :
    C.Recalls (keyAt m.state id) (outcomeOf b m₂.state) := by
  show if C.grammar.isTerminal id then _ else _
  rw [Handed] at hhanded
  cases hterm : C.grammar.isTerminal id with
  | true =>
      intro d hd
      cases b with
      | false => cases hd
      | true =>
          cases hd
          have hkept : m.state.Kept m₂.state := hanswer
          rw [isTerminal_eq hnode] at hterm
          have hcaptures := dispatch_terminal hterm hevaluated.dispatched
          show m₂.state.captures.nodes.drop m₂.state.captures.committed = []
          rw [hkept.committed, hready.settled.captures, hcaptures, hevaluated.standing.state]
          exact List.drop_length
  | false =>
      rw [hterm] at hhanded
      have hblind := C.slotted_of_exact hexact
      have hst : m.state.Alike false (C.exact n.log) n.state := hblind ▸ h.state
      have hst₂ : m₂.state.Alike false (C.exact n₂.log) n₂.state := hblind ▸ h₂.state
      have hfound := C.outcome_of_mem hexact hhanded
      have hsame : (outcomeOf b m₂.state).map Changes.plain = outcomeOf b n'.state := by
        cases b with
        | false => rfl
        | true =>
            have hextract := hst₂.extract (by simp)
            rw [hstate]
            exact congrArg some (hextract.plain_eq (C.exact_of_suffix hlog hexact))
      rw [hst.keyAt_eq, ← hsame] at hfound
      exact ⟨hkeeps, hfound⟩

/-- Whatever a parse answers, the parse without a memo table answers from every coupled machine. -/
theorem invoke_follows (c : Config) (nesting : Nat) (C : Coupling)
    (hkept : ∀ id expr, C.grammar.node? id = some expr →
      memoizes ⟨C.grammar, C.text, c⟩ expr = true → C.kept id) :
    SimulatesReady C (invoke ⟨C.grammar, C.text, c⟩ nesting) fun j => invoke C.setting j := by
  induction nesting generalizing C with
  | zero =>
      intro id m n _ _ _ b m' hrun
      obtain ⟨⟨⟩, m₁, -, hrest⟩ := bind_ok hrun
      obtain ⟨s, m₂, -, hthrow⟩ := bind_ok hrest
      cases hthrow
  | succ nesting ih =>
      intro id m n hadmits hready h b m' hrun
      have hobeys := invoke_obeys ⟨C.grammar, C.text, c⟩ nesting
      obtain ⟨expr, hnode, ⟨o, hanswered⟩ | ⟨m₁, m₂, hevaluated⟩⟩ := attempt_ok hrun
      · obtain ⟨n', k, hrun', hlog, h'⟩ := answered_follows h hready hnode hanswered
        exact ⟨b, n', k, hrun', hlog, rfl, h'⟩
      · obtain ⟨n₂, n', k, hrun', hlog, h₂, hlog₂, hstate, hmemo, hfailures, hhanded⟩ :=
          evaluated_follows hobeys (ih C hkept) hadmits hready h hnode hevaluated
        have hanswer : Answers m.state b m₂.state := by
          have hconcludes := (dispatch_concludes hobeys (Grammar.shape?_of_node? hnode)
            (hevaluated.standing.ready hready)).answer hevaluated.dispatched
          rw [← hevaluated.standing.state]
          exact hconcludes.1.2
        refine ⟨b, n', k, hrun', hlog, rfl, ?_, hmemo.trans h₂.empty, ?_, ?_⟩
        · rw [hevaluated.state, hstate]
          exact Coupling.alike_later h₂.state hlog₂
        · obtain ⟨f₂, f₂', hf₂, hf₂', hfaithful⟩ := h₂.recorded
          obtain ⟨f, f', hf, hf', hmono⟩ := C.failures_after h₂.state hf₂ id expr b
          rw [← hevaluated.failures] at hf
          rw [← hf₂', ← hfailures] at hf'
          refine ⟨f, f', hf, hf', ?_⟩
          intro key o hheld
          rcases hevaluated.memo key o hheld with hold | ⟨-, rfl, rfl⟩
          · exact hmono _ _ _ key o (hfaithful key o hold)
          · exact evaluated_faithful hobeys (fun f₀ => ih (C.sideways f₀) fun _ _ _ _ => trivial)
              hadmits hready h hnode hevaluated hanswer fun hreports => (hf hreports).1
        · intro hexact key o hheld
          rcases hevaluated.memo key o hheld with hold | ⟨hmemoizes, rfl, rfl⟩
          · exact h₂.recalls (C.exact_of_suffix hlog₂ hexact) key o hold
          · exact evaluated_recalls hready h hnode hevaluated hanswer h₂ hlog₂ hstate hhanded hexact
              (hkept id expr hnode hmemoizes)

end Packrat
