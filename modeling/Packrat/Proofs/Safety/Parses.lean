import Mathlib
import Packrat.Proofs.Limits
import Packrat.Proofs.Safety.MemoRuns
import Packrat.Proofs.Safety.Shelter
import Packrat.Proofs.Termination.Parses

/-! # A prepared grammar is safe to parse with

    Nesting is bounded by the configuration alone where cycles of first positions are not all broken,
    so a match may be aborted at a limit anywhere.  It has to be shown that nothing else aborts it.
    A LENIENT caller fails where a limit would abort it.  What the protocol says of forms whose callers
    always answer then applies, and a match does the same as with the lenient caller unless a limit
    aborts it.

    * **`invoke_lenient`** — every match within reach of the root answers or is aborted at a limit.
    * **`History.parse_safe`** — so does every parse with a prepared grammar, and no match of it goes
      out of the grammar, the text, the captures or the memo table. -/

namespace Packrat

open Relation Matching Engine

variable {g : Grammar} {n : Nullability} {root : ExprId} {text : Text}

/-! ## Only limits abort -/

/-- The caller, made to fail where a limit aborts it. -/
def lenient (call : Caller) : Caller := fun id m =>
  match call id m with
  | .ok b m' => .ok b m'
  | .error e m' => if e.isLimit then .ok false m else .error e m'

section Lenient

variable {call : Caller} {id : ExprId} {m m' : Machine} {b : Bool}

theorem lenient_ok (h : call id m = .ok b m') : lenient call id m = .ok b m' := by
  rw [lenient, h]

theorem lenient_limit {e : Fault} (h : call id m = .error e m') (hlimit : e.isLimit = true) :
    lenient call id m = .ok false m := by
  rw [lenient, h]
  exact if_pos hlimit

theorem upToLimits_lenient (call : Caller) (id : ExprId) :
    UpToLimits (call id) (lenient call id) := by
  intro m
  cases hrun : call id m with
  | ok b m' => exact Or.inl (lenient_ok hrun).symm
  | error e m' =>
      cases hlimit : e.isLimit with
      | true => exact Or.inr ⟨e, m', rfl, hlimit⟩
      | false => exact Or.inl (by simp [lenient, hrun, hlimit])

/-- A lenient caller keeps the contract that the caller keeps. -/
theorem Obeys.lenient (h : Obeys g call call) : Obeys g (lenient call) (lenient call) := by
  intro id m hready
  have hcall := h id m hready
  refine ⟨rfl, ?_, ?_⟩
  · intro b m' hrun
    rw [Packrat.lenient] at hrun
    cases hcase : call id m with
    | ok b₁ m₁ =>
        rw [hcase] at hrun
        cases hrun
        exact hcall.answer hcase
    | error e m₁ =>
        rw [hcase] at hrun
        dsimp only at hrun
        split at hrun
        · cases hrun
          exact ⟨hready.memo, rfl⟩
        · cases hrun
  · intro e m' hrun
    rw [Packrat.lenient] at hrun
    cases hcase : call id m with
    | ok b₁ m₁ =>
        rw [hcase] at hrun
        cases hrun
    | error e₁ m₁ =>
        rw [hcase] at hrun
        dsimp only at hrun
        split at hrun
        · cases hrun
        · cases hrun
          exact hcall.fault hcase

end Lenient

/-- A lenient caller answers where a program does that the caller agrees with up to limits. -/
theorem lenient_answers {call : Caller} {id : ExprId} {m : Machine} {x : Matching Bool}
    {Q : Bool → Machine → Prop} (hsame : UpToLimits (call id) x) (hx : Twins m (fun _ => False) x x Q)
    (hfail : Q false m) : Twins m (fun _ => False) (lenient call id) (lenient call id) Q := by
  obtain ⟨b, m', hrun, hb⟩ : ∃ b m', lenient call id m = .ok b m' ∧ Q b m' := by
    rcases hsame m with hsame | ⟨e, m', hfault, hlimit⟩
    · cases hrun : x m with
      | ok b m' => exact ⟨b, m', lenient_ok (hsame.trans hrun), hx.answer hrun⟩
      | error e m' => exact (hx.fault hrun).elim
    · exact ⟨false, m, lenient_limit hfault hlimit, hfail⟩
  refine ⟨rfl, ?_, ?_⟩
  · intro a m₁ h
    cases hrun.symm.trans h
    exact hb
  · intro e m₁ h
    cases hrun.symm.trans h

/-- Every match within reach of the root answers, unless a limit aborts it. -/
theorem invoke_lenient (hshelter : g.Sheltered n root True) (text : Text) (config : Config)
    (nesting : Nat) :
    (Protocol.ending g n text False).Serves (Asked g n text False True root nesting)
      (lenient (invoke ⟨g, text, config⟩ nesting)) (lenient (invoke ⟨g, text, config⟩ nesting)) := by
  have hobeys : ∀ nesting, Obeys g (lenient (invoke ⟨g, text, config⟩ nesting))
      (lenient (invoke ⟨g, text, config⟩ nesting)) :=
    fun nesting => (invoke_obeys ⟨g, text, config⟩ nesting).lenient
  -- a failure tells nothing
  have hfail : ∀ {id : ExprId} {m : Machine}, (Protocol.ending g n text False).Keeps m →
      (Protocol.ending g n text False).Leaves
        ((Protocol.ending g n text False).tell m.state.scope id m.state.stop) m false m :=
    fun hkeeps => ⟨hkeeps, by rintro f ⟨⟩⟩
  induction nesting with
  | zero =>
      refine ⟨hobeys 0, ?_⟩
      intro id m _ hkeeps _
      have habort : UpToLimits (invoke ⟨g, text, config⟩ 0 id) (pure false) :=
        fun m => Or.inr (invoke_zero g text config id m)
      exact lenient_answers habort (.pure (hfail hkeeps)) (hfail hkeeps)
  | succ nesting ih =>
      refine ⟨hobeys (nesting + 1), ?_⟩
      intro id m hready hkeeps hask
      -- without a limit on steps, the match answers if its caller is lenient
      have hsame : UpToLimits (invoke ⟨g, text, config⟩ (nesting + 1) id)
          (attempt ⟨g, text, { config with maxSteps := none }⟩
            (lenient (invoke ⟨g, text, config⟩ nesting)) id) := by
        rw [invoke_succ]
        exact attempt_upToLimits g text config (upToLimits_lenient _) (by rintro _ ⟨⟩) id
      have hsteps : False ∨ ({ config with maxSteps := none } : Config).maxSteps = none := Or.inr rfl
      have hanswers := attempt_ending hshelter hsteps ih hready hkeeps hask
      exact lenient_answers hsame hanswers (hfail hkeeps)

/-! ## Parses -/

/-- A parse of a sheltered grammar has a result or is aborted at a limit, if everything that it may
    have to report has a description. -/
theorem Parser.parse_limited {p : Parser} (hshelter : p.grammar.Sheltered n p.root True)
    (hdescribe : ∀ id < p.grammar.size, ∃ description, p.grammar.describe id = .ok description)
    (source : String) :
    (∃ r, (p.parse source).outcome = .ok r) ∨
      ∃ e, (p.parse source).outcome = .error e ∧ e.isLimit = true := by
  have hserves := invoke_lenient hshelter (.ofString source) p.config p.config.maxDepth
  have htwins := hserves.told p.root (.initial p.config) (ready_initial p.grammar p.config)
    (Protocol.ending_initial p.config) (asked_initial hshelter p.config (Or.inl trivial))
  have hsame := upToLimits_lenient (invoke (p.setting (.ofString source)) p.config.maxDepth) p.root
    (.initial p.config)
  simp only [parse]
  cases hrun : p.run (.ofString source) with
  | ok b m =>
      left
      have hleaves := htwins.answer (lenient_ok hrun)
      exact p.conclude_answers hdescribe b hleaves.keeps.recorded
  | error e m =>
      right
      rw [run] at hrun
      rcases hsame with hsame | ⟨e', m', hfault, hlimit⟩
      · exact (htwins.fault (hsame ▸ hrun)).elim
      · cases hrun.symm.trans hfault
        exact ⟨e, rfl, hlimit⟩

/-- A match that answered has moved on inside the text, and only appended captures after the commit
    point, which is where they ended before. -/
structure Machine.Onward (text : Text) (m m' : Machine) : Prop where
  forward : m.state.stop ≤ m'.state.stop
  position : m'.state.stop ≤ text.length
  captures : m.state.captures.nodes <+: m'.state.captures.nodes
  committed : m'.state.captures.committed = m.state.captures.length
  probes : m'.memo.Probes ∧ m'.memo.reserve.Probes

/-- A match goes out of nothing: its expression is one of the grammar and no reference, it begins
    with an empty uncommitted view inside the text, and the memo table is probed inside. -/
structure Parser.Inside (p : Parser) (text : Text) (nesting : Nat) (id : ExprId) (m : Machine) :
    Prop where
  expr : id < p.grammar.size
  resolved : ∀ name, p.grammar.shape? id ≠ some (.reference name)
  settled : m.state.Settled
  position : m.state.stop ≤ text.length
  probes : m.memo.Probes ∧ m.memo.reserve.Probes
  answers : ∀ {b m'}, invoke (p.setting text) nesting id m = .ok b m' → m.Onward text m'

theorem Parser.Performs.inside {p : Parser} (hshelter : p.grammar.Sheltered n p.root True)
    (hcustom : ∀ i spec children, p.grammar.shape? i ≠ some (.custom spec children))
    {nesting : Nat} {id : ExprId} {m : Machine} (h : p.Performs text nesting id m) :
    p.Inside text nesting id m := by
  obtain ⟨hready, hkeeps, hask⟩ := h.asked hshelter
  have hstore : ∀ (t : Table Fingerprint (Option Changes)) key o, t.Sound → (t.insert key o).Sound :=
    fun t key o ht => ht.insert key o
  have hmemo : m.memo.Sound := h.memo Table.sound_empty hstore hcustom
  refine ⟨hask.inside, fun name => hshelter.resolved id name hask.reach, hready.settled,
    hask.position, hmemo.probes, ?_⟩
  intro b m' hrun
  have hprobes : m'.memo.Probes ∧ m'.memo.reserve.Probes :=
    ((invoke_keeping (p.setting text) hstore hcustom nesting id m hmemo).2.1 b m' hrun).probes
  have hserves : (Protocol.ending p.grammar n text True).Serves
      (Asked p.grammar n text True True p.root nesting) (invoke (p.setting text) nesting)
      (invoke (p.setting text) nesting) :=
    invoke_ending hshelter text p.config (fun _ => trivial) (Or.inl trivial) nesting
  obtain ⟨⟨-, htell⟩, -, hanswer⟩ := (hserves.asked hready hkeeps hask).answer hrun
  cases b with
  | false =>
      have hstate : m'.state = m.state := hanswer
      rw [← hstate] at hask
      exact ⟨hstate ▸ le_rfl, hask.position, hstate ▸ List.prefix_rfl,
        hstate ▸ hready.settled.captures, hprobes⟩
  | true =>
      have hkept : m.state.Kept m'.state := hanswer
      have hwithin := htell _ rfl
      exact ⟨hwithin.forward, hwithin.stop, hkept.nodes,
        hkept.committed.trans hready.settled.captures, hprobes⟩

/-- Whatever was done to a grammar: if it is marked as prepared and holds no custom expression, then
    a parse with it has a result or is aborted at a limit, every expression has a description, and
    every match of a parse goes out of nothing. -/
theorem History.parse_safe (ops : List Operation) (hmark : (of ops).grammar.prepared = true)
    (hcustom : ∀ id spec children, (of ops).grammar.shape? id ≠ some (.custom spec children))
    (config : Config) (source : String) :
    ((∃ r, (parseWith (of ops).grammar config source).outcome = .ok r) ∨
      ∃ limit position,
        (parseWith (of ops).grammar config source).outcome
            = .error (.engine (.recursionLimit limit position)) ∨
          (parseWith (of ops).grammar config source).outcome
            = .error (.engine (.stepLimit limit position))) ∧
      (∀ id < (of ops).grammar.size, ∃ description,
        (of ops).grammar.describe id = .ok description) ∧
      ∃ p, Parser.make (of ops).grammar config = .ok p ∧
        ∀ {nesting id m}, p.Performs (.ofString source) nesting id m →
          p.Inside (.ofString source) nesting id m := by
  obtain ⟨options, g₀, report, hprepare⟩ :=
    (sound_of ops).made _ ((sound_of ops).marked hmark)
  obtain ⟨n, root, hroot, hshelter, hdescribe⟩ := Grammar.prepare_sheltered hprepare hcustom
  have hmake : Parser.make (of ops).grammar config = .ok ⟨(of ops).grammar, root, config⟩ := by
    rw [Parser.make, if_pos hmark, hroot]
  refine ⟨?_, hdescribe, _, hmake, fun h => h.inside hshelter hcustom⟩
  rw [parseWith, hmake]
  rcases Parser.parse_limited (p := ⟨_, root, config⟩) hshelter hdescribe source with
    hanswers | ⟨e, hfault, hlimit⟩
  · exact Or.inl hanswers
  · right
    cases e with
    | grammar e => cases hlimit
    | crash cause => cases hlimit
    | engine e =>
        cases e with
        | recursionLimit limit position => exact ⟨limit, position, Or.inl hfault⟩
        | stepLimit limit position => exact ⟨limit, position, Or.inr hfault⟩
        | invariant message => cases hlimit
        | «extension» message => cases hlimit

/-- Nodes added one by one, with edges to nodes that come later.  Of the two cycles, one has a
    boundary. -/
def overlappingOperations : List Operation :=
  [.add (.choice [1, 2]), .add (.leftRecursive 3 false), .add (.sequence [3, 5]),
    .add (.choice [4, 6]), .add (.sequence [0, 7]), .add (.literal "!"), .add (.literal "n"),
    .add (.literal "+"), .setRoot 0, .prepare {}]

theorem parse_safe_overlapping :
    (History.of overlappingOperations).grammar.prepared = true ∧
      ∃ p, Parser.make (History.of overlappingOperations).grammar {} = .ok p ∧
        p.Inside (.ofString "n+n") p.config.maxDepth p.root (.initial p.config) := by
  have hmark : (History.of overlappingOperations).grammar.prepared = true := by decide +kernel
  have hplain : ∀ e ∈ (History.of overlappingOperations).grammar.nodes.toList,
      e.shape.kindName ≠ "custom" := by
    decide +kernel
  have hcustom : ∀ id spec children,
      (History.of overlappingOperations).grammar.shape? id ≠ some (.custom spec children) := by
    intro id spec children hs
    obtain ⟨e, hnode, hshape⟩ := Option.map_eq_some_iff.mp hs
    exact hplain e (Array.mem_toList_iff.mpr (Array.mem_of_getElem? hnode))
      (by rw [hshape]; rfl)
  obtain ⟨-, -, p, hmake, hinside⟩ :=
    History.parse_safe overlappingOperations hmark hcustom {} "n+n"
  exact ⟨hmark, p, hmake, hinside .root⟩

end Packrat
