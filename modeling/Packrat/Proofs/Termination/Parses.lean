import Packrat.Proofs.Termination.Matching
import Packrat.Proofs.Transparency.Outcomes

/-! # Parses end

    A parse asks for the root with nothing seeded, and each match that it performs is one that the
    protocol asks for.  So every loop of the parse ends by itself, and if the nesting allowed is the
    product of the text, the boundaries and the expressions, the parse has a result. -/

namespace Packrat

open Relation Matching Engine Finset

variable {n : Nullability} {root : ExprId} {text : Text}

/-! ## Results -/

/-- What was recorded has descriptions. -/
theorem Failures.report_ok {g : Grammar}
    (hdescribe : ∀ id < g.size, ∃ description, g.describe id = .ok description) {f : Failures}
    (h : ∀ id ∈ f.ids, id < g.size) : ∃ r, f.report g text = .ok r := by
  cases f with
  | silent => exact ⟨none, rfl⟩
  | first failure =>
      cases failure with
      | none => exact ⟨none, rfl⟩
      | some failure =>
          obtain ⟨description, hd⟩ := hdescribe failure.1 (h _ (List.mem_singleton_self _))
          exact ⟨_, (congrArg (· >>= _) hd).trans rfl⟩
  | farthest failures =>
      have hall : ∀ ids : List ExprId, (∀ id ∈ ids, id < g.size) →
          ∃ expected, ids.mapM g.describe = .ok expected := by
        intro ids
        induction ids with
        | nil => exact fun _ => ⟨[], rfl⟩
        | cons id rest ih =>
            intro hids
            obtain ⟨hid, hrest⟩ := List.forall_mem_cons.mp hids
            obtain ⟨description, hd⟩ := hdescribe id hid
            obtain ⟨expected, he⟩ := ih hrest
            exact ⟨description :: expected, by rw [List.mapM_cons, hd, he]; rfl⟩
      obtain ⟨expected, he⟩ := hall failures.failed h
      cases hposition : failures.position with
      | none => exact ⟨none, by rw [report, Farthest.report, hposition]⟩
      | some position =>
          refine ⟨some (Report.make text position expected), ?_⟩
          rw [report, Farthest.report, hposition]
          simp only [he]
          rfl

/-- A match of the root is concluded with a result. -/
theorem Parser.conclude_answers {p : Parser}
    (hdescribe : ∀ id < p.grammar.size, ∃ description, p.grammar.describe id = .ok description)
    (b : Bool) {m : Machine} (h : ∀ id ∈ m.failures.ids, id < p.grammar.size) :
    ∃ r, p.conclude text b m = .ok r := by
  obtain ⟨report, hreport⟩ : ∃ report, m.failures.report p.grammar text = .ok report :=
    Failures.report_ok hdescribe h
  have hfor : ∀ stop, ∃ r, p.reportFor text m.failures stop = .ok r := by
    intro stop
    simp only [reportFor, hreport]
    cases report <;> exact ⟨_, rfl⟩
  simp only [conclude]
  generalize (if b then m.state.stop else 0) = stop
  obtain ⟨r, hr⟩ := hfor stop
  rw [hr]
  by_cases hmatched : (b && stop == text.length) = true
  · simp only [hmatched, if_true]
    exact ⟨_, rfl⟩
  · simp only [hmatched]
    exact ⟨_, rfl⟩

/-! ## Every match of a parse -/

theorem Protocol.ending_initial {g : Grammar} (config : Config) {faults : Prop} :
    (Protocol.ending g n text faults).Keeps (.initial config) := by
  refine Protocol.keeps_initial config ?_
  intro id hid
  cases hpolicy : config.failures <;> simp [Failures.initial, hpolicy, Failures.ids] at hid

theorem asked_initial {g : Grammar} {faults free : Prop} (hshelter : g.Sheltered n root free)
    (config : Config) {nesting : Nat} (hdepth : free ∨ (text.length + 1) * g.span ≤ nesting) :
    Asked g n text faults free root nesting (Machine.initial config).state.scope root 0 := by
  refine ⟨.refl, hshelter.inside, Nat.zero_le _, ?_, ?_⟩
  · intro i q seed hseed
    cases hseed
  · rcases hdepth with hfree | hdepth
    · exact Or.inl hfree
    · exact hshelter.acyclic.imp_right fun hacyclic =>
        (Grammar.effort_lt hacyclic hshelter.inside).trans_le hdepth

/-- Whatever a parse performs, it may ask for. -/
theorem Parser.Performs.asked {p : Parser} (hshelter : p.grammar.Sheltered n p.root True)
    {nesting : Nat} {id : ExprId} {m : Machine} (h : p.Performs text nesting id m) :
    Ready p.grammar m ∧ (Protocol.ending p.grammar n text True).Keeps m ∧
      Asked p.grammar n text True True p.root nesting m.state.scope id m.state.stop := by
  induction h with
  | root =>
      exact ⟨ready_initial p.grammar p.config, Protocol.ending_initial p.config,
        asked_initial hshelter p.config (Or.inl trivial)⟩
  | @child nesting id child m m' hparent hasks ih =>
      obtain ⟨hready, hkeeps, hask⟩ := ih
      have hserves : (Protocol.ending p.grammar n text True).Serves
          (Asked p.grammar n text True True p.root nesting) (invoke (p.setting text) nesting)
          (invoke (p.setting text) nesting) :=
        invoke_ending hshelter text p.config (fun _ => trivial) (Or.inl trivial) nesting
      refine hserves.of_asks hasks fun other hother => ?_
      exact (attempt_ending hshelter (Or.inl trivial) hother hready hkeeps hask).same

/-- Nothing in a parse runs on: the loops of its matches stop by themselves, as they do the same with
    rounds for any longer text; and wherever whitespace is skipped, skipping ends. -/
structure Parser.Ends (p : Parser) (text : Text) : Prop where
  loops : ∀ {nesting : Nat} {id : ExprId} {m : Machine} {s : Shape ExprId}
    {loop : Text → Matching Bool}, p.Performs text (nesting + 1) id m →
    p.grammar.shape? id = some s → loop? (invoke (p.setting text) nesting) id s = some loop →
    ∀ {m₁ : Machine} {longer : Text}, Standing m m₁ → text.length ≤ longer.length →
      loop longer m₁ = dispatch (p.setting text) (invoke (p.setting text) nesting) id s m₁
  skips : ∀ {ws : ExprId} {position : Nat}, p.grammar.whitespace = some ws →
    position ≤ text.length → ∃ stop, p.grammar.skip text ws position = .ok stop

theorem dispatch_eq_loop {setting : Setting} {call : Caller} {id : ExprId} {s : Shape ExprId}
    {loop : Text → Matching Bool} (h : loop? call id s = some loop) (m : Machine) :
    dispatch setting call id s m = loop setting.text m := by
  cases s with
  | zeroMore | oneMore | leftRecursive | cluster =>
      cases h
      rfl
  | _ => cases h

theorem Parser.ends {p : Parser} (hguarded : p.grammar.Guarded n p.root) (text : Text) :
    p.Ends text := by
  refine ⟨?_, ?_⟩
  · intro nesting id m s loop hperforms hs hloop m₁ longer hstanding hlonger
    obtain ⟨hready, hkeeps, hask⟩ := hperforms.asked hguarded.sheltered
    have hready₁ : Ready p.grammar m₁ :=
      hready.of_state_eq (hstanding.memo ▸ hready.memo) hstanding.state
    have hserves : (Protocol.ending p.grammar n text True).Serves
        (Asked p.grammar n text True True p.root nesting) (invoke (p.setting text) nesting)
        (invoke (p.setting text) nesting) :=
      invoke_ending hguarded.sheltered text p.config (fun _ => trivial) (Or.inl trivial) nesting
    have hask₁ : Asked p.grammar n text True True p.root (nesting + 1) m₁.state.scope id m₁.state.stop :=
      hstanding.state ▸ hask
    rw [dispatch_eq_loop hloop]
    exact (loop_ending hserves hlonger hready₁ (hkeeps.of_standing hstanding)
      (hask₁.permits hguarded.sheltered hs) hloop hloop).same
  · intro ws position hws hposition
    have hshelter : p.grammar.Sheltered n p.root True := hguarded.sheltered
    obtain ⟨stop, hstop, -⟩ := hshelter.skips hws hposition
    exact ⟨stop, hstop⟩

/-- With a grammar in which every cycle of first positions goes through a boundary, nothing in a
    parse runs on; and with no limit on steps and the nesting that the text, the boundaries and the
    expressions multiply to, the parse has a result. -/
theorem Parser.parse_ends {p : Parser} (hguarded : p.grammar.Guarded n p.root) (source : String) :
    p.Ends (.ofString source) ∧
      (p.config.maxSteps = none →
        ((Text.ofString source).length + 1) * (#p.grammar.boundaries + 1) * (p.grammar.size + 1)
          ≤ p.config.maxDepth →
        ∃ r, (p.parse source).outcome = .ok r) := by
  refine ⟨p.ends hguarded _, ?_⟩
  intro hsteps hdepth
  rw [Nat.mul_assoc] at hdepth
  have hserves : (Protocol.ending p.grammar n (.ofString source) False).Serves
      (Asked p.grammar n (.ofString source) False False p.root p.config.maxDepth) _ _ :=
    invoke_ending hguarded.sheltered (.ofString source) p.config id (Or.inr hsteps) p.config.maxDepth
  have htwins := hserves.told p.root (.initial p.config) (ready_initial p.grammar p.config)
    (Protocol.ending_initial p.config) (asked_initial hguarded.sheltered p.config (Or.inr hdepth))
  cases hrun : p.run (.ofString source) with
  | error e m => exact (htwins.fault hrun).elim
  | ok b m =>
      obtain ⟨r, hr⟩ : ∃ r, p.conclude (.ofString source) b m = .ok r :=
        p.conclude_answers hguarded.describes b (htwins.answer hrun).keeps.recorded
      exact ⟨r, by rw [parse, hrun]; exact hr⟩

/-- Sums of letters, with blanks after every token; the rule is left-recursive. -/
def sums : Grammar :=
  { nodes := #[{ shape := .leftRecursive 1 false, flags := .rule }, .ofShape (.choice [2, 3]),
      .ofShape (.sequence [0, 4, 3]), .ofShape (.token 5), .ofShape (.token 6),
      .ofShape (.literal "n"), .ofShape (.literal "+"), .ofShape (.zeroMore 8),
      .ofShape (.set [' '])]
    root := some 0
    whitespace := some 7 }

/-- The blanks are nullable. -/
def sumsNullability : Nullability :=
  ⟨#[false, false, false, false, false, false, false, true, false]⟩

/-- Edges that do not start at the rule lead to expressions of lower height. -/
theorem bareEdge_sums {u v : ExprId} (h : sums.BareEdge sumsNullability u v) :
    [0, 3, 2, 1, 1, 0, 0, 1, 0].getD v 0 < [0, 3, 2, 1, 1, 0, 0, 1, 0].getD u 0 := by
  obtain ⟨⟨children, hchildren, hv⟩, hbare⟩ := h
  have hu : u < sums.size := Grammar.lt_size_of_firsts? (Option.isSome_of_eq_some hchildren)
  have hedges : ∀ u < sums.size, sums.isBoundary u = false →
      ∀ v ∈ (sums.firsts? sumsNullability u).getD [],
        [0, 3, 2, 1, 1, 0, 0, 1, 0].getD v 0 < [0, 3, 2, 1, 1, 0, 0, 1, 0].getD u 0 := by
    decide
  exact hedges u hu hbare v (by rw [hchildren]; exact hv)

theorem guarded_sums : sums.Guarded sumsNullability 0 := by
  have hfree : ∀ expr ∈ sums.nodes, (∀ name, expr.shape ≠ .reference name) ∧
      ∀ spec children, expr.shape ≠ .custom spec children := by
    simp [sums, Expr.ofShape]
  refine ⟨by cbv, by decide, ?_, ?_, Grammar.cycles_broken_iff.mpr ?_, ?_⟩
  · intro id name _ hs
    obtain ⟨expr, hnode, hshape⟩ := Option.map_eq_some_iff.mp hs
    exact (hfree expr (Array.mem_of_getElem? hnode)).1 name hshape
  · intro id spec children _ hs
    obtain ⟨expr, hnode, hshape⟩ := Option.map_eq_some_iff.mp hs
    exact (hfree expr (Array.mem_of_getElem? hnode)).2 spec children hshape
  · have hfalls : ∀ u v, TransGen (sums.BareEdge sumsNullability) u v →
        [0, 3, 2, 1, 1, 0, 0, 1, 0].getD v 0 < [0, 3, 2, 1, 1, 0, 0, 1, 0].getD u 0 := by
      intro u v h
      induction h with
      | single hedge => exact bareEdge_sums hedge
      | tail _ hedge ih => exact (bareEdge_sums hedge).trans ih
    exact fun v hcycle => Nat.lt_irrefl _ (hfalls v v hcycle)
  · rintro ws ⟨⟩
    cbv

theorem parse_ends_sums :
    sums.Guarded sumsNullability 0 ∧ Parser.Ends ⟨sums, 0, {}⟩ (.ofString "n + n ") ∧
      ∃ r, (Parser.parse ⟨sums, 0, {}⟩ "n + n ").outcome = .ok r := by
  obtain ⟨hends, hparse⟩ := Parser.parse_ends (p := ⟨sums, 0, {}⟩) guarded_sums "n + n "
  exact ⟨guarded_sums, hends, hparse rfl (by decide)⟩

end Packrat
