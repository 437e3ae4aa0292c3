import Packrat.Proofs.Peg.Agreement
import Packrat.Proofs.Termination.Parses

/-! # The analyses cover what the engine does

    Nullability and first positions are decided from the rules of the shapes alone.  Matching knows
    more rules than those: it replays seeds and kept outcomes, grows seeds, and skips whitespace.  Still
    a match that succeeds where it began is one of a nullable expression, and what it asks for where it
    began is in first position.

    Nothing is asked here of the grammar but that it can be analysed and has no custom expressions;
    the match may nest without end, meet a reference, or be aborted.  So the protocol is that of
    matching that ends, with faults and nesting of no concern, and a place may be asked for whatever
    came before (`Visited`).  What is not in first position may be barred from being asked for at the
    place where its parent began, and the parent does the same. -/

namespace Packrat

open Matching Engine

variable {g : Grammar} {n : Nullability} {text : Text} {c : Scope} {id child : ExprId} {p : Nat}
variable {s : Shape ExprId} {m m' : Machine}

/-- A boundary has all its children in first position. -/
theorem Shape.children_of_isBoundary {nullable : ExprId → Bool} (h : s.isBoundary = true) :
    s.children = s.firsts nullable := by
  cases s <;> first | rfl | cases h

/-- Where an expression may be asked for in the course of a parse. -/
structure Visited (g : Grammar) (n : Nullability) (text : Text) (c : Scope) (id : ExprId) (p : Nat) :
    Prop where
  inside : id < g.size
  position : p ≤ text.length
  seeds : ∀ i q seed, c.seeds.get? { expr := i, position := q } = some seed →
    Calm n text True i q seed

/-- A child may be asked for wherever nothing else is seeded. -/
theorem Visited.unseeded (hn : g.nullability = .ok n) (h : Visited g n text c id p)
    (hs : g.shape? id = some s) (hchild : child ∈ s.children) {q : Nat} (hq : q ≤ text.length)
    {c' : Scope} (hget : ∀ key, c'.seeds.get? key = c.seeds.get? key) :
    Visited g n text c' child q :=
  ⟨Grammar.child_lt_size hn hs hchild, hq, fun i q' seed hseed => h.seeds i q' seed (hget _ ▸ hseed)⟩

/-- A child may be asked for where the expression has left a seed. -/
theorem Visited.seeded (hn : g.nullability = .ok n) (h : Visited g n text c id p)
    (hs : g.shape? id = some s) (hchild : child ∈ s.children) {seed : Option Changes}
    (hseed : Calm n text True id p seed) {c' : Scope}
    (hget : ∀ key, c'.seeds.get? key =
      if key = { expr := id, position := p } then some seed else c.seeds.get? key) :
    Visited g n text c' child p := by
  refine ⟨Grammar.child_lt_size hn hs hchild, h.position, ?_⟩
  intro j q seed' hseed'
  rw [hget] at hseed'
  split at hseed'
  · rename_i hkey
    cases hkey
    cases hseed'
    exact hseed
  · exact h.seeds j q seed' hseed'

/-- A match may ask for its children, as long as those in first position are not barred where it
    began, and none is farther on. -/
theorem Visited.permits (hn : g.nullability = .ok n)
    (hcustom : ∀ i spec children, g.shape? i ≠ some (.custom spec children))
    (h : Visited g n text c id p) (hs : g.shape? id = some s) {barred : ExprId → Nat → Prop}
    (hfirst : ∀ i ∈ s.firsts n.isNullable, ¬ barred i p) (hlater : ∀ i q, p < q → ¬ barred i q) :
    g.Permits n text True (fun c i q => Visited g n text c i q ∧ ¬ barred i q) c id p s where
  nullability := hn
  shape := hs
  resolved := Or.inl trivial
  custom := by
    rintro spec children rfl
    exact hcustom id spec children hs
  skips := Or.inl trivial
  position := h.position
  held := h.seeds id p
  first := fun _ i hi _ hget =>
    ⟨h.unseeded hn hs (Shape.mem_children_of_firsts hi) h.position hget, hfirst i hi⟩
  later := fun i hi q hlt hle => ⟨h.unseeded hn hs hi hle fun _ => rfl, hlater i q hlt⟩
  seeded := fun hboundary _ i hi _ _ hseed hget =>
    ⟨h.seeded hn hs hi hseed hget, hfirst i (Shape.children_of_isBoundary hboundary ▸ hi)⟩

/-! ## Every match of a parse -/

section Matches

variable (hn : g.nullability = .ok n)
  (hcustom : ∀ i spec children, g.shape? i ≠ some (.custom spec children))
include hn hcustom

/-- A match does the same over callers that agree wherever it may ask. -/
theorem attempt_visited (barred : ExprId → Nat → Prop) {config : Config} {call call' : Caller}
    (hcall : (Protocol.ending g n text True).Serves
      (fun c i q => Visited g n text c i q ∧ ¬ barred i q) call call')
    (hready : Ready g m) (hkeeps : (Protocol.ending g n text True).Keeps m)
    (hvisited : Visited g n text m.state.scope id m.state.stop)
    (hfirst : ∀ s, g.shape? id = some s → ∀ i ∈ s.firsts n.isNullable, ¬ barred i m.state.stop)
    (hlater : ∀ i q, m.state.stop < q → ¬ barred i q) :
    Twins m (fun _ => True) (attempt ⟨g, text, config⟩ call id) (attempt ⟨g, text, config⟩ call' id)
      ((Protocol.ending g n text True).Leaves
        ((Protocol.ending g n text True).tell m.state.scope id m.state.stop) m) :=
  attempt_permitted (Or.inl trivial) hvisited.inside hcall hready hkeeps fun s hs =>
    hvisited.permits hn hcustom hs (hfirst s hs) hlater

theorem invoke_visited (text : Text) (config : Config) (nesting : Nat) :
    (Protocol.ending g n text True).Serves (Visited g n text)
      (invoke ⟨g, text, config⟩ nesting) (invoke ⟨g, text, config⟩ nesting) := by
  refine Protocol.serves_invoke ⟨g, text, config⟩ (fun _ => Visited g n text) rfl
    (fun _ _ _ _ => trivial) ?_ nesting
  intro nesting ih id m hready hkeeps hvisited
  have hserves : (Protocol.ending g n text True).Serves
      (fun c i q => Visited g n text c i q ∧ ¬ False) (invoke ⟨g, text, config⟩ nesting)
      (invoke ⟨g, text, config⟩ nesting) :=
    ih.narrow fun _ _ _ hask => hask.1
  exact attempt_visited hn hcustom (fun _ _ => False) hserves hready hkeeps hvisited
    (fun _ _ _ _ => not_false) fun _ _ _ => not_false

end Matches

/-- Only an expression of the grammar asks for anything. -/
theorem inside_of_asks {setting : Setting} {call : Caller}
    (h : Asks (fun call => attempt setting call id) call m child m') : id < setting.grammar.size := by
  obtain ⟨other, -, hdiffer⟩ := h
  by_contra hout
  refine hdiffer ?_
  have hsame : Twins m (fun _ => True) (attempt setting call id) (attempt setting other id)
      fun _ _ => True := by
    refine ((countStep_standing m).imp_fault fun _ _ => trivial).bind ?_
    intro _ m₁ _
    refine Twins.lift_bind trivial ?_
    intro expr hnode
    exact absurd (Grammar.lt_size_of_shape? (Grammar.shape?_of_node? (Grammar.node_ok hnode))) hout
  exact hsame.same

theorem inside_of_answers {setting : Setting} {nesting : Nat} {b : Bool}
    (h : invoke setting nesting id m = .ok b m') : id < setting.grammar.size := by
  cases nesting with
  | zero =>
      obtain ⟨e, m₁, hfault, -⟩ := invoke_zero setting.grammar setting.text setting.config id m
      cases h.symm.trans hfault
  | succ nesting =>
      obtain ⟨_, _, -, h⟩ := bind_ok h
      obtain ⟨expr, _, hnode, -⟩ := bind_ok h
      exact Grammar.lt_size_of_shape? (Grammar.shape?_of_node? (Grammar.node_ok (lift_ok hnode).1))

section Parser

variable {parser : Parser} {nesting : Nat}
variable (hn : parser.grammar.nullability = .ok n)
  (hcustom : ∀ i spec children, parser.grammar.shape? i ≠ some (.custom spec children))
include hn hcustom

theorem Parser.Performs.visited (h : parser.Performs text nesting id m)
    (hinside : id < parser.grammar.size) :
    Ready parser.grammar m ∧ (Protocol.ending parser.grammar n text True).Keeps m ∧
      Visited parser.grammar n text m.state.scope id m.state.stop := by
  induction h with
  | root =>
      refine ⟨ready_initial _ _, Protocol.ending_initial _, hinside, Nat.zero_le _, ?_⟩
      intro i q seed hseed
      cases hseed
  | @child nesting id child m m' _ hasks ih =>
      obtain ⟨hready, hkeeps, hvisited⟩ := ih (inside_of_asks hasks)
      have hserves := invoke_visited hn hcustom text parser.config nesting
      refine hserves.of_asks hasks fun other hother => ?_
      exact (attempt_visited hn hcustom (fun _ _ => False)
        (hother.narrow fun _ _ _ hask => hask.1) hready hkeeps hvisited (fun _ _ _ _ => not_false)
        fun _ _ _ => not_false).same

/-- A match that succeeds where it began is one of a nullable expression. -/
theorem Parser.Performs.nullable_of_stays (h : parser.Performs text nesting id m)
    (hrun : invoke (parser.setting text) nesting id m = .ok true m')
    (hstays : m'.state.stop = m.state.stop) : n.isNullable id = true := by
  have hinside : id < parser.grammar.size := inside_of_answers hrun
  obtain ⟨hready, hkeeps, hvisited⟩ := h.visited hn hcustom hinside
  have hleaves := ((invoke_visited hn hcustom text parser.config nesting).told id m hready hkeeps
    hvisited).answer hrun
  exact (hleaves.outcome _ rfl).nullable hstays

/-- What a match asks for where it began is in first position. -/
theorem Parser.Performs.mem_firsts (h : parser.Performs text (nesting + 1) id m)
    (hasks : Asks (fun call => attempt (parser.setting text) call id)
      (invoke (parser.setting text) nesting) m child m')
    (hstays : m'.state.stop = m.state.stop) :
    ∃ children, parser.grammar.firsts n id = .ok children ∧ child ∈ children := by
  have hinside : id < parser.grammar.size := inside_of_asks hasks
  obtain ⟨hready, hkeeps, hvisited⟩ := h.visited hn hcustom hinside
  obtain ⟨expr, hnode⟩ := Grammar.node?_of_lt_size hinside
  have hshape := Grammar.shape?_of_node? hnode
  refine ⟨expr.shape.firsts n.isNullable, by rw [Grammar.firsts, Grammar.firsts?, hshape]; rfl, ?_⟩
  by_contra hout
  -- the child may as well be barred from where its parent began
  have hserves := invoke_visited hn hcustom text parser.config nesting
  have hbarred : (Protocol.ending parser.grammar n text True).Serves
      (fun c i q => Visited parser.grammar n text c i q ∧ ¬ (i = child ∧ q = m.state.stop))
      (invoke (parser.setting text) nesting) (invoke (parser.setting text) nesting) :=
    hserves.narrow fun _ _ _ hask => hask.1
  have hasked := hbarred.of_asks hasks fun other hother => ?_
  · exact hasked.2.2.2 ⟨rfl, hstays⟩
  refine (attempt_visited hn hcustom _ hother hready hkeeps hvisited ?_ ?_).same
  · rintro s hs i hi ⟨rfl, -⟩
    obtain rfl := Option.some.inj (hs.symm.trans hshape)
    exact hout hi
  · rintro i q hlt ⟨-, rfl⟩
    exact hlt.false

end Parser

/-- Nullability and first positions cover what the engine does, for every grammar without custom
    expressions.  A match that succeeds where it began is one of a nullable expression, and what a
    match asks for where it began is in first position.  So in a prepared grammar that refuses
    repetitions of nullable expressions, whatever is repeated moves on whenever it matches, also where
    whitespace is skipped. -/
theorem Parser.analyses_cover {parser : Parser} (hn : parser.grammar.nullability = .ok n)
    (hcustom : ∀ i spec children, parser.grammar.shape? i ≠ some (.custom spec children))
    (text : Text) :
    (∀ nesting id m m', parser.Performs text nesting id m →
      invoke (parser.setting text) nesting id m = .ok true m' →
      m'.state.stop = m.state.stop → n.isNullable id = true) ∧
    (∀ nesting id m child m', parser.Performs text (nesting + 1) id m →
      Asks (fun call => attempt (parser.setting text) call id)
        (invoke (parser.setting text) nesting) m child m' →
      m'.state.stop = m.state.stop →
      ∃ children, parser.grammar.firsts n id = .ok children ∧ child ∈ children) ∧
    ∀ options g₀ report, Grammar.prepare options g₀ = .ok report parser.grammar →
      options.rejectNullableRepetition = true → ∀ id operand, parser.grammar.InUse id →
      (parser.grammar.shape? id = some (.zeroMore operand) ∨
        parser.grammar.shape? id = some (.oneMore operand)) →
      (∀ nesting m m', parser.Performs text nesting operand m →
        invoke (parser.setting text) nesting operand m = .ok true m' →
        m'.state.stop ≠ m.state.stop) ∧
      ∀ nesting position, position ≤ text.length →
        parser.grammar.skipWithin text nesting operand position ≠ .ok (some position) := by
  refine ⟨fun nesting id m m' h hrun hstays => h.nullable_of_stays hn hcustom hrun hstays,
    fun nesting id m child m' h hasks hstays => h.mem_firsts hn hcustom hasks hstays, ?_⟩
  intro options g₀ report hprepare hreject id operand hused hs
  obtain ⟨n', hn', hsolid, -⟩ := Grammar.prepare_checks hprepare hreject
  obtain rfl : n = n' := Except.ok.inj (hn.symm.trans hn')
  have hoperand : n.isNullable operand = false := by
    rcases hs with hs | hs
    · exact hsolid id _ operand hused hs (Or.inl rfl)
    · exact hsolid id _ operand hused hs (Or.inr rfl)
  refine ⟨?_, ?_⟩
  · intro nesting m m' hperforms hrun hstays
    rw [hperforms.nullable_of_stays hn hcustom hrun hstays] at hoperand
    cases hoperand
  · intro nesting position hposition hskip
    have hwithin := FastPath.skipWithin_within hn nesting operand position position hposition hskip
    rw [hwithin.nullable rfl] at hoperand
    cases hoperand

theorem Grammar.shape?_ne_custom
    (h : ∀ expr ∈ g.nodes, ∀ spec children, expr.shape ≠ .custom spec children) (i : ExprId)
    (spec : Custom) (children : List ExprId) : g.shape? i ≠ some (.custom spec children) := by
  intro hs
  obtain ⟨expr, hnode, hshape⟩ := Option.map_eq_some_iff.mp hs
  exact h expr (Array.mem_of_getElem? hnode) spec children hshape

/-- A parser of the grammar with a whitespace. -/
def nestedParser : Parser :=
  ⟨{ nested with prepared := true }, 0, {}⟩

/-- A negation succeeds where it began and asks for its operand there. -/
theorem analyses_cover_notA :
    (∃ m', invoke (notA.setting ⟨#['b']⟩) 512 0 (.initial {}) = .ok true m' ∧ m'.state.stop = 0 ∧
      (⟨#[true, false]⟩ : Nullability).isNullable 0 = true) ∧
    (∃ children, notA.grammar.firsts ⟨#[true, false]⟩ 0 = .ok children ∧ 1 ∈ children) ∧
    ∃ report g, Grammar.prepare {} nested = .ok report g ∧ g.whitespace = some 14 ∧
      g.shape? 14 = some (.zeroMore 15) ∧
      ∀ nesting position, position ≤ 1 →
        g.skipWithin ⟨#[' ']⟩ nesting 15 position ≠ .ok (some position) := by
  have hn : notA.grammar.nullability = .ok ⟨#[true, false]⟩ := by cbv
  have hcustom := Grammar.shape?_ne_custom (g := notA.grammar) (by simp [notA, Expr.ofShape])
  obtain ⟨hnullable, hfirsts, -⟩ := Parser.analyses_cover hn hcustom ⟨#['b']⟩
  obtain ⟨m', hrun, hstop⟩ : ∃ m', invoke (notA.setting ⟨#['b']⟩) 512 0 (.initial {}) = .ok true m' ∧
      m'.state.stop = 0 := ⟨_, rfl, rfl⟩
  have hroot : notA.Performs ⟨#['b']⟩ 512 0 (.initial {}) := .root
  refine ⟨⟨m', hrun, hstop, hnullable _ _ _ _ hroot hrun hstop⟩,
    hfirsts _ _ _ _ _ hroot asks_notA rfl, _, _, prepare_nested, rfl, rfl, ?_⟩
  have hn' : nestedParser.grammar.nullability = .ok
      ⟨#[false, false, false, false, false, true, false, true, false, false, false, false, false,
        false, true, false]⟩ := by cbv
  have hcustom' := Grammar.shape?_ne_custom (g := nestedParser.grammar)
    (by simp [nestedParser, nested, Expr.ofShape])
  obtain ⟨-, -, hsolid⟩ := Parser.analyses_cover hn' hcustom' ⟨#[' ']⟩
  exact (hsolid _ _ _ prepare_nested rfl 14 15 ⟨14, by decide, .refl⟩ (Or.inl rfl)).2

end Packrat
