import Mathlib
import Packrat.Engine.Invoke
import Packrat.Proofs.Twins

/-! # Forms are parametric in their caller

    A form is put together from programs that change the parse state and the counters, read an
    analysis, write to the log or abort, and from matches that its caller performs.  So a relation
    between programs that those basic programs and the ways to combine them respect (`Parametric`)
    holds between a form over one caller and the same form over another, once it holds between the
    callers.  What a form does with the memo table and the failures, and that it counts a match, it
    does through its caller only. -/

namespace Packrat

namespace Matching

/-- The relation holds between a basic program and itself, and between combinations of programs
    between which it holds. -/
structure Parametric (R : ∀ ⦃α : Type⦄, Matching α → Matching α → Prop) : Prop where
  pure : ∀ {α : Type} (a : α), R (pure a : Matching α) (pure a)
  throw : ∀ {α : Type} (e : Fault), R (throw e : Matching α) (throw e)
  lift : ∀ {α : Type} (v : Except Fault α), R (lift v) (lift v)
  state : R state state
  onState : ∀ u, R (onState u) (onState u)
  onTally : ∀ u : Tally → Tally, (∀ t, (u t).invocations = t.invocations) →
    R (onTally u) (onTally u)
  log : ∀ entry, R (log entry) (log entry)
  transition : ∀ allowed u, R (transition allowed u) (transition allowed u)
  bind : ∀ {α β : Type} {x y : Matching α} {f f' : α → Matching β}, R x y →
    (∀ a, R (f a) (f' a)) → R (x >>= f) (y >>= f')
  thenAlways : ∀ {α : Type} {x y : Matching α}, R x y → ∀ u, R (thenAlways x u) (thenAlways y u)

end Matching

open Matching

variable {R : ∀ ⦃α : Type⦄, Matching α → Matching α → Prop} {call call' : Caller}

/-! ## Plain forms -/

namespace Combinators

variable (hR : Parametric R)
include hR

theorem terminal_parametric (stop : Option Nat) : R (terminal stop) (terminal stop) := by
  cases stop with
  | none => exact hR.pure false
  | some stop => exact hR.bind (hR.onState _) fun _ => hR.pure true

variable (h : ∀ id, R (call id) (call' id))
include h

/-- By induction on the items: a match, a commit and the rest. -/
theorem matchAll_parametric (items : List ExprId) :
    R (matchAll call items) (matchAll call' items) := by
  induction items with
  | nil => exact hR.pure true
  | cons item rest ih =>
      refine hR.bind (h item) ?_
      intro matched
      cases matched with
      | true => exact hR.bind (hR.transition _ _) fun _ => ih
      | false => exact hR.pure false

/-- Over related callers a sequence is related to itself: it matches its items and goes back. -/
theorem sequence_parametric (items : List ExprId) :
    R (sequence call items) (sequence call' items) := by
  refine hR.bind hR.state fun s => hR.bind (matchAll_parametric hR h items) ?_
  intro matched
  cases matched with
  | true => exact hR.bind (hR.transition _ _) fun _ => hR.pure true
  | false => exact hR.bind (hR.onState _) fun _ => hR.pure false

/-- By induction on the alternatives. -/
theorem choice_parametric (items : List ExprId) : R (choice call items) (choice call' items) := by
  induction items with
  | nil => exact hR.pure false
  | cons item rest ih =>
      refine hR.bind (h item) ?_
      intro matched
      cases matched with
      | true => exact hR.pure true
      | false => exact ih

theorem optional_parametric (operand : ExprId) :
    R (optional call operand) (optional call' operand) :=
  hR.bind (h operand) fun _ => hR.pure true

/-- By induction on the rounds that are left. -/
theorem matchMany_parametric (operand : ExprId) (rounds count : Nat) :
    R (matchMany call operand rounds count) (matchMany call' operand rounds count) := by
  induction rounds generalizing count with
  | zero => exact hR.pure count
  | succ rounds ih =>
      refine hR.bind hR.state fun before => hR.bind (h operand) ?_
      intro matched
      cases matched with
      | false => exact hR.pure count
      | true =>
          refine hR.bind hR.state fun s => ?_
          by_cases hstay : s.stop = before.stop
          · simp only [if_pos hstay]
            exact hR.bind (hR.onState _) fun _ => hR.pure count
          · simp only [if_neg hstay]
            exact hR.bind (hR.transition _ _) fun _ => ih (count + 1)

/-- A repetition counts rounds and goes back by transitions of the state. -/
theorem repetition_parametric (text : Text) (least : Nat) (operand : ExprId) :
    R (repetition call text least operand) (repetition call' text least operand) := by
  refine hR.bind hR.state fun begun => hR.bind (matchMany_parametric hR h operand _ 0) ?_
  intro count
  by_cases hfew : count < least
  · simp only [if_pos hfew]
    exact hR.bind (hR.onState _) fun _ => hR.pure false
  · simp only [if_neg hfew]
    exact hR.bind (hR.transition _ _) fun _ => hR.pure true

theorem lookahead_parametric (operand : ExprId) :
    R (lookahead call operand) (lookahead call' operand) := by
  refine hR.bind (h operand) ?_
  intro matched
  cases matched with
  | true => exact hR.bind (hR.onState _) fun _ => hR.pure true
  | false => exact hR.pure false

/-- The recording is restored by `thenAlways`, which the relation respects too. -/
theorem negation_parametric (operand : ExprId) :
    R (negation call operand) (negation call' operand) := by
  refine hR.bind hR.state fun s => hR.bind (hR.onState _) fun _ => ?_
  refine hR.bind (hR.thenAlways (h operand) _) ?_
  intro matched
  cases matched with
  | true => exact hR.bind (hR.onState _) fun _ => hR.pure false
  | false => exact hR.pure true

/-- What is skipped is read off the grammar, so the settings may differ in their configurations. -/
theorem token_parametric (g : Grammar) (text : Text) (c c' : Config) (operand : ExprId) :
    R (token call ⟨g, text, c⟩ operand) (token call' ⟨g, text, c'⟩ operand) := by
  refine hR.bind (h operand) ?_
  intro matched
  cases matched with
  | false => exact hR.pure false
  | true =>
      simp only [if_true]
      cases g.whitespace with
      | none => exact hR.pure true
      | some ws =>
          refine hR.bind hR.state fun s => hR.bind (hR.lift _) ?_
          intro stop
          cases stop with
          | none => exact hR.bind (hR.pure ()) fun _ => hR.pure true
          | some stop => exact hR.bind (hR.onState _) fun _ => hR.pure true

theorem capture_parametric (text : Text) (operand : ExprId) (mode : CaptureMode) :
    R (capture call text operand mode) (capture call' text operand mode) := by
  refine hR.bind hR.state fun begun => hR.bind (h operand) ?_
  intro matched
  cases matched with
  | false => exact hR.pure false
  | true => exact hR.bind hR.state fun s => hR.bind (hR.onState _) fun _ => hR.pure true

end Combinators

/-! ## Growing forms -/

namespace Growth

variable (hR : Parametric R)
include hR

theorem replay_parametric (seed : Option Changes) : R (replay seed) (replay seed) := by
  cases seed with
  | none => exact hR.pure false
  | some changes => exact hR.bind (hR.transition _ _) fun _ => hR.pure true

/-- A seed is installed by changes of the state and the counters. -/
theorem install_parametric (key : SeedKey) (mark : Snapshot) :
    R (install key mark) (install key mark) := by
  refine hR.bind hR.state fun s => hR.bind (hR.onState _) fun _ => ?_
  exact hR.bind (hR.onTally _ fun _ => rfl) fun _ =>
    hR.bind (hR.onState _) fun _ => hR.pure s.extract

variable (h : ∀ id, R (call id) (call' id))
include h

/-- By induction on the runs that are left. -/
theorem grow_parametric (key : SeedKey) (operand : ExprId) (mark : Snapshot) (runs : Nat)
    (best : Option Changes) :
    R (grow call key operand mark runs best) (grow call' key operand mark runs best) := by
  induction runs generalizing best with
  | zero => exact hR.pure best
  | succ runs ih =>
      refine hR.bind (h operand) ?_
      intro matched
      cases matched with
      | false => exact hR.pure best
      | true =>
          refine hR.bind hR.state fun s => ?_
          by_cases hadvances : advances s.stop best = true
          · simp only [if_pos hadvances]
            exact hR.bind (install_parametric hR key mark) fun changes => ih (some changes)
          · simp only [if_neg hadvances]
            exact hR.bind (hR.onState _) fun _ => hR.pure best

/-- A boundary looks at the state and then replays, runs its operand or grows; what it did to seeds
    is undone always. -/
theorem leftRecursive_parametric (text : Text) (id operand : ExprId) (assoc : Bool) :
    R (leftRecursive call text id operand assoc) (leftRecursive call' text id operand assoc) := by
  refine hR.bind hR.state fun begun => ?_
  dsimp only
  split
  · exact replay_parametric hR _
  · split
    · exact hR.bind (hR.onState _) fun _ => hR.thenAlways (h operand) _
    · refine hR.bind (hR.onState _) fun _ => ?_
      exact hR.bind (hR.thenAlways (grow_parametric hR h _ operand _ _ none) _) (replay_parametric hR)

/-- By induction on the alternatives. -/
theorem climbOnce_parametric (key : SeedKey) (mark : Snapshot) (best : Option Changes)
    (alternatives : List ExprId) :
    R (climbOnce call key mark best alternatives) (climbOnce call' key mark best alternatives) := by
  induction alternatives with
  | nil => exact hR.pure none
  | cons alternative rest ih =>
      refine hR.bind (h alternative) ?_
      intro matched
      cases matched with
      | false => exact ih
      | true =>
          refine hR.bind hR.state fun s => ?_
          by_cases hadvances : advances s.stop best = true
          · simp only [if_pos hadvances]
            exact hR.bind (install_parametric hR key mark) fun changes => hR.pure (some changes)
          · simp only [if_neg hadvances]
            exact hR.bind (hR.onState _) fun _ => ih

/-- By induction on the rounds that are left. -/
theorem climb_parametric (key : SeedKey) (group : Group ExprId) (mark : Snapshot) (rounds : Nat)
    (best : Option Changes) :
    R (climb call key group mark rounds best) (climb call' key group mark rounds best) := by
  induction rounds generalizing best with
  | zero => exact hR.pure best
  | succ rounds ih =>
      refine hR.bind (climbOnce_parametric hR h key mark best group.alternatives) ?_
      intro grown
      cases grown with
      | none => exact hR.pure best
      | some changes =>
          by_cases hgrows : group.kind.grows = true
          · simp only [if_pos hgrows]
            exact ih (some changes)
          · simp only [if_neg hgrows]
            exact hR.pure (some changes)

/-- By induction on the groups. -/
theorem climbAll_parametric (text : Text) (key : SeedKey) (groups : List (Group ExprId))
    (best : Option Changes) :
    R (climbAll call text key groups best) (climbAll call' text key groups best) := by
  induction groups generalizing best with
  | nil => exact hR.pure best
  | cons group rest ih =>
      refine hR.bind (hR.onState _) fun _ => hR.bind hR.state fun s => ?_
      exact hR.bind (climb_parametric hR h key group _ _ best) ih

/-- A cluster looks at the state and then replays or climbs; what it did to seeds and floors is
    undone always. -/
theorem cluster_parametric (text : Text) (id : ExprId) (groups : List (Group ExprId)) :
    R (cluster call text id groups) (cluster call' text id groups) := by
  refine hR.bind hR.state fun begun => ?_
  dsimp only
  split
  · exact replay_parametric hR _
  · refine hR.bind (hR.onState _) fun _ => ?_
    exact hR.bind (hR.thenAlways (climbAll_parametric hR h text _ _ none) _) (replay_parametric hR)

/-- Floors and blocks are restored always. -/
theorem minPrecedence_parametric (operand : ExprId) (floor : Precedence) :
    R (minPrecedence call operand floor) (minPrecedence call' operand floor) :=
  hR.bind hR.state fun _ => hR.bind (hR.onState _) fun _ => hR.thenAlways (h operand) _

end Growth

/-! ## Custom expressions -/

namespace Programs

section Simple

variable (hR : Parametric R)
include hR

theorem moveTo_parametric (text : Text) (target : Nat) :
    R (moveTo text target) (moveTo text target) := by
  refine hR.bind hR.state fun s => ?_
  dsimp only
  split
  · exact hR.bind (hR.onState _) fun _ => hR.transition _ _
  · exact hR.throw _

theorem pushName_parametric (slot : Nat) (name : String) :
    R (pushName slot name) (pushName slot name) := by
  refine hR.bind hR.state fun s => ?_
  cases s.pushName? slot name with
  | none => exact hR.pure false
  | some s' => exact hR.bind (hR.onState _) fun _ => hR.pure true

theorem increase_parametric (slot amount : Nat) :
    R (increase slot amount) (increase slot amount) := by
  refine hR.bind hR.state fun s => ?_
  cases s.counter? slot with
  | none => exact hR.pure false
  | some amounts => exact hR.bind (hR.transition _ _) fun _ => hR.pure true

/-- A comparison reads the state, and aborts where the amounts do not add up. -/
theorem countAtLeast_parametric (slot amount : Nat) :
    R (countAtLeast slot amount) (countAtLeast slot amount) := by
  refine hR.bind hR.state fun s => ?_
  cases s.counter? slot with
  | none => exact hR.pure false
  | some amounts =>
      dsimp only
      split
      · exact hR.pure _
      · exact hR.throw _

theorem currentRun_parametric (text : Text) (members : List Char) :
    R (currentRun text members) (currentRun text members) :=
  hR.bind hR.state fun _ => hR.pure _

/-- A fingerprint is read off the parse state. -/
theorem fingerprint_parametric : R fingerprint fingerprint := by
  have hread : fingerprint = state >>= fun s =>
      if s.countersFit then pure s.fingerprint else throw (Fault.crash .slotRefusal) := by
    funext m
    change fingerprint m =
      (if m.state.countersFit then pure m.state.fingerprint
        else throw (Fault.crash .slotRefusal) : Matching Fingerprint) m
    rw [fingerprint]
    split <;> rfl
  rw [hread]
  refine hR.bind hR.state fun s => ?_
  split
  · exact hR.pure _
  · exact hR.throw _

end Simple

variable (hR : Parametric R) (h : ∀ id, R (call id) (call' id))
include hR h

theorem enter_parametric (id : ExprId) : R (enter call id) (enter call' id) := by
  refine hR.bind (hR.transition _ _) fun _ => hR.bind (h id) ?_
  intro matched
  cases matched with
  | false => exact hR.pure false
  | true => exact hR.bind (hR.transition _ _) fun _ => hR.pure true

theorem enterChild_parametric (children : List ExprId) (index : Nat) :
    R (enterChild call children index) (enterChild call' children index) := by
  rw [enterChild, enterChild]
  cases children[index]? with
  | none => exact hR.pure false
  | some id => exact enter_parametric hR h id

/-- By induction on the rounds that are left. -/
theorem enterMany_parametric (children : List ExprId) (index rounds : Nat) :
    R (enterMany call children index rounds) (enterMany call' children index rounds) := by
  induction rounds with
  | zero => exact hR.pure ()
  | succ rounds ih =>
      refine hR.bind hR.state fun before => hR.bind (enterChild_parametric hR h children index) ?_
      intro matched
      cases matched with
      | false => exact hR.pure ()
      | true =>
          refine hR.bind hR.state fun s => ?_
          by_cases hstay : s.stop = before.stop
          · simp only [if_pos hstay]
            exact hR.pure ()
          · simp only [if_neg hstay]
            exact ih

end Programs

namespace Programs

variable (g : Grammar) (text : Text) (c c' : Config)

mutual

/-- Only instructions that match a child, or hold programs, differ at all. -/
theorem step_parametric (hR : Parametric R) (h : ∀ id, R (call id) (call' id)) (id : ExprId)
    (children : List ExprId) (instr : Instr) :
    R (step ⟨g, text, c⟩ call id children instr) (step ⟨g, text, c'⟩ call' id children instr) := by
  cases instr with
  | call child =>
      simp only [step]
      exact enterChild_parametric hR h children child
  | callExpr target =>
      simp only [step]
      exact enter_parametric hR h target
  | «attempt» child =>
      simp only [step]
      exact hR.bind (enterChild_parametric hR h children child) fun _ => hR.pure true
  | repeated child =>
      simp only [step]
      exact hR.bind hR.state fun _ =>
        hR.bind (enterMany_parametric hR h children child _) fun _ => hR.pure true
  | branch child onMatch onFail =>
      simp only [step]
      refine hR.bind (enterChild_parametric hR h children child) ?_
      intro matched
      cases matched with
      | true => exact run_parametric hR h id children onMatch
      | false => exact run_parametric hR h id children onFail
  | atPosition position body =>
      simp only [step]
      refine hR.bind hR.state fun s => ?_
      by_cases hat : s.stop = position
      · simp only [if_pos hat]
        exact run_parametric hR h id children body
      · simp only [if_neg hat]
        exact hR.pure true
  | advance count =>
      simp only [step]
      exact hR.bind hR.state fun _ => hR.bind (moveTo_parametric hR text _) fun _ => hR.pure true
  | goTo position =>
      simp only [step]
      exact hR.bind (moveTo_parametric hR text _) fun _ => hR.pure true
  | take members =>
      simp only [step]
      exact hR.bind hR.state fun _ => hR.bind (moveTo_parametric hR text _) fun _ => hR.pure _
  | atEnd | beforeEnd =>
      simp only [step]
      exact hR.bind hR.state fun _ => hR.pure _
  | fail =>
      simp only [step]
      exact hR.pure false
  | abortExtension | abortInvariant =>
      simp only [step]
      exact hR.throw _
  | pushName slot name =>
      simp only [step]
      exact pushName_parametric hR slot name
  | pushRun slot members =>
      simp only [step]
      refine hR.bind (currentRun_parametric hR text members) fun found => hR.bind hR.state fun s => ?_
      split
      · exact hR.pure false
      · exact hR.bind hR.state fun _ =>
          hR.bind (moveTo_parametric hR text _) fun _ => pushName_parametric hR slot found
  | knownRun slot members =>
      simp only [step]
      refine hR.bind (currentRun_parametric hR text members) fun found => hR.bind hR.state fun s => ?_
      split
      · split
        · exact hR.bind hR.state fun _ =>
            hR.bind (moveTo_parametric hR text _) fun _ => hR.pure true
        · exact hR.pure false
      · exact hR.pure false
  | increase slot amount =>
      simp only [step]
      exact increase_parametric hR slot amount
  | countAtLeast slot amount =>
      simp only [step]
      exact countAtLeast_parametric hR slot amount
  | note label =>
      simp only [step]
      exact hR.bind (fingerprint_parametric hR) fun _ => hR.bind hR.state fun _ =>
        hR.bind (hR.log _) fun _ => hR.pure true
  | observe choose =>
      simp only [step]
      exact hR.bind hR.state fun s => run_parametric hR h id children (choose text s)

/-- A program is related to itself over related callers, by mutual induction on instructions and
    programs. -/
theorem run_parametric (hR : Parametric R) (h : ∀ id, R (call id) (call' id)) (id : ExprId)
    (children : List ExprId) (program : List Instr) :
    R (run ⟨g, text, c⟩ call id children program) (run ⟨g, text, c'⟩ call' id children program) := by
  cases program with
  | nil =>
      simp only [run]
      exact hR.pure true
  | cons instr rest =>
      simp only [run]
      refine hR.bind (step_parametric hR h id children instr) ?_
      intro matched
      cases matched with
      | true => exact run_parametric hR h id children rest
      | false => exact hR.pure false

end

end Programs

/-! ## Every shape -/

namespace Engine

/-- The configuration decides nothing in a shape.  What a custom expression does is left to whoever
    knows the relation. -/
theorem dispatch_parametric (hR : Parametric R) (g : Grammar) (text : Text) (c c' : Config)
    (h : ∀ id, R (call id) (call' id)) (id : ExprId) (shape : Shape ExprId)
    (hcustom : ∀ spec children, shape = .custom spec children →
      R (Programs.custom ⟨g, text, c⟩ call id spec children)
        (Programs.custom ⟨g, text, c'⟩ call' id spec children)) :
    R (dispatch ⟨g, text, c⟩ call id shape) (dispatch ⟨g, text, c'⟩ call' id shape) := by
  refine hR.bind hR.state fun s => ?_
  cases shape with
  | literal | any | range | set => exact Combinators.terminal_parametric hR _
  | sequence items => exact Combinators.sequence_parametric hR h items
  | choice items => exact Combinators.choice_parametric hR h items
  | optional operand => exact Combinators.optional_parametric hR h operand
  | zeroMore operand => exact Combinators.repetition_parametric hR h text 0 operand
  | oneMore operand => exact Combinators.repetition_parametric hR h text 1 operand
  | lookahead operand => exact Combinators.lookahead_parametric hR h operand
  | not operand => exact Combinators.negation_parametric hR h operand
  | token operand => exact Combinators.token_parametric hR h g text c c' operand
  | capture operand mode => exact Combinators.capture_parametric hR h text operand mode
  | leftRecursive operand assoc =>
      exact Growth.leftRecursive_parametric hR h text id operand assoc
  | cluster groups => exact Growth.cluster_parametric hR h text id groups
  | minPrecedence operand floor => exact Growth.minPrecedence_parametric hR h operand floor
  | reference name => exact hR.throw _
  | custom spec children => exact hcustom spec children rfl

end Engine

end Packrat
