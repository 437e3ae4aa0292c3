import Mathlib
import Packrat.Proofs.Limits
import Packrat.Proofs.Transparency.Outcomes

/-! # Where a limit aborts

    A limit does not change an answer, so a parse that gives a result gives the same one with more
    nesting and more steps allowed.  And a step limit aborts a parse if and only if the parse counts
    more matches than it allows: the count only grows, and a match is counted before anything else is
    done for it, so the first match beyond the limit is where the parse ends.

    * **`Metered`** — a program and the same program under a step limit; a bind rule, and with it every
      form and every match.
    * **`parseWith_limits`** — the two statements for a parse. -/

namespace Packrat

open Matching Engine

variable {limit : Nat}

/-! ## Programs under a step limit -/

namespace Matching

/-- Whenever `x` answers, its count of matches did not fall, and `y` gives the same answer as long as
    the count is within the limit, and is aborted once the count passes it. -/
def Metered (limit : Nat) ⦃α : Type⦄ (x y : Matching α) : Prop :=
  ∀ m a m', x m = .ok a m' → m.tally.invocations ≤ m'.tally.invocations ∧
    (m'.tally.invocations ≤ limit → y m = .ok a m') ∧
    (m.tally.invocations ≤ limit → limit < m'.tally.invocations →
      ∃ position m₁, y m = .error (.engine (.stepLimit limit position)) m₁)

namespace Metered

variable {α β : Type} {x y : Matching α}

/-- A program that counts no match. -/
theorem uncounted (h : ∀ m a m', x m = .ok a m' → m'.tally.invocations = m.tally.invocations) :
    Metered limit x x := by
  intro m a m' hrun
  have hcount := h m a m' hrun
  exact ⟨hcount.ge, fun _ => hrun, fun _ _ => by omega⟩

theorem throw (e : Fault) : Metered limit (throw e : Matching α) (throw e) :=
  fun _ _ _ hrun => nomatch hrun

theorem get : Metered limit (get : Matching Machine) get := by
  refine uncounted ?_
  rintro m _ _ ⟨⟩
  rfl

/-- A change that leaves the counters alone. -/
theorem modify {u : Machine → Machine} (h : ∀ m, (u m).tally = m.tally) :
    Metered limit (modify u : Matching Unit) (modify u) := by
  refine uncounted ?_
  rintro m _ _ ⟨⟩
  exact congrArg Tally.invocations (h m)

/-- A bind spends what its parts spend, one after the other. -/
theorem bind {x y : Matching β} {f f' : β → Matching α} (hx : Metered limit x y)
    (hf : ∀ b, Metered limit (f b) (f' b)) : Metered limit (x >>= f) (y >>= f') := by
  intro m a m' hrun
  obtain ⟨b, m₁, hfirst, hrest⟩ := bind_ok hrun
  obtain ⟨hgrows, hwithin, hbeyond⟩ := hx m b m₁ hfirst
  obtain ⟨hgrows', hwithin', hbeyond'⟩ := hf b m₁ a m' hrest
  refine ⟨hgrows.trans hgrows', ?_, ?_⟩
  · intro hle
    rw [bind_eq (hwithin (hgrows'.trans hle))]
    exact hwithin' hle
  · intro hbegun hlt
    -- the limit is passed before `f` begins, or by what `f` does
    by_cases hfirst' : m₁.tally.invocations ≤ limit
    · rw [bind_eq (hwithin hfirst')]
      exact hbeyond' hfirst' hlt
    · obtain ⟨position, m₂, habort⟩ := hbeyond hbegun (by omega)
      exact ⟨position, m₂, by simp only [Bind.bind, EStateM.bind, habort]⟩

/-- What is done on the way out spends nothing. -/
theorem thenAlways (h : Metered limit x y) (u : ParseState → ParseState) :
    Metered limit (thenAlways x u) (thenAlways y u) := by
  intro m a m' hrun
  obtain ⟨m₁, hfirst, rfl⟩ := thenAlways_ok hrun
  obtain ⟨hgrows, hwithin, hbeyond⟩ := h m a m₁ hfirst
  refine ⟨hgrows, fun hle => thenAlways_eq (hwithin hle), ?_⟩
  intro hbegun hlt
  obtain ⟨position, m₂, habort⟩ := hbeyond hbegun hlt
  exact ⟨position, m₂.withState (u m₂.state), by simp only [Matching.thenAlways, habort]⟩

/-- Forms are metered if their callers are. -/
theorem parametric : Parametric (Metered limit) where
  pure := by
    refine fun a => uncounted ?_
    rintro m _ _ ⟨⟩
    rfl
  throw := throw
  lift := by
    refine fun v => uncounted fun m a m' hrun => ?_
    rw [(lift_ok hrun).2]
  state := by
    refine uncounted ?_
    rintro m _ _ ⟨⟩
    rfl
  onState := by
    refine fun u => uncounted ?_
    rintro m _ _ ⟨⟩
    rfl
  onTally := by
    refine fun u hu => uncounted ?_
    rintro m _ _ ⟨⟩
    exact hu m.tally
  log := by
    refine fun entry => uncounted ?_
    rintro m _ _ ⟨⟩
    rfl
  transition := by
    refine fun allowed u => uncounted fun m a m' hrun => ?_
    rw [transition] at hrun
    split at hrun <;> cases hrun
    rfl
  bind := bind
  thenAlways := thenAlways

end Metered

end Matching

variable {g : Grammar} {text : Text} {c c' : Config} {setting : Setting} {call call' : Caller}

/-- A custom program spends what the children it enters do. -/
theorem Programs.custom_metered (h : ∀ id, Metered limit (call id) (call' id)) (id : ExprId)
    (spec : Custom) (children : List ExprId) :
    Metered limit (custom ⟨g, text, c⟩ call id spec children)
      (custom ⟨g, text, c'⟩ call' id spec children) := by
  have hprogram := run_parametric g text c c' Metered.parametric h id children spec.program
  intro m a m' hrun
  simp only [custom] at hrun ⊢
  cases hinner : run ⟨g, text, c⟩ call id children spec.program m with
  | error e m₁ =>
      rw [hinner] at hrun
      cases hrun
  | ok matched m₁ =>
      obtain ⟨hgrows, hwithin, hbeyond⟩ := hprogram m matched m₁ hinner
      have hcount : m'.tally.invocations = m₁.tally.invocations := by
        rw [hinner] at hrun
        cases matched with
        | false =>
            cases hrun
            rfl
        | true =>
            obtain ⟨⟨⟩, m₂, huncommit, hpure⟩ := bind_ok hrun
            rw [uncommit, transition] at huncommit
            split at huncommit <;> cases huncommit
            cases hpure
            rfl
      rw [hcount]
      refine ⟨hgrows, fun hle => ?_, fun hbegun hlt => ?_⟩
      · rw [hwithin hle, ← hrun, hinner]
      · obtain ⟨position, m₂, habort⟩ := hbeyond hbegun hlt
        exact ⟨position, _, by rw [habort]⟩

/-! ## Every match -/

/-- The machine with one more match counted. -/
abbrev Machine.counted (m : Machine) : Machine :=
  { m with tally := { m.tally with invocations := m.tally.invocations + 1 } }

namespace Engine

/-- Counting a match is where the limit is met. -/
theorem countStep_metered (g : Grammar) (text : Text) (c : Config) :
    Metered limit (countStep ⟨g, text, { c with maxSteps := none }⟩)
      (countStep ⟨g, text, { c with maxSteps := some limit }⟩) := by
  intro m a m' hrun
  have hlimited : countStep ⟨g, text, { c with maxSteps := some limit }⟩ m =
      if limit < m.tally.invocations + 1 then
        .error (.engine (.stepLimit limit m.state.stop)) m.counted else .ok () m.counted := by
    by_cases hlt : limit < m.tally.invocations + 1
    · rw [if_pos hlt]
      exact congrFun (if_pos hlt : _ = (MonadExcept.throw _ : Matching Unit)) m.counted
    · rw [if_neg hlt]
      exact congrFun (if_neg hlt : _ = (Pure.pure () : Matching Unit)) m.counted
  obtain rfl : m.counted = m' := by
    cases hrun
    rfl
  refine ⟨Nat.le_succ _, fun hle => ?_, fun _ hlt => ?_⟩
  · rw [hlimited, if_neg (Nat.not_lt.mpr hle)]
  · exact ⟨m.state.stop, m.counted, by rw [hlimited, if_pos hlt]⟩

/-- Computing a key spends nothing. -/
theorem memoKey_metered (id : ExprId) : Metered limit (memoKey id) (memoKey id) :=
  (Programs.fingerprint_parametric Metered.parametric).bind fun _ =>
    Metered.parametric.state.bind fun _ => Metered.parametric.pure _

theorem consult_metered (key : MemoKey Fingerprint) :
    Metered limit (consult setting key) (consult setting key) := by
  rw [consult]
  cases setting.config.memo with
  | table => exact Metered.get.bind fun _ => Metered.parametric.pure _
  | traced =>
      exact Metered.get.bind fun _ => (Metered.parametric.log _).bind fun _ =>
        Metered.parametric.pure _
  | off => exact (Metered.parametric.log _).bind fun _ => Metered.parametric.pure _

theorem store_metered (key : MemoKey Fingerprint) (o : Option Changes) :
    Metered limit (store setting key o) (store setting key o) := by
  rw [store]
  cases setting.config.memo with
  | table => exact Metered.modify fun _ => rfl
  | traced =>
      refine (Metered.parametric.log _).bind fun _ => Metered.bind (Metered.modify fun _ => rfl) ?_
      exact fun _ => Metered.get.bind fun _ => Metered.parametric.log _
  | off => exact Metered.parametric.log _

theorem recordFailure_metered (id : ExprId) (expr : Expr) :
    Metered limit (recordFailure setting id expr) (recordFailure setting id expr) := by
  refine Metered.parametric.state.bind fun s => ?_
  dsimp only
  split
  · split
    · exact (Metered.parametric.log _).bind fun _ => Metered.modify fun _ => rfl
    · exact Metered.modify fun _ => rfl
  · exact Metered.parametric.pure ()

theorem replayMemo_metered (id : ExprId) (expr : Expr) (o : Option Changes) :
    Metered limit (replayMemo setting id expr o) (replayMemo setting id expr o) := by
  refine Metered.bind (Metered.parametric.onTally _ fun _ => rfl) fun _ => ?_
  cases o with
  | some changes => exact (Metered.parametric.transition _ _).bind fun _ => Metered.parametric.pure _
  | none => exact (recordFailure_metered id expr).bind fun _ => Metered.parametric.pure false

/-- An evaluation spends what its children do. -/
theorem evaluate_metered (g : Grammar) (text : Text) (c : Config) (steps steps' : Option Nat)
    (h : ∀ id, Metered limit (call id) (call' id)) (id : ExprId) (expr : Expr)
    (key : Option (MemoKey Fingerprint)) :
    Metered limit (evaluate ⟨g, text, { c with maxSteps := steps }⟩ call id expr key)
      (evaluate ⟨g, text, { c with maxSteps := steps' }⟩ call' id expr key) := by
  refine (dispatch_parametric Metered.parametric g text _ _ h id expr.shape
    fun spec children _ => Programs.custom_metered h id spec children).bind fun matched => ?_
  have hend : Metered limit
      (do if !matched then recordFailure ⟨g, text, { c with maxSteps := steps }⟩ id expr
          return matched : Matching Bool)
      (do if !matched then recordFailure ⟨g, text, { c with maxSteps := steps' }⟩ id expr
          return matched) := by
    cases matched with
    | true => exact Metered.parametric.pure true
    | false => exact (recordFailure_metered id expr).bind fun _ => Metered.parametric.pure false
  cases key with
  | none => exact hend
  | some key =>
      refine Metered.bind (Metered.parametric.onTally _ fun _ => rfl) fun _ => ?_
      exact Metered.parametric.state.bind fun s => (store_metered key _).bind fun _ => hend

/-- An attempt spends one step, and what the evaluation does. -/
theorem attempt_metered (g : Grammar) (text : Text) (c : Config)
    (h : ∀ id, Metered limit (call id) (call' id)) (id : ExprId) :
    Metered limit (attempt ⟨g, text, { c with maxSteps := none }⟩ call id)
      (attempt ⟨g, text, { c with maxSteps := some limit }⟩ call' id) := by
  refine (countStep_metered g text c).bind fun _ => (Metered.parametric.lift _).bind fun expr => ?_
  have hevaluate := evaluate_metered g text c none (some limit) h id expr
  have hsame : memoizes ⟨g, text, { c with maxSteps := some limit }⟩ expr =
    memoizes ⟨g, text, { c with maxSteps := none }⟩ expr := rfl
  rw [hsame]
  split
  · refine (memoKey_metered id).bind fun key => (consult_metered key).bind fun answer => ?_
    cases answer with
    | some outcome => exact replayMemo_metered id expr outcome
    | none => exact hevaluate (some key)
  · exact hevaluate none

/-- A match under a step limit is the match without it, until the limit is passed. -/
theorem invoke_metered (limit : Nat) (g : Grammar) (text : Text) (c : Config) (nesting : Nat)
    (id : ExprId) :
    Metered limit (invoke ⟨g, text, { c with maxSteps := none }⟩ nesting id)
      (invoke ⟨g, text, { c with maxSteps := some limit }⟩ nesting id) := by
  induction nesting generalizing id with
  | zero =>
      exact (countStep_metered g text c).bind fun _ => Metered.parametric.state.bind fun _ =>
        fun _ _ _ hrun => nomatch hrun
  | succ nesting ih =>
      rw [invoke_succ, invoke_succ]
      exact attempt_metered g text c ih id

end Engine

/-! ## A parse -/

variable {source : String} {r : ParseResult}

/-- Whether a parser is made does not depend on the configuration. -/
theorem parseWith_parses (h : (parseWith g c source).outcome = .ok r) :
    ∃ root, ∀ c', parseWith g c' source = Parser.parse ⟨g, root, c'⟩ source := by
  by_cases hprepared : g.prepared = true
  · cases hroot : g.root with
    | some root =>
        refine ⟨root, fun c' => ?_⟩
        rw [parseWith, Parser.make, if_pos hprepared, hroot]
    | none =>
        rw [parseWith, Parser.make, if_pos hprepared, hroot] at h
        cases h
  · rw [parseWith, Parser.make, if_neg hprepared] at h
    cases h

/-- The counters of a result are those of the machine. -/
theorem Parser.tally_of_conclude {p : Parser} {b : Bool} {m : Machine}
    (h : p.conclude text b m = .ok r) : r.tally = m.tally := by
  simp only [conclude] at h
  generalize (if b then m.state.stop else 0) = stop at h
  by_cases hmatched : (b && stop == text.length) = true
  · simp only [hmatched, if_true] at h
    cases h
    rfl
  · simp only [hmatched] at h
    cases hreport : p.reportFor text m.failures stop with
    | error e =>
        simp only [hreport] at h
        cases h
    | ok report =>
        simp only [hreport] at h
        cases h
        rfl

/-- A parse that gives a result is a run that answers and counts what the result tells. -/
theorem Parser.run_of_parse {p : Parser} (h : (p.parse source).outcome = .ok r) :
    ∃ b m, p.run (.ofString source) = .ok b m ∧ r.tally = m.tally := by
  obtain ⟨b, m, hrun, hconclude⟩ := parse_ok h
  exact ⟨b, m, hrun, tally_of_conclude hconclude⟩

/-- Limits only abort.  A parse that gives a result is the same with more nesting and more steps
    allowed.  Of a parse that gives a result without a step limit, a step limit makes no difference
    if it allows the matches that the parse counts, and otherwise the parse is aborted there. -/
theorem parseWith_limits (g : Grammar) (c : Config) (source : String) (r : ParseResult) :
    ((parseWith g c source).outcome = .ok r →
      ∀ depth steps, c.maxDepth ≤ depth → StepsWithin c.maxSteps steps →
        parseWith g { c with maxDepth := depth, maxSteps := steps } source = parseWith g c source) ∧
    ((parseWith g { c with maxSteps := none } source).outcome = .ok r → ∀ limit,
      ((∃ position, (parseWith g { c with maxSteps := some limit } source).outcome =
          .error (.engine (.stepLimit limit position))) ↔ limit < r.tally.invocations) ∧
      (r.tally.invocations ≤ limit →
        parseWith g { c with maxSteps := some limit } source =
          parseWith g { c with maxSteps := none } source)) := by
  refine ⟨fun h depth steps hdepth hsteps => ?_, fun h limit => ?_⟩
  · obtain ⟨root, hparses⟩ := parseWith_parses h
    rw [hparses] at h
    obtain ⟨b, m, hrun, -⟩ := Parser.run_of_parse h
    have hrun' : Parser.run ⟨g, root, { c with maxDepth := depth, maxSteps := steps }⟩
        (.ofString source) = .ok b m :=
      invoke_extends g _ c hdepth hsteps root _ b m hrun
    rw [hparses, hparses, Parser.parse, Parser.parse, hrun, hrun']
    rfl
  · obtain ⟨root, hparses⟩ := parseWith_parses h
    rw [hparses] at h
    obtain ⟨b, m, hrun, htally⟩ := Parser.run_of_parse h
    obtain ⟨-, hwithin, hbeyond⟩ :=
      invoke_metered limit g (.ofString source) c c.maxDepth root _ b m hrun
    rw [← htally] at hwithin hbeyond
    have hsame : r.tally.invocations ≤ limit →
        parseWith g { c with maxSteps := some limit } source =
          parseWith g { c with maxSteps := none } source := by
      intro hle
      have hrun' : Parser.run ⟨g, root, { c with maxSteps := some limit }⟩ (.ofString source) =
          .ok b m := hwithin hle
      rw [hparses, hparses, Parser.parse, Parser.parse, hrun, hrun']
      rfl
    refine ⟨⟨?_, fun hlt => ?_⟩, hsame⟩
    · rintro ⟨position, habort⟩
      by_contra hle
      rw [hsame (Nat.not_lt.mp hle), hparses, h] at habort
      cases habort
    · obtain ⟨position, m₁, habort⟩ := hbeyond (Nat.zero_le _) hlt
      have habort' : Parser.run ⟨g, root, { c with maxSteps := some limit }⟩ (.ofString source) =
          .error (.engine (.stepLimit limit position)) m₁ := habort
      exact ⟨position, by rw [hparses, Parser.parse, habort']⟩

/-- Sixteen invocations: thirty steps change nothing, and nor does more depth. -/
theorem parseWith_limits_signed :
    ∃ r, (parseWith signed {} "n+-").outcome = .ok r ∧ r.tally.invocations = 16 ∧
      parseWith signed { maxDepth := 600, maxSteps := some 30 } "n+-" =
        parseWith signed { maxSteps := some 20 } "n+-" ∧
      (∃ position, (parseWith signed { maxSteps := some 15 } "n+-").outcome =
        .error (.engine (.stepLimit 15 position))) ∧
      parseWith signed { maxSteps := some 16 } "n+-" = parseWith signed {} "n+-" := by
  obtain ⟨r, h, hcount⟩ := exists_of_toOption (f := fun r => r.tally.invocations) (b := 16)
    (x := (parseWith signed {} "n+-").outcome) (by decide +kernel)
  obtain ⟨r', h', -⟩ := exists_of_toOption (f := ParseResult.matched) (b := false)
    (x := (parseWith signed { maxSteps := some 20 } "n+-").outcome) (by decide +kernel)
  have hlimits := (parseWith_limits signed {} "n+-" r).2 h
  have hmore := (parseWith_limits signed { maxSteps := some 20 } "n+-" r').1 h' 600 (some 30)
    (by decide) (by
      rintro limit ⟨⟩
      exact ⟨20, rfl, by decide⟩)
  exact ⟨r, h, hcount, hmore, (hlimits 15).1.mpr (by omega), (hlimits 16).2 (by omega)⟩

end Packrat
