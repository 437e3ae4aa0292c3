import Mathlib
import Packrat.Proofs.Contract.Invocation
import Packrat.Proofs.MemoProbes
import Packrat.Proofs.Parametric

/-! # The memo table of a run

    A form touches the memo table through its caller only, and the entry point stores one outcome
    for every miss.  So what holds of the empty table and is kept by storing holds of the table of
    every match that a parse performs. -/

namespace Packrat

open Matching Engine

/-! ## Programs that keep a property of the table -/

namespace Matching

variable {J : Table Fingerprint (Option Changes) → Prop}

/-- From a table with the property, both programs do the same and leave a table with it. -/
def Keeping (J : Table Fingerprint (Option Changes) → Prop) ⦃α : Type⦄ (x y : Matching α) : Prop :=
  ∀ m, J m.memo → x m = y m ∧ (∀ a m', x m = .ok a m' → J m'.memo) ∧
    ∀ e m', x m = .error e m' → J m'.memo

namespace Keeping

variable {α β : Type} {x y : Matching α}

/-- A program that answers and leaves a table with the property. -/
theorem of_ok (h : ∀ m, J m.memo → ∃ a m', x m = .ok a m' ∧ J m'.memo) : Keeping J x x := by
  intro m hm
  obtain ⟨a, m', hrun, hm'⟩ := h m hm
  rw [hrun]
  refine ⟨rfl, ?_, ?_⟩
  · rintro _ _ ⟨⟩
    exact hm'
  · rintro _ _ ⟨⟩

theorem throw (e : Fault) : Keeping J (throw e : Matching α) (throw e) := by
  refine fun m hm => ⟨rfl, ?_, ?_⟩
  · rintro _ _ ⟨⟩
  · rintro _ _ ⟨⟩
    exact hm

theorem lift (v : Except Fault α) : Keeping J (lift v) (lift v) := by
  cases v with
  | ok a => exact of_ok fun m hm => ⟨a, m, rfl, hm⟩
  | error e => exact throw e

theorem onTally (u : Tally → Tally) : Keeping J (onTally u) (onTally u) :=
  of_ok fun m hm => ⟨(), { m with tally := u m.tally }, rfl, hm⟩

theorem transition (allowed : ParseState → Bool) (u : ParseState → ParseState) :
    Keeping J (transition allowed u) (transition allowed u) := by
  refine fun m hm => ⟨rfl, ?_, ?_⟩
  · intro _ _ hrun
    rw [Matching.transition] at hrun
    split at hrun <;> cases hrun
    exact hm
  · intro _ _ hrun
    rw [Matching.transition] at hrun
    split at hrun <;> cases hrun
    exact hm

/-- What a program keeps in its parts it keeps as a whole. -/
theorem bind {x y : Matching β} {f f' : β → Matching α} (hx : Keeping J x y)
    (hf : ∀ b, Keeping J (f b) (f' b)) : Keeping J (x >>= f) (y >>= f') := by
  intro m hm
  obtain ⟨hsame, hok, herror⟩ := hx m hm
  simp only [Bind.bind, EStateM.bind, ← hsame]
  cases hrun : x m with
  | ok b m₁ => exact hf b m₁ (hok b m₁ hrun)
  | error e m₁ =>
      refine ⟨rfl, ?_, ?_⟩
      · rintro _ _ ⟨⟩
      · rintro _ _ ⟨⟩
        exact herror e m₁ hrun

/-- An analysis, and programs that are alike for its answer. -/
theorem lift_bind {v : Except Fault β} {f f' : β → Matching α}
    (hf : ∀ b, v = .ok b → Keeping J (f b) (f' b)) :
    Keeping J (Matching.lift v >>= f) (Matching.lift v >>= f') := by
  cases v with
  | ok b => exact hf b rfl
  | error e => exact throw e

/-- What is done to the state on the way out does not reach the table. -/
theorem thenAlways (h : Keeping J x y) (u : ParseState → ParseState) :
    Keeping J (thenAlways x u) (thenAlways y u) := by
  intro m hm
  obtain ⟨hsame, hok, herror⟩ := h m hm
  simp only [Matching.thenAlways]
  rw [← hsame]
  cases hrun : x m with
  | ok a m₁ =>
      refine ⟨rfl, ?_, ?_⟩
      · rintro _ _ ⟨⟩
        exact hok a m₁ hrun
      · rintro _ _ ⟨⟩
  | error e m₁ =>
      refine ⟨rfl, ?_, ?_⟩
      · rintro _ _ ⟨⟩
      · rintro _ _ ⟨⟩
        exact herror e m₁ hrun

/-- Forms keep what their callers keep. -/
theorem parametric : Parametric (Keeping J) where
  pure := fun a => of_ok fun m hm => ⟨a, m, rfl, hm⟩
  throw := throw
  lift := lift
  state := of_ok fun m hm => ⟨m.state, m, rfl, hm⟩
  onState := fun _ => of_ok fun _ hm => ⟨(), _, rfl, hm⟩
  onTally := fun u _ => onTally u
  log := fun _ => of_ok fun _ hm => ⟨(), _, rfl, hm⟩
  transition := transition
  bind := bind
  thenAlways := thenAlways

end Keeping

end Matching

/-! ## The entry point -/

namespace Engine

variable {J : Table Fingerprint (Option Changes) → Prop} {setting : Setting}
variable {call call' : Caller} {id : ExprId}

theorem countStep_keeping : Keeping J (countStep setting) (countStep setting) := by
  refine (Keeping.onTally _).bind fun _ => ?_
  refine (Keeping.of_ok fun m hm => ⟨m, m, rfl, hm⟩).bind fun m => ?_
  cases setting.config.maxSteps with
  | none => exact Keeping.parametric.pure ()
  | some limit =>
      dsimp only
      split
      · exact .throw _
      · exact Keeping.parametric.pure ()

/-- Computing a key only reads. -/
theorem memoKey_keeping : Keeping J (memoKey id) (memoKey id) :=
  (Programs.fingerprint_parametric Keeping.parametric).bind fun _ =>
    Keeping.parametric.state.bind fun _ => Keeping.parametric.pure _

/-- A lookup counts a hit or a miss and leaves the table as it is. -/
theorem consult_keeping (key : MemoKey Fingerprint) :
    Keeping J (consult setting key) (consult setting key) := by
  have hread : ∀ {α : Type} (f : Machine → Matching α), (∀ m, Keeping J (f m) (f m)) →
      Keeping J (get >>= f) (get >>= f) :=
    fun f hf => (Keeping.of_ok fun m hm => ⟨m, m, rfl, hm⟩).bind hf
  rw [consult]
  cases setting.config.memo with
  | table => exact hread _ fun _ => Keeping.parametric.pure _
  | traced => exact hread _ fun _ => (Keeping.parametric.log _).bind fun _ => Keeping.parametric.pure _
  | off => exact (Keeping.parametric.log _).bind fun _ => Keeping.parametric.pure _

/-- The one place where the table is written: the property has to survive an insertion. -/
theorem store_keeping (hstore : ∀ t key o, J t → J (t.insert key o)) (key : MemoKey Fingerprint)
    (o : Option Changes) : Keeping J (store setting key o) (store setting key o) := by
  refine .of_ok fun m hm => ?_
  rw [store]
  cases setting.config.memo with
  | table => exact ⟨(), _, rfl, hstore _ key o hm⟩
  | traced => exact ⟨(), _, rfl, hstore _ key o hm⟩
  | off => exact ⟨(), _, rfl, hm⟩

theorem recordFailure_keeping (expr : Expr) :
    Keeping J (recordFailure setting id expr) (recordFailure setting id expr) := by
  refine Keeping.parametric.state.bind fun s => ?_
  have hrecord : Keeping J
      (modify fun m => { m with failures := m.failures.record id s.stop } : Matching Unit)
      (modify fun m => { m with failures := m.failures.record id s.stop }) :=
    .of_ok fun m hm => ⟨(), _, rfl, hm⟩
  split
  · split
    · exact (Keeping.parametric.log _).bind fun _ => hrecord
    · exact hrecord
  · exact Keeping.parametric.pure ()

theorem replayMemo_keeping (expr : Expr) (o : Option Changes) :
    Keeping J (replayMemo setting id expr o) (replayMemo setting id expr o) := by
  refine (Keeping.onTally _).bind fun _ => ?_
  cases o with
  | some changes =>
      exact (Keeping.transition _ _).bind fun _ => Keeping.parametric.pure true
  | none => exact (recordFailure_keeping expr).bind fun _ => Keeping.parametric.pure false

/-- An evaluation writes to the table once, at its end; the children keep the property by
    assumption. -/
theorem evaluate_keeping (hstore : ∀ t key o, J t → J (t.insert key o))
    (h : ∀ i, Keeping J (call i) (call' i)) {expr : Expr}
    (hcustom : ∀ spec children, expr.shape ≠ .custom spec children)
    (key : Option (MemoKey Fingerprint)) :
    Keeping J (evaluate setting call id expr key) (evaluate setting call' id expr key) := by
  refine (dispatch_parametric Keeping.parametric setting.grammar setting.text setting.config
    setting.config h id expr.shape fun spec children hs => absurd hs (hcustom spec children)).bind
    fun matched => ?_
  have hend : Keeping J
      (do if !matched then recordFailure setting id expr
          return matched : Matching Bool)
      (do if !matched then recordFailure setting id expr
          return matched) := by
    cases matched with
    | true => exact Keeping.parametric.pure true
    | false => exact (recordFailure_keeping expr).bind fun _ => Keeping.parametric.pure false
  cases key with
  | none => exact hend
  | some key =>
      refine (Keeping.onTally _).bind fun _ => Keeping.parametric.state.bind fun s => ?_
      exact (store_keeping hstore key _).bind fun _ => hend

/-- An invocation keeps the property if those of its children do. -/
theorem attempt_keeping (setting : Setting) (hstore : ∀ t key o, J t → J (t.insert key o))
    (hcustom : ∀ i spec children, setting.grammar.shape? i ≠ some (.custom spec children))
    (h : ∀ i, Keeping J (call i) (call' i)) (id : ExprId) :
    Keeping J (attempt setting call id) (attempt setting call' id) := by
  refine countStep_keeping.bind fun _ => Keeping.lift_bind fun expr hnode => ?_
  have hshape := Grammar.shape?_of_node? (Grammar.node_ok hnode)
  have hevaluate : ∀ key, Keeping J (evaluate setting call id expr key)
      (evaluate setting call' id expr key) :=
    evaluate_keeping hstore h fun spec children hs => hcustom id spec children (hs ▸ hshape)
  split
  · refine memoKey_keeping.bind fun key => (consult_keeping key).bind fun answer => ?_
    cases answer with
    | some o => exact replayMemo_keeping expr o
    | none => exact hevaluate (some key)
  · exact hevaluate none

/-- Whatever every insertion keeps of the table, every invocation keeps, by induction on the
    nesting. -/
theorem invoke_keeping (setting : Setting) (hstore : ∀ t key o, J t → J (t.insert key o))
    (hcustom : ∀ i spec children, setting.grammar.shape? i ≠ some (.custom spec children))
    (nesting : Nat) (id : ExprId) :
    Keeping J (invoke setting nesting id) (invoke setting nesting id) := by
  induction nesting generalizing id with
  | zero => exact countStep_keeping.bind fun _ => Keeping.parametric.state.bind fun _ => .throw _
  | succ nesting ih =>
      rw [invoke_succ]
      exact attempt_keeping setting hstore hcustom ih id

end Engine

/-- What holds of the empty table and is kept by storing holds of the table of every match that a
    parse without custom expressions performs. -/
theorem Parser.Performs.memo {p : Parser} {text : Text} {nesting : Nat} {id : ExprId} {m : Machine}
    {J : Table Fingerprint (Option Changes) → Prop} (hempty : J .empty)
    (hstore : ∀ t key o, J t → J (t.insert key o))
    (hcustom : ∀ i spec children, p.grammar.shape? i ≠ some (.custom spec children))
    (h : p.Performs text nesting id m) : J m.memo := by
  induction h with
  | root => exact hempty
  | @child nesting id child m m' _ hasks ih =>
      obtain ⟨other, hagree, hdiffer⟩ := hasks
      by_contra hnot
      -- a caller that differs at `m'` only keeps the property as the engine does
      have hother : ∀ i, Keeping J (invoke (p.setting text) nesting i) (other i) := by
        intro i n hn
        obtain ⟨-, hok, herror⟩ :=
          invoke_keeping (p.setting text) hstore hcustom nesting i n hn
        refine ⟨(hagree i n ?_).symm, hok, herror⟩
        rintro ⟨⟩
        exact hnot hn
      exact hdiffer (attempt_keeping (p.setting text) hstore hcustom hother id m ih).1.symm

end Packrat
