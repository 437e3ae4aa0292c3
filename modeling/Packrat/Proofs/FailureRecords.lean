import Mathlib
import Packrat.Proofs.Contract.Asking
import Packrat.Proofs.Contract.WaysOut
import Packrat.Proofs.Limits
import Packrat.Proofs.ReportContents
import Packrat.Proofs.Transparency.Invocation

/-! # Which failures a parse records

    An expression that records errors fails at a position when a match of it is performed there, with
    recording on, and comes back without an answer (`FailsAt`).  Records arrive as these matches end,
    whether they were evaluated or answered by the memo table, and earlier positions may come after
    later ones.  In the end the failures are those at the farthest of the positions
    (`Farthest.Collects`), nothing else and none left out:

    * nothing else, since all that is recorded inside a match is recorded by what it asks for
      (`attempt_records`);
    * none left out, since a match that is asked for could otherwise have failed without a trace
      (`Performs.answered`). -/

namespace Packrat

open Matching Engine Relation

/-! ## Records -/

namespace Failures

variable {f f' : Failures} {S : ExprId → Nat → Prop} {K : Failures → Prop} {s : ParseState}
variable {id : ExprId} {expr : Expr} {b : Bool}

/-- Failures of a set were recorded, one after the other. -/
def Then (S : ExprId → Nat → Prop) : Failures → Failures → Prop :=
  ReflTransGen fun f f' => ∃ i q, S i q ∧ f' = f.record i q

/-- What every record keeps. -/
def Kept (K : Failures → Prop) : Prop :=
  ∀ f i q, K f → K (f.record i q)

theorem Then.keeps (h : f.Then S f') (hK : ∀ f i q, S i q → K f → K (f.record i q)) (hf : K f) :
    K f' := by
  induction h with
  | refl => exact hf
  | tail _ hrecord ih =>
      obtain ⟨i, q, hS, rfl⟩ := hrecord
      exact hK _ i q hS ih

theorem Then.kept (h : f.Then S f') (hK : Kept K) : K f → K f' :=
  h.keeps fun f i q _ => hK f i q

/-- As far as failures are kept at the farthest position, one of `id` at the position would add
    nothing. -/
def Covers (f : Failures) (id : ExprId) (position : Nat) : Prop :=
  ∀ farthest, f = .farthest farthest → farthest.Covers id position

theorem covers_record_self (f : Failures) (id : ExprId) (position : Nat) :
    (f.record id position).Covers id position := by
  intro farthest hf
  cases f with
  | farthest f =>
      cases hf
      exact Farthest.covers_record_self f id position
  | first failure => cases failure <;> cases hf
  | silent => cases hf

theorem kept_covers (id : ExprId) (position : Nat) : Kept fun f => f.Covers id position := by
  intro f i q hcovers farthest hf
  cases f with
  | farthest f =>
      cases hf
      exact (hcovers f rfl).record i q
  | first failure => cases failure <;> cases hf
  | silent => cases hf

/-- At the end of a match, its own failure is recorded at most. -/
theorem then_after (h : b = false → s.recording = true → expr.flags.recordErrors = true →
    S id s.stop) (f : Failures) : f.Then S (f.after s id expr b) := by
  rw [after]
  split
  · rename_i hrecords
    simp only [Bool.and_eq_true, Bool.not_eq_true'] at hrecords
    obtain ⟨hfailed, hrecording, herrors⟩ := hrecords
    exact .single ⟨id, s.stop, h hfailed hrecording herrors, rfl⟩
  · exact .refl

end Failures

namespace Farthest

variable {f : Farthest} {S : ExprId → Nat → Prop} {id : ExprId} {p : Nat}

/-- What is recorded is in the set; where something was recorded, an expression failed. -/
structure Sound (f : Farthest) (S : ExprId → Nat → Prop) : Prop where
  failed {p : Nat} : f.position = some p → ∀ id ∈ f.failed, S id p
  ne_nil : f.position ≠ none → f.failed ≠ []

theorem sound_empty : Sound {} S :=
  ⟨by rintro p ⟨⟩, fun h => absurd rfl h⟩

theorem Sound.record (h : f.Sound S) (hid : S id p) : (f.record id p).Sound S := by
  refine ⟨?_, failed_record_ne_nil h.ne_nil⟩
  intro q hq i hi
  have hle : ∀ {j r}, (f.record id p).Covers j r → r ≤ q := by
    intro j r hcovers
    rcases (covers_iff hq).mp hcovers with hlt | ⟨rfl, -⟩
    · exact hlt.le
    · exact le_rfl
  rcases (covers_record f id i p q).mp ((covers_iff hq).mpr (Or.inr ⟨rfl, hi⟩)) with
    ⟨p', hp', hlt | ⟨rfl, hmem⟩⟩ | hlt | ⟨rfl, rfl⟩
  · obtain ⟨j, hj⟩ := exists_covers (h.ne_nil (by simp [hp'])) hp'
    exact absurd (hle (hj.record id p)) hlt.not_ge
  · exact h.failed hp' i hmem
  · exact absurd (hle (covers_record_self f id p)) hlt.not_ge
  · exact hid

/-- The failures are those of the set at the farthest of its positions. -/
structure Collects (f : Farthest) (S : ExprId → Nat → Prop) : Prop extends Sound f S where
  covers {id : ExprId} {p : Nat} : S id p → f.Covers id p

theorem Collects.mem_failed (h : f.Collects S) (hp : f.position = some p) :
    id ∈ f.failed ↔ S id p := by
  constructor
  · exact h.failed hp id
  · intro hid
    rcases (covers_iff hp).mp (h.covers hid) with hlt | ⟨-, hmem⟩
    · exact absurd hlt (lt_irrefl p)
    · exact hmem

/-- The position is the farthest of the set. -/
theorem Collects.isGreatest (h : f.Collects S) (hp : f.position = some p) :
    IsGreatest {q | ∃ id, S id q} p := by
  constructor
  · obtain ⟨i, hi⟩ := List.exists_mem_of_ne_nil f.failed (h.ne_nil (by simp [hp]))
    exact ⟨i, h.failed hp i hi⟩
  · rintro q ⟨i, hi⟩
    rcases (covers_iff hp).mp (h.covers hi) with hlt | ⟨rfl, -⟩
    · exact hlt.le
    · exact le_rfl

theorem Collects.exists_position (h : f.Collects S) (hid : S id p) : ∃ q, f.position = some q := by
  obtain ⟨q, hq, -⟩ := h.covers hid
  exact ⟨q, hq⟩

end Farthest

/-! ## Programs that record failures of a set -/

namespace Matching

variable {S : ExprId → Nat → Prop} {K : Failures → Prop}

/-- Whenever `x` answers, it recorded failures of the set only, and `y` gives the same answer unless
    the property holds of the failures by then. -/
def Recording (S : ExprId → Nat → Prop) (K : Failures → Prop) ⦃α : Type⦄ (x y : Matching α) : Prop :=
  ∀ m a m', x m = .ok a m' → m.failures.Then S m'.failures ∧ (K m'.failures ∨ y m = .ok a m')

namespace Recording

variable {α β : Type} {x y : Matching α}

/-- A program that records nothing. -/
theorem unrecorded (h : ∀ m a m', x m = .ok a m' → m'.failures = m.failures) :
    Recording S K x x := by
  intro m a m' hrun
  rw [h m a m' hrun]
  exact ⟨.refl, Or.inr hrun⟩

variable (hK : Failures.Kept K)
include hK

theorem bind {x y : Matching β} {f f' : β → Matching α} (hx : Recording S K x y)
    (hf : ∀ b, Recording S K (f b) (f' b)) : Recording S K (x >>= f) (y >>= f') := by
  intro m a m' hrun
  obtain ⟨b, m₁, hfirst, hrest⟩ := bind_ok hrun
  obtain ⟨hthen, hsame⟩ := hx m b m₁ hfirst
  obtain ⟨hthen', hsame'⟩ := hf b m₁ a m' hrest
  refine ⟨hthen.trans hthen', ?_⟩
  rcases hsame with hholds | hsame
  · exact Or.inl (hthen'.kept hK hholds)
  · rw [bind_eq hsame]
    exact hsame'

omit hK in
theorem thenAlways (h : Recording S K x y) (u : ParseState → ParseState) :
    Recording S K (thenAlways x u) (thenAlways y u) := by
  intro m a m' hrun
  obtain ⟨m₁, hfirst, rfl⟩ := thenAlways_ok hrun
  obtain ⟨hthen, hsame⟩ := h m a m₁ hfirst
  exact ⟨hthen, hsame.imp_right thenAlways_eq⟩

/-- Forms record what their callers do. -/
theorem parametric : Parametric (Recording S K) where
  pure := by
    refine fun a => unrecorded ?_
    rintro m _ _ ⟨⟩
    rfl
  throw := fun _ _ _ _ hrun => nomatch hrun
  lift := by
    refine fun v => unrecorded fun m a m' hrun => ?_
    rw [(lift_ok hrun).2]
  state := by
    refine unrecorded ?_
    rintro m _ _ ⟨⟩
    rfl
  onState := by
    refine fun u => unrecorded ?_
    rintro m _ _ ⟨⟩
    rfl
  onTally := by
    refine fun u _ => unrecorded ?_
    rintro m _ _ ⟨⟩
    rfl
  log := by
    refine fun entry => unrecorded ?_
    rintro m _ _ ⟨⟩
    rfl
  transition := by
    refine fun allowed u => unrecorded fun m a m' hrun => ?_
    rw [transition] at hrun
    split at hrun <;> cases hrun
    rfl
  bind := bind hK
  thenAlways := thenAlways

end Recording

end Matching

variable {S : ExprId → Nat → Prop} {K : Failures → Prop} {g : Grammar} {text : Text} {c : Config}
variable {setting : Setting} {call call' : Caller} {m m' : Machine} {id : ExprId} {expr : Expr}
variable {b : Bool}

theorem Programs.custom_recording (hK : Failures.Kept K)
    (h : ∀ id, Recording S K (call id) (call' id)) (id : ExprId) (spec : Custom)
    (children : List ExprId) :
    Recording S K (custom ⟨g, text, c⟩ call id spec children)
      (custom ⟨g, text, c⟩ call' id spec children) := by
  intro m a m' hrun
  obtain ⟨m₁, hprogram, hend⟩ := custom_ok hrun
  obtain ⟨hthen, hsame⟩ := run_parametric g text c c (Recording.parametric hK) h id children
    spec.program m a m₁ hprogram
  have hfailures : m'.failures = m₁.failures := by
    rcases hend with ⟨-, -, rfl⟩ | ⟨-, rfl⟩ <;> rfl
  rw [hfailures]
  refine ⟨hthen, hsame.imp_right fun hsame => ?_⟩
  rw [← hrun]
  simp only [custom, hprogram, hsame]

namespace Engine

theorem dispatch_recording (hK : Failures.Kept K) (h : ∀ id, Recording S K (call id) (call' id))
    (id : ExprId) (shape : Shape ExprId) :
    Recording S K (dispatch setting call id shape) (dispatch setting call' id shape) :=
  dispatch_parametric (Recording.parametric hK) setting.grammar setting.text setting.config
    setting.config h id shape fun spec children _ => Programs.custom_recording hK h id spec children

/-- A match records what its caller does, and its own failure. -/
theorem attempt_recording (hK : Failures.Kept K)
    (h : ∀ i, Recording (fun _ _ => True) K (call i) (call' i)) (id : ExprId) :
    Recording (fun _ _ => True) K (attempt setting call id) (attempt setting call' id) := by
  intro m b m' hrun
  obtain ⟨expr, -, ⟨o, hanswered⟩ | ⟨m₁, m₂, hevaluated⟩⟩ := attempt_ok hrun
  · rw [hanswered.failures]
    exact ⟨Failures.then_after (fun _ _ _ => trivial) _, Or.inr (hanswered.again call')⟩
  · obtain ⟨hthen, hlike⟩ := dispatch_recording hK h id expr.shape m₁ b m₂ hevaluated.dispatched
    have hend : m₂.failures.Then (fun _ _ => True) (m₂.failures.after m₂.state id expr b) :=
      Failures.then_after (fun _ _ _ => trivial) _
    rw [hevaluated.failures]
    refine ⟨hevaluated.standing.failures ▸ hthen.trans hend, ?_⟩
    exact hlike.imp (hend.kept hK) (hevaluated.again call')

theorem invoke_recording (hK : Failures.Kept K) (nesting : Nat) (id : ExprId) :
    Recording (fun _ _ => True) K (invoke setting nesting id) (invoke setting nesting id) := by
  induction nesting generalizing id with
  | zero =>
      intro m b m' hrun
      obtain ⟨e, m₁, hfault, -⟩ :=
        invoke_zero setting.grammar setting.text setting.config id m
      cases hfault.symm.trans hrun
  | succ nesting ih => exact attempt_recording hK ih id

/-- What an answered match asks for is answered, and what every record keeps still holds when the match
    is done. -/
theorem Asks.answered {nesting : Nat} {child : ExprId} {n : Machine} (hK : Failures.Kept K)
    (h : Asks (fun call => attempt setting call id) (invoke setting nesting) m child n)
    (hrun : attempt setting (invoke setting nesting) id m = .ok b m') :
    ∃ b' n', invoke setting nesting child n = .ok b' n' ∧ (K n'.failures → K m'.failures) := by
  obtain ⟨other, hagree, hdiffer⟩ := h
  -- if the match makes no difference to the failures, any other answer would do
  have hnecessary : ∀ {K : Failures → Prop}, Failures.Kept K →
      (∀ b' n', invoke setting nesting child n = .ok b' n' → K n'.failures) → K m'.failures := by
    intro K hK hchild
    have hother : ∀ i, Recording (fun _ _ => True) K (invoke setting nesting i) (other i) := by
      intro i n' b' n'' hrun'
      obtain ⟨hthen, -⟩ := invoke_recording hK nesting i n' b' n'' hrun'
      by_cases heq : (i, n') = (child, n)
      · cases heq
        exact ⟨hthen, Or.inl (hchild b' n'' hrun')⟩
      · exact ⟨hthen, Or.inr ((hagree i n' heq).trans hrun')⟩
    refine (attempt_recording hK hother id m b m' hrun).2.resolve_right fun hsame => ?_
    exact hdiffer (hsame.trans hrun.symm)
  cases hinvoke : invoke setting nesting child n with
  | ok b' n' =>
      refine ⟨b', n', rfl, fun hholds => hnecessary hK ?_⟩
      rintro _ _ h
      cases hinvoke.symm.trans h
      exact hholds
  | error e n' =>
      refine (hnecessary (K := fun _ => False) (fun _ _ _ hfalse => hfalse) ?_).elim
      intro b' n'' h
      cases hinvoke.symm.trans h

/-- A match records what those that it asks for do, and its own failure. -/
theorem attempt_records {nesting : Nat}
    (hrun : attempt setting (invoke setting nesting) id m = .ok b m')
    (hasked : ∀ i n b' n',
      Asks (fun call => attempt setting call id) (invoke setting nesting) m i n →
      invoke setting nesting i n = .ok b' n' → n.failures.Then S n'.failures)
    (hown : ∀ expr s, setting.grammar.node? id = some expr → s = m.state ∨ s = m'.state →
      b = false → s.recording = true → expr.flags.recordErrors = true → S id s.stop) :
    m.failures.Then S m'.failures := by
  classical
  -- a caller that answers where it is asked only
  let asked : ExprId → Machine → Prop :=
    Asks (fun call => attempt setting call id) (invoke setting nesting) m
  let call : Caller := aborting (invoke setting nesting) fun i n => ¬ asked i n
  have hcall : ∀ i, Recording S (fun _ => True) (call i) (call i) := by
    intro i n b' n' hcalled
    by_cases hin : asked i n
    · have hinvoke : invoke setting nesting i n = .ok b' n' :=
        (if_neg (not_not.mpr hin)).symm.trans hcalled
      exact ⟨hasked i n b' n' hin hinvoke, Or.inl trivial⟩
    · cases (if_pos hin).symm.trans hcalled
  have hrun' : attempt setting call id m = .ok b m' :=
    attempt_of_asked hrun fun i n hin => if_neg (not_not.mpr hin)
  obtain ⟨expr, hnode, ⟨o, hanswered⟩ | ⟨m₁, m₂, hevaluated⟩⟩ := attempt_ok hrun'
  · rw [hanswered.failures]
    exact Failures.then_after (hown expr m.state hnode (Or.inl rfl)) _
  · obtain ⟨hthen, -⟩ := dispatch_recording (fun _ _ _ _ => trivial) hcall id expr.shape m₁ b m₂
      hevaluated.dispatched
    rw [hevaluated.failures]
    refine (hevaluated.standing.failures ▸ hthen).trans (Failures.then_after ?_ _)
    exact hown expr m₂.state hnode (Or.inr hevaluated.state.symm)

end Engine

/-! ## The failures of a parse -/

namespace Parser

variable {p : Parser} {nesting : Nat} {q : Nat}

/-- A match of an expression that records errors failed at a position while recording was on. -/
def FailsAt (p : Parser) (text : Text) (id : ExprId) (position : Nat) : Prop :=
  ∃ under m m' expr, p.PerformsUnder text under id m ∧
    p.matchAt text under.length id m = .ok false m' ∧ m.state.stop = position ∧
    m.state.recording = true ∧ p.grammar.node? id = some expr ∧ expr.flags.recordErrors = true

theorem Performs.failsAt (h : p.Performs text nesting id m)
    (hrun : invoke (p.setting text) nesting id m = .ok false m')
    (hnode : p.grammar.node? id = some expr) (hrecording : m.state.recording = true)
    (herrors : expr.flags.recordErrors = true) : p.FailsAt text id m.state.stop := by
  obtain ⟨under, hunder, hdepth⟩ := performs_iff_under.mp h
  have hnesting : p.config.maxDepth - under.length = nesting := by omega
  refine ⟨under, m, m', expr, hunder, ?_, rfl, hrecording, hnode, herrors⟩
  rw [matchAt, hnesting]
  exact hrun

/-- Whatever a match records are failures of matches that the parse performs. -/
theorem Performs.records (h : p.Performs text nesting id m)
    (hrun : invoke (p.setting text) nesting id m = .ok b m') :
    m.failures.Then (p.FailsAt text) m'.failures := by
  induction nesting generalizing id m b m' with
  | zero =>
      obtain ⟨e, m₁, hfault, -⟩ := invoke_zero p.grammar text p.config id m
      cases hfault.symm.trans hrun
  | succ nesting ih =>
      refine attempt_records hrun (fun i n b' n' hasked => ih (.child h hasked)) ?_
      rintro expr s hnode hstate rfl hrecording herrors
      have hback : m'.state = m.state := (h.honoured.2 _ m' hrun).failed rfl
      obtain rfl : s = m.state := hstate.elim (fun hs => hs) fun hs => hs.trans hback
      exact h.failsAt hrun hnode hrecording herrors

/-- A match that failed while recording was on recorded its failure last. -/
theorem Performs.recorded (h : p.Performs text nesting id m)
    (hrun : invoke (p.setting text) nesting id m = .ok false m')
    (hnode : p.grammar.node? id = some expr) (hrecording : m.state.recording = true)
    (herrors : expr.flags.recordErrors = true) :
    ∃ f : Failures, m'.failures = f.record id m.state.stop := by
  have hafter : ∀ f : Failures, f.after m.state id expr false = f.record id m.state.stop := by
    intro f
    simp [Failures.after, hrecording, herrors]
  cases nesting with
  | zero =>
      obtain ⟨e, m₁, hfault, -⟩ := invoke_zero p.grammar text p.config id m
      cases hfault.symm.trans hrun
  | succ nesting =>
      obtain ⟨expr', hnode', hcases⟩ := attempt_ok hrun
      cases hnode.symm.trans hnode'
      rcases hcases with ⟨o, hanswered⟩ | ⟨m₁, m₂, hevaluated⟩
      · exact ⟨_, hanswered.failures.trans (hafter _)⟩
      · have hfailures := hevaluated.failures
        rw [← hevaluated.state, (h.honoured.2 _ _ hrun).failed rfl] at hfailures
        exact ⟨_, hfailures.trans (hafter _)⟩

/-- In a parse that answers, every match answers, and what every record keeps still holds when the
    parse is done. -/
theorem Performs.answered (hK : Failures.Kept K) (h : p.Performs text nesting id m)
    {final : Machine} {succeeded : Bool} (hfinal : p.run text = .ok succeeded final) :
    ∃ b m', invoke (p.setting text) nesting id m = .ok b m' ∧ (K m'.failures → K final.failures) := by
  induction h with
  | root => exact ⟨succeeded, final, hfinal, fun hholds => hholds⟩
  | child _ hasks ih =>
      obtain ⟨b, m', hrun, hlater⟩ := ih
      obtain ⟨b', n', hchild, hholds⟩ := Asks.answered hK hasks hrun
      exact ⟨b', n', hchild, fun hn => hlater (hholds hn)⟩

/-- The failures of a parse are those at the farthest position of all at which a match failed. -/
theorem run_collects (hpolicy : p.config.failures = .farthest) {final : Machine} {succeeded : Bool}
    (hfinal : p.run text = .ok succeeded final) :
    ∃ f, final.failures = .farthest f ∧ f.Collects (p.FailsAt text) := by
  have hbegun : (Machine.initial p.config).failures = .farthest {} := by
    rw [Machine.initial, hpolicy]
    rfl
  have hthen : (Machine.initial p.config).failures.Then (p.FailsAt text) final.failures :=
    Performs.root.records hfinal
  have hrecords : ∀ (failures : Failures) i q, p.FailsAt text i q →
      (∃ f, failures = .farthest f ∧ f.Sound (p.FailsAt text)) →
        ∃ f, failures.record i q = .farthest f ∧ f.Sound (p.FailsAt text) := by
    rintro _ i q hfails ⟨f, rfl, hsound⟩
    exact ⟨f.record i q, rfl, hsound.record hfails⟩
  obtain ⟨f, hf, hsound⟩ := hthen.keeps hrecords ⟨{}, hbegun, Farthest.sound_empty⟩
  refine ⟨f, hf, hsound, ?_⟩
  rintro id q ⟨under, m, m', expr, hunder, hrun, rfl, hrecording, hnode, herrors⟩
  obtain ⟨b, m₁, hrun₁, hlater⟩ := hunder.performs.answered
    (Failures.kept_covers id m.state.stop) hfinal
  cases hrun.symm.trans hrun₁
  obtain ⟨failures, hlast⟩ := hunder.performs.recorded hrun hnode hrecording herrors
  refine hlater ?_ f hf
  rw [hlast]
  exact failures.covers_record_self id m.state.stop

end Parser

end Packrat
