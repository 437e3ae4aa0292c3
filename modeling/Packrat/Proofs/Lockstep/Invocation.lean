import Packrat.Engine.Invoke
import Packrat.Proofs.Contract.Invocation
import Packrat.Proofs.Lockstep.Forms

/-! # Matching in lockstep

    Take two grammars whose expressions correspond as far as a `Lockstep` goes: the shapes are the
    same but for what the children are called, clusters admit groups that correspond, and after
    tokens the same is skipped (`Ties`).  Then matching an expression and matching the one that
    corresponds to it keep in step, whatever the nesting and the limits (`invoke_inStep`).  That also
    holds with memoization if the memo tables answer alike (`Memoizes`). -/

namespace Packrat

/-- Forms that neither read floors nor set them.  What a custom expression does is not known. -/
def Shape.ignoresFloors {α : Type} : Shape α → Bool
  | .cluster _ | .minPrecedence _ _ | .custom _ _ => false
  | _ => true

namespace Lockstep

open Matching Engine

/-! ## Grammars -/

/-- Shapes that correspond. -/
inductive Shapes (L : Lockstep) (id : ExprId) : Shape ExprId → Shape ExprId → Prop where
  | plain {s : Shape ExprId} (hplain : s.ignoresFloors = true)
      (hpart : ∀ child ∈ s.children, L.part child) : Shapes L id s (s.map L.image)
  | minPrecedence {operand : ExprId} {floor : Precedence} (hpart : L.part operand)
      (hfloor : L.floors (.uniform floor) (.uniform floor)) :
      Shapes L id (.minPrecedence operand floor) (.minPrecedence (L.image operand) floor)
  | cluster {groups groups' : List (Group ExprId)} (hgroups : L.Clusters id groups groups') :
      Shapes L id (.cluster groups) (.cluster groups')

/-- The nodes of an expression: they correspond, or both are missing. -/
inductive Nodes (L : Lockstep) (id : ExprId) : Option Expr → Option Expr → Prop where
  | missing (hfault : L.fault (.crash (.noSuchExpr id)) (.crash (.noSuchExpr (L.image id)))) :
      Nodes L id none none
  | found {e e' : Expr} (hflags : e'.flags = e.flags) (hshape : L.Shapes id e.shape e'.shape) :
      Nodes L id (some e) (some e')

/-- Grammars that correspond. -/
structure Ties (L : Lockstep) (g g' : Grammar) (text : Text) : Prop where
  node : ∀ id, L.part id → L.Nodes id (g.node? id) (g'.node? (L.image id))
  skip : Option.Rel (fun ws ws' => ∀ p, L.Answers (g.skip text ws p) (g'.skip text ws' p))
    g.whitespace g'.whitespace

/-- Keys of outcomes in states that correspond. -/
inductive Keys (L : Lockstep) : MemoKey Fingerprint → MemoKey Fingerprint → Prop where
  | intro {s s' : ParseState} {id : ExprId} (hstate : L.State s s') (hpart : L.part id) :
      Keys L (keyAt s id) (keyAt s' (L.image id))

/-- The memo tables answer alike if they are asked; then all that is logged has to be as good as
    anything. -/
structure Memoizes (L : Lockstep) (policy : MemoPolicy) : Prop where
  get? {t t' : Table Fingerprint (Option Changes)} {k k' : MemoKey Fingerprint} : policy ≠ .off →
    L.memo t t' → L.Keys k k' → t'.get? k' = t.get? k
  insert {t t' : Table Fingerprint (Option Changes)} {k k' : MemoKey Fingerprint}
    (outcome : Option Changes) : policy ≠ .off → L.memo t t' → L.Keys k k' →
    L.memo (t.insert k outcome) (t'.insert k' outcome)
  log {l l' : List LogEntry} (entry entry' : LogEntry) : L.log l l' →
    L.log (entry :: l) (entry' :: l')

variable {L : Lockstep} {g g' : Grammar} {text : Text} {c : Config}
variable {call call' : Caller} {id : ExprId} {e e' : Expr}

/-! ## Shapes -/

/-- Every shape is matched in step, by the lemma of its form. -/
theorem dispatch_inStep (hg : L.Ties g g' text) (hcall : L.Callers call call') (hid : L.part id)
    {s s' : Shape ExprId} (hs : L.Shapes id s s') :
    L.InStep Eq (dispatch ⟨g, text, c⟩ call id s) (dispatch ⟨g', text, c⟩ call' (L.image id) s') := by
  refine InStep.state.bind fun begun _ hbegun => ?_
  obtain ⟨-, -⟩ := hbegun
  cases hs with
  | minPrecedence hpart hfloor => exact minPrecedence_inStep hcall hpart hfloor
  | cluster hgroups => exact cluster_inStep hcall hid text hgroups
  | plain hplain hs =>
      cases s with
      | literal | any | range | set => exact terminal_inStep _
      | sequence items => exact sequence_inStep hcall items hs
      | choice items => exact choice_inStep hcall items hs
      | optional e => exact optional_inStep hcall (hs e (List.mem_singleton_self e))
      | zeroMore e => exact repetition_inStep hcall (hs e (List.mem_singleton_self e)) text 0
      | oneMore e => exact repetition_inStep hcall (hs e (List.mem_singleton_self e)) text 1
      | lookahead e => exact lookahead_inStep hcall (hs e (List.mem_singleton_self e))
      | not e => exact negation_inStep hcall (hs e (List.mem_singleton_self e))
      | token e => exact token_inStep hcall (hs e (List.mem_singleton_self e)) hg.skip
      | capture e mode => exact capture_inStep hcall (hs e (List.mem_singleton_self e)) text mode
      | leftRecursive e assoc =>
          exact leftRecursive_inStep hcall hid (hs e (List.mem_singleton_self e)) text assoc
      | reference name => exact .throw _
      | cluster | minPrecedence | custom => cases hplain

/-! ## Memoization and failures -/

/-- The key is what the state shows; it can only fail on counters that are out of range. -/
theorem memoKey_run (id : ExprId) (m : Machine) : memoKey id m =
    if m.state.countersFit then .ok (keyAt m.state id) m else .error (.crash .slotRefusal) m := by
  by_cases hfit : m.state.countersFit = true
  · rw [if_pos hfit, memoKey,
      bind_eq (show fingerprint m = .ok m.state.fingerprint m from if_pos hfit)]
    rfl
  · rw [if_neg hfit]
    simp only [memoKey, Bind.bind, EStateM.bind,
      show fingerprint m = .error (.crash .slotRefusal) m from if_neg hfit]

/-- Nodes that correspond have keys that correspond in machines that do. -/
theorem memoKey_inStep (hid : L.part id) :
    L.InStep L.Keys (memoKey id) (memoKey (L.image id)) := by
  intro m m' hm
  have hfit : m'.state.countersFit = m.state.countersFit := hm.state.reads fun _ _ _ => rfl
  rw [memoKey_run, memoKey_run, hfit]
  split
  · exact .ok (.intro hm.state hid) hm
  · exact .error (L.sameFault _) hm

section Memoized

variable {k k' : MemoKey Fingerprint} (hL : L.Memoizes c.memo)
include hL

/-- A table holds the same answer under keys that correspond, so a lookup hits on both sides or on
    neither. -/
theorem consult_inStep (hk : L.Keys k k') :
    L.InStep Eq (consult ⟨g, text, c⟩ k) (consult ⟨g', text, c⟩ k') := by
  intro m m' hm
  cases hmemo : c.memo with
  | table =>
      have hget := hL.get? (hmemo ▸ by decide) hm.memo hk
      simp only [consult, hmemo]
      exact .ok hget.symm hm
  | traced =>
      have hget := hL.get? (hmemo ▸ by decide) hm.memo hk
      simp only [consult, hmemo]
      exact .ok hget.symm { hm with log := hL.log _ _ hm.log }
  | off =>
      simp only [consult, hmemo]
      exact .ok rfl { hm with log := hL.log _ _ hm.log }

/-- What is stored under keys that correspond is found under them again. -/
theorem store_inStep (hk : L.Keys k k') (outcome : Option Changes) :
    L.InStep Anything (store ⟨g, text, c⟩ k outcome) (store ⟨g', text, c⟩ k' outcome) := by
  intro m m' hm
  cases hmemo : c.memo with
  | table =>
      have hinsert := hL.insert outcome (hmemo ▸ by decide) hm.memo hk
      simp only [store, hmemo]
      exact .ok trivial { hm with memo := hinsert }
  | traced =>
      have hinsert := hL.insert outcome (hmemo ▸ by decide) hm.memo hk
      simp only [store, hmemo]
      exact .ok trivial { hm with memo := hinsert, log := hL.log _ _ (hL.log _ _ hm.log) }
  | off =>
      simp only [store, hmemo]
      exact .ok trivial { hm with log := hL.log _ _ hm.log }

end Memoized

/-- A failure is recorded for the node and for its image, at the same position. -/
theorem recordFailure_inStep (hid : L.part id) (hflags : e'.flags = e.flags) :
    L.InStep Anything (recordFailure ⟨g, text, c⟩ id e)
      (recordFailure ⟨g', text, c⟩ (L.image id) e') := by
  refine InStep.state.bind fun s _ hs => ?_
  obtain ⟨-, -⟩ := hs
  rw [hflags]
  have hrecord : L.InStep Anything
      (modify fun m => { m with failures := m.failures.record id s.stop })
      (modify fun m => { m with failures := m.failures.record (L.image id) s.stop }) :=
    fun m m' hm => .ok trivial { hm with failures := L.record s.stop hm.failures hid }
  split
  · dsimp only
    split
    · exact (InStep.log fun _ _ h => L.recordLog s.stop h hid).andThen hrecord
    · exact (InStep.value ()).bindEq fun _ => hrecord
  · exact .pure trivial

/-! ## Invocation -/

/-- An answer of the table is replayed alike, its failure recorded under the renamed node. -/
theorem replayMemo_inStep (hid : L.part id) (hflags : e'.flags = e.flags)
    (outcome : Option Changes) :
    L.InStep Eq (replayMemo ⟨g, text, c⟩ id e outcome)
      (replayMemo ⟨g', text, c⟩ (L.image id) e' outcome) := by
  refine (InStep.onTally _).andThen ?_
  cases outcome with
  | some changes => exact (InStep.merge changes).andThen (.value true)
  | none => exact (recordFailure_inStep hid hflags).andThen (.value false)

/-- Both expressions are evaluated, and the outcome is stored alike if it is stored. -/
theorem evaluate_inStep {key key' : Option (MemoKey Fingerprint)}
    (hdispatch : L.InStep Eq (dispatch ⟨g, text, c⟩ call id e.shape)
      (dispatch ⟨g', text, c⟩ call' (L.image id) e'.shape))
    (hid : L.part id) (hflags : e'.flags = e.flags)
    (hkey : Option.Rel (fun k k' => L.Memoizes c.memo ∧ L.Keys k k') key key') :
    L.InStep Eq (evaluate ⟨g, text, c⟩ call id e key)
      (evaluate ⟨g', text, c⟩ call' (L.image id) e' key') := by
  refine hdispatch.bindEq fun matched => ?_
  have hrest : L.InStep Eq
      (do if !matched then recordFailure ⟨g, text, c⟩ id e
          return matched)
      (do if !matched then recordFailure ⟨g', text, c⟩ (L.image id) e'
          return matched) := by
    cases matched with
    | true => exact (InStep.value ()).bindEq fun _ => .value true
    | false => exact (recordFailure_inStep hid hflags).andThen (.value false)
  cases hkey with
  | none => exact (InStep.value ()).bindEq fun _ => hrest
  | some hk =>
      refine (InStep.onTally _).andThen ?_
      refine InStep.state.bind fun s _ hs => ?_
      obtain ⟨-, -⟩ := hs
      exact (store_inStep hk.1 hk.2 _).andThen hrest

/-- Both sides count the same invocations, and run out of them together. -/
theorem countStep_inStep :
    L.InStep Anything (countStep ⟨g, text, c⟩) (countStep ⟨g', text, c⟩) := by
  refine (InStep.onTally _).andThen ?_
  refine InStep.machine.bind fun m m' hm => ?_
  have hstop : m'.state.stop = m.state.stop := hm.state.reads fun _ _ _ => rfl
  cases c.maxSteps with
  | none => exact .pure trivial
  | some limit =>
      dsimp only
      rw [hm.tally, hstop]
      split
      · exact .throw _
      · exact .pure trivial

/-- Whether a node is memoized depends on its flags and its kind, which a renaming keeps. -/
theorem memoizes_eq (hflags : e'.flags = e.flags) (hshape : L.Shapes id e.shape e'.shape) :
    memoizes ⟨g', text, c⟩ e' = memoizes ⟨g, text, c⟩ e := by
  have hterminal : e'.shape.isTerminal = e.shape.isTerminal := by
    generalize e.shape = s at hshape ⊢
    generalize e'.shape = s' at hshape ⊢
    cases hshape with
    | plain => cases s <;> rfl
    | minPrecedence | cluster => rfl
  rw [memoizes, memoizes, hflags, hterminal]

/-- Matching an expression and matching the one that corresponds to it keep in step. -/
theorem invoke_inStep (hg : L.Ties g g' text) (hmemo : c.memoization = .none ∨ L.Memoizes c.memo)
    (nesting : Nat) : L.Callers (invoke ⟨g, text, c⟩ nesting) (invoke ⟨g', text, c⟩ nesting) := by
  induction nesting with
  | zero =>
      intro id hid
      refine countStep_inStep.andThen ?_
      refine InStep.state.bind fun s _ hs => ?_
      obtain ⟨-, -⟩ := hs
      exact .throw _
  | succ nesting ih =>
      intro id hid
      refine countStep_inStep.andThen ?_
      simp only [Grammar.node]
      have hnode := hg.node id hid
      generalize g.node? id = node at hnode ⊢
      generalize g'.node? (L.image id) = node' at hnode ⊢
      cases hnode with
      | missing hfault => exact fun m m' hm => .error hfault hm
      | @found e e' hflags hshape =>
          have hdispatch := dispatch_inStep (c := c) hg ih hid hshape
          -- both lookups of the node succeed
          change L.InStep Eq (if memoizes ⟨g, text, c⟩ e then _ else _)
            (if memoizes ⟨g', text, c⟩ e' then _ else _)
          rw [show memoizes ⟨g', text, c⟩ e' = memoizes ⟨g, text, c⟩ e from memoizes_eq hflags hshape]
          split
          · rename_i hmemoizes
            have hL : L.Memoizes c.memo := hmemo.resolve_left fun hnone => by
              rw [memoizes, hnone] at hmemoizes
              cases hmemoizes
            refine (memoKey_inStep hid).bind fun k k' hk => ?_
            refine (consult_inStep hL hk).bindEq fun answer => ?_
            cases answer with
            | some outcome => exact replayMemo_inStep hid hflags outcome
            | none => exact evaluate_inStep hdispatch hid hflags (.some ⟨hL, hk⟩)
          · exact evaluate_inStep hdispatch hid hflags .none

end Lockstep

end Packrat
