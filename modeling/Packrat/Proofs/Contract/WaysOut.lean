import Mathlib
import Packrat.Proofs.Contract.Invocation

/-! # Scopes and depth on every way out

    Seeds, blocked expressions, precedence floors, the flag that failures are recorded and the depth
    of nesting are changed for what is matched inside and put back afterwards.  They are put back on
    every way out: after a match, after a failure, and after a fault, whichever it is and however
    deep it arose.

    The depth is the number of matches that have begun and are not done.  A match at a depth hands
    the next one to all that it asks for, whatever earlier ones came back with, and at the limit no
    expression is looked at. -/

namespace Packrat

open Engine Matching

/-- Everything scoped is as it was. -/
structure Machine.ScopeRestored (before after : Machine) : Prop where
  seeds : after.state.seeds.entries = before.state.seeds.entries
  blocked : after.state.seeds.blocked = before.state.seeds.blocked
  digest : after.state.seeds.digest = before.state.seeds.digest
  floors : after.state.floors.explicit = before.state.floors.explicit
  fallback : after.state.floors.fallback = before.state.floors.fallback
  recording : after.state.recording = before.state.recording

theorem Machine.ScopeRestored.of_scope_eq {before after : Machine}
    (h : after.state.scope = before.state.scope) : before.ScopeRestored after := by
  have hseeds : after.state.seeds = before.state.seeds := congrArg Scope.seeds h
  have hfloors : after.state.floors = before.state.floors := congrArg Scope.floors h
  have hrecording : after.state.recording = before.state.recording := congrArg Scope.recording h
  exact ⟨congrArg _ hseeds, congrArg _ hseeds, congrArg _ hseeds, congrArg _ hfloors,
    congrArg _ hfloors, hrecording⟩

namespace Parser

variable {p : Parser} {text : Text} {nesting : Nat} {under : List (ExprId × Machine)}
variable {id : ExprId} {m : Machine}

/-- What a match does that begins inside `depth` others. -/
def matchAt (p : Parser) (text : Text) (depth : Nat) : Caller :=
  invoke (p.setting text) (p.config.maxDepth - depth)

/-- The parser performs a match of an expression on a machine while the matches `under` are not
    done, the innermost of them first. -/
inductive PerformsUnder (p : Parser) (text : Text) :
    List (ExprId × Machine) → ExprId → Machine → Prop where
  | root : p.PerformsUnder text [] p.root (.initial p.config)
  | child {under : List (ExprId × Machine)} {id child : ExprId} {m m' : Machine} :
      p.PerformsUnder text under id m → under.length < p.config.maxDepth →
      Asks (fun call => attempt (p.setting text) call id) (p.matchAt text (under.length + 1)) m
        child m' →
      p.PerformsUnder text ((id, m) :: under) child m'

/-- Below the limit, a match hands the next depth to what is inside. -/
theorem matchAt_of_lt {depth : Nat} (h : depth < p.config.maxDepth) :
    p.matchAt text depth = attempt (p.setting text) (p.matchAt text (depth + 1)) := by
  obtain ⟨more, hmore⟩ := Nat.exists_eq_add_of_lt h
  rw [matchAt, matchAt, show p.config.maxDepth - depth = more + 1 by omega,
    show p.config.maxDepth - (depth + 1) = more by omega, invoke_succ]

/-- No more nodes are entered than the depth allows. -/
theorem PerformsUnder.length_le (h : p.PerformsUnder text under id m) :
    under.length ≤ p.config.maxDepth := by
  cases h with
  | root => exact Nat.zero_le _
  | child _ hlt _ => exact hlt

/-- A node that is performed under others is performed, at what is left of the depth. -/
theorem PerformsUnder.performs (h : p.PerformsUnder text under id m) :
    p.Performs text (p.config.maxDepth - under.length) id m := by
  induction h with
  | root => exact .root
  | @child under id child m m' _ hlt hasks ih =>
      obtain ⟨more, hmore⟩ := Nat.exists_eq_add_of_lt hlt
      have hnesting : p.config.maxDepth - under.length = more + 1 := by omega
      have hinner : p.config.maxDepth - ((id, m) :: under).length = more := by
        rw [List.length_cons]
        omega
      rw [hnesting] at ih
      rw [hinner]
      refine .child ih ?_
      rw [matchAt, show p.config.maxDepth - (under.length + 1) = more by omega] at hasks
      exact hasks

/-- The matches of a parse are those that it performs inside others, and together with the nesting
    that is still allowed to it, the number of these is the limit. -/
theorem performs_iff_under :
    p.Performs text nesting id m ↔
      ∃ under, p.PerformsUnder text under id m ∧ under.length + nesting = p.config.maxDepth := by
  constructor
  · intro h
    induction h with
    | root => exact ⟨[], .root, Nat.zero_add _⟩
    | @child nesting id child m m' _ hasks ih =>
        obtain ⟨under, hunder, hdepth⟩ := ih
        have hnesting : p.config.maxDepth - (under.length + 1) = nesting := by omega
        have hasks' : Asks (fun call => attempt (p.setting text) call id)
            (p.matchAt text (under.length + 1)) m child m' := by
          rw [matchAt, hnesting]
          exact hasks
        exact ⟨(id, m) :: under, .child hunder (by omega) hasks', by rw [List.length_cons]; omega⟩
  · rintro ⟨under, hunder, hdepth⟩
    have hnesting : p.config.maxDepth - under.length = nesting := by omega
    exact hnesting ▸ hunder.performs

/-- Whatever comes of a match that a parse performs, an answer or a fault, the seeds and what is
    blocked, the floors with their default, and the recording flag are afterwards what they were
    before.  So is the depth: it is the number of the matches around, and whatever is asked for
    inside is matched at one more, whenever it is; where it has reached the limit, the match is a
    fault at once. -/
theorem PerformsUnder.restores (h : p.PerformsUnder text under id m) :
    (∀ matched m', p.matchAt text under.length id m = .ok matched m' → m.ScopeRestored m') ∧
      (∀ e m', p.matchAt text under.length id m = .error e m' → m.ScopeRestored m') ∧
      under.length ≤ p.config.maxDepth ∧
      (under.length < p.config.maxDepth →
        p.matchAt text under.length = attempt (p.setting text) (p.matchAt text (under.length + 1))) ∧
      (under.length = p.config.maxDepth →
        p.matchAt text under.length id = do
          countStep (p.setting text)
          throw (.engine (.recursionLimit p.config.maxDepth (← state).stop))) := by
  have htwins := invoke_concludes (p.setting text) (p.config.maxDepth - under.length) id
    h.performs.ready
  refine ⟨?_, ?_, h.length_le, matchAt_of_lt, ?_⟩
  · intro matched m' hrun
    obtain ⟨⟨-, hanswer⟩, -⟩ := htwins.answer hrun
    exact .of_scope_eq hanswer.grown.scope
  · intro e m' hrun
    exact .of_scope_eq (htwins.fault hrun)
  · intro hlimit
    rw [matchAt, hlimit, Nat.sub_self]
    rfl

/-- A boundary around a floor around a predicate, with no depth left for the literal that the
    predicate asks for. -/
def shallow : Parser :=
  { grammar := { nodes := #[.ofShape (.leftRecursive 1 true), .ofShape (.minPrecedence 2 7),
      .ofShape (.not 3), .ofShape (.literal "a")] }
    root := 0
    config := { maxDepth := 3 } }

/-- Under a shallow limit the node ends with an engine error, and its scope is restored all the
    same. -/
theorem restores_shallow :
    shallow.PerformsUnder ⟨#['a']⟩ [] 0 (.initial shallow.config) ∧
      ∃ m', shallow.matchAt ⟨#['a']⟩ 0 0 (.initial shallow.config) =
          .error (.engine (.recursionLimit 3 0)) m' ∧
        (Machine.initial shallow.config).ScopeRestored m' := by
  have hroot : shallow.PerformsUnder ⟨#['a']⟩ [] 0 (.initial shallow.config) := .root
  obtain ⟨-, hfault, -⟩ := hroot.restores
  exact ⟨hroot, _, rfl, hfault _ _ rfl⟩

end Parser

end Packrat
