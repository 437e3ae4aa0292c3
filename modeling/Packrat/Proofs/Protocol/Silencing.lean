import Packrat.Proofs.Contract.WaysOut
import Packrat.Proofs.Protocol.Inheritance

/-! # Where failures are recorded

    A negation turns recording off while its operand is matched, and nothing turns it on again before
    that is done.  So recording is on for a match if and only if none of the matches around it is
    that of a negation. -/

namespace Packrat

open Matching Engine

/-- The expression is a negation. -/
def Grammar.IsNegation (g : Grammar) (id : ExprId) : Prop :=
  ∃ operand, g.shape? id = some (.not operand)

variable {g : Grammar} {text : Text} {config : Config} {id child : ExprId} {m n : Machine}

/-- A match begins in the text, among seeds that end in it. -/
abbrev Amidst (g : Grammar) (text : Text) (id : ExprId) (m : Machine) : Prop :=
  Ready g m ∧ (Protocol.inheriting g fun p f => f.Within text p true).Keeps m ∧
    Amid text (fun p f => f.Within text p true) m.state.scope id m.state.stop

/-- What a negation asks for is matched with recording off, and what any other expression asks for
    is matched as it is itself. -/
theorem Engine.Asks.recording {nesting : Nat} (h : Amidst g text id m)
    (hasks : Asks (fun call => attempt ⟨g, text, config⟩ call id) (invoke ⟨g, text, config⟩ nesting) m
      child n) {recording : Bool} (hnegation : g.IsNegation id → recording = false)
    (hother : ¬ g.IsNegation id → recording = m.state.recording) :
    Amidst g text child n ∧ n.state.recording = recording := by
  obtain ⟨hready, hkeeps, hamid⟩ := h
  let ask : Scope → ExprId → Nat → Prop := fun c i q =>
    Amid text (fun p f => f.Within text p true) c i q ∧ c.recording = recording
  have hserves : (Protocol.inheriting g fun p f => f.Within text p true).Serves ask
      (invoke ⟨g, text, config⟩ nesting) (invoke ⟨g, text, config⟩ nesting) :=
    ((inherited_within text).serves g config nesting).narrow fun _ _ _ hask => hask.1
  have hhands : (Protocol.inheriting g fun p f => f.Within text p true).HandsOn ask text
      fun p f => f.Within text p true :=
    { faults := trivial
      told := fun htell => htell _ rfl
      amid := And.left
      onward := fun hask hsame hamid => ⟨hamid, hsame.trans hask.2⟩ }
  have hasked := hserves.of_asks hasks fun other hserves' => ?_
  · exact ⟨⟨hasked.1, hasked.2.1, hasked.2.2.1⟩, hasked.2.2.2⟩
  refine (Protocol.attempt_told hserves.obeys
    (Protocol.admits_inheriting g _ ⟨g, text, config⟩ rfl m.state id) hready hkeeps ?_).same
  intro expr m₁ hnode hstate hready₁ hkeeps₁
  have hshape := Grammar.shape?_of_node? hnode
  rw [← hstate] at hamid hother
  by_cases hquiet : g.IsNegation id
  · obtain ⟨operand, hoperand⟩ := hquiet
    obtain hexpr : expr.shape = .not operand := Option.some.inj (hshape.symm.trans hoperand)
    have hask : ask m₁.state.scope.quiet operand m₁.state.stop :=
      ⟨⟨hamid.position, hamid.seeds⟩, (hnegation ⟨operand, hoperand⟩).symm⟩
    rw [hexpr]
    refine (dispatch_told ⟨g, text, config⟩ (s := .not operand) hserves' hready₁ hkeeps₁
      hamid.position id rfl hask).imp fun b m' hleaves => hleaves.imp ?_
    intro o hfinds f hf
    exact hfinds.inherits (inherited_within text) hamid.position (fun _ _ _ _ htell => htell _ rfl) hf
  · refine hhands.dispatch (inherited_within text) hserves' hready₁ hkeeps₁
      ⟨hamid, (hother hquiet).symm⟩ g config expr.shape ?_
    intro operand hexpr
    exact absurd ⟨operand, hexpr ▸ hshape⟩ hquiet

namespace Parser

variable {p : Parser} {under : List (ExprId × Machine)}

/-- A match that a parse performs begins in the text, and failures are recorded if and only if it is
    inside no negation. -/
theorem PerformsUnder.recording (h : p.PerformsUnder text under id m) :
    Amidst p.grammar text id m ∧
      (m.state.recording = true ↔ ∀ outer ∈ under, ¬ p.grammar.IsNegation outer.1) := by
  induction h with
  | root =>
      refine ⟨⟨ready_initial _ _, Protocol.keeps_initial _ trivial, ⟨Nat.zero_le _, ?_⟩⟩, ?_⟩
      · intro key changes hseed
        cases hseed
      · exact ⟨fun _ outer houter => (List.not_mem_nil houter).elim, fun _ => rfl⟩
  | @child under id child m n hunder hlt hasks ih =>
      obtain ⟨hamidst, hrecording⟩ := ih
      by_cases hnegation : p.grammar.IsNegation id
      · obtain ⟨hamidst', hoff⟩ := hasks.recording hamidst (fun _ => rfl) (absurd hnegation)
        refine ⟨hamidst', ?_⟩
        rw [hoff]
        refine ⟨by rintro ⟨⟩, fun hall => ?_⟩
        exact absurd hnegation (hall (id, m) (List.mem_cons_self ..))
      · obtain ⟨hamidst', hsame⟩ := hasks.recording hamidst (absurd · hnegation) fun _ => rfl
        refine ⟨hamidst', ?_⟩
        rw [hsame, hrecording, List.forall_mem_cons]
        exact ⟨fun hall => ⟨hnegation, hall⟩, And.right⟩

end Parser

end Packrat
