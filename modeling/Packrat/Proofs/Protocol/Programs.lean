import Packrat.Proofs.Contract.Programs
import Packrat.Proofs.Protocol.Combinators

/-! # What a match tells, for custom expressions

    A program may move anywhere ahead and match any expression wherever it is.  So all that a custom
    expression tells is what holds of everything that its program can have found since it began
    (`Roams`).  Faults are of no concern: a program may always abort. -/

namespace Packrat.Programs

open Matching

/-- What a program can have found since it began, in the scope `c`.  It gets from one to another by
    moving ahead and by what an expression finds; it may ask for any expression wherever it is. -/
structure Roams (π : Protocol) (ask : Scope → ExprId → Nat → Prop) (text : Text) (c : Scope)
    (place : Found → Prop) : Prop where
  moved {f : Found} {q : Nat} : place f → f.stop ≤ q → q ≤ text.length →
    place { f with stop := q }
  asked {f : Found} (id : ExprId) : place f → ask c id f.stop
  told {id : ExprId} {f f' : Found} : place f → π.tell c id f.stop (some f') → place (f.append f')

variable {π : Protocol} {ask : Scope → ExprId → Nat → Prop} {call call' : Caller} {m : Machine}
variable {s : ParseState} {text : Text} {place : Found → Prop}

/-- A program that began in `s` is running, and what it found is among what it can have found. -/
structure Roaming (π : Protocol) (s : ParseState) (place : Found → Prop) (m : Machine) : Prop where
  running : Running π.grammar s m
  keeps : π.Keeps m
  found : place (s.since m.state)

/-- A program that enters a child comes back to a state it may roam from. -/
theorem enter_roaming (hcall : π.Serves ask call call') (hfaults : π.faults)
    (hs : s.scope.Canonical) (hroams : Roams π ask text s.scope place) (id : ExprId)
    (h : Roaming π s place m) :
    Twins m (fun _ => π.faults) (enter call id) (enter call' id)
      fun _ m' => Roaming π s place m' := by
  refine Twins.commit_bind hfaults ?_
  intro hfit
  have hscope : m.state.commit.scope = s.scope := h.running.grown.scope
  have hready : Ready π.grammar (m.withState m.state.commit) :=
    ready_commit h.running.memo (h.running.grown.scope ▸ hs) hfit
  have hask : ask m.state.commit.scope id m.state.stop := hscope ▸ hroams.asked id h.found
  have hcommit : s.Grown m.state.commit := h.running.grown.commit hfit
  refine (hcall.asked hready h.keeps.commit hask).bind ?_
  rintro matched m₁ ⟨⟨hkeeps₁, htell⟩, hmemo, hanswer⟩
  have hgrown : s.Grown m₁.state := hcommit.trans hanswer.grown
  cases matched with
  | false =>
      have heq : m₁.state = m.state.commit := hanswer
      refine Twins.pure ⟨⟨hmemo, hgrown⟩, hkeeps₁, ?_⟩
      rw [heq]
      exact h.found
  | true =>
      have hfound : place (s.since m₁.state) := by
        rw [ParseState.since_append hcommit.nodes hanswer.grown.nodes]
        exact hroams.told h.found (hscope ▸ htell)
      refine Twins.commit_bind hfaults ?_
      intro hfit₁
      exact Twins.pure ⟨⟨hmemo, hgrown.commit hfit₁⟩, hkeeps₁.commit, hfound⟩

/-- Instructions keep a program where it may roam, so a whole program stays there. -/
theorem roaming_steady (hcall : π.Serves ask call call') (hfaults : π.faults)
    (hs : s.scope.Canonical) (hroams : Roams π ask text s.scope place) :
    Steady text call call' (fun _ => π.faults) (Roaming π s place) where
  scope _ := hfaults
  moved h hle hlast hfit :=
    ⟨⟨h.running.memo, (h.running.grown.moveTo _).commit hfit⟩, h.keeps.withState (Or.inl hfaults),
      hroams.moved h.found hle hlast⟩
  entered id h := enter_roaming hcall hfaults hs hroams id h
  slotted h hslot hgrown :=
    ⟨⟨h.running.memo, h.running.grown.setSlot hslot hgrown⟩, h.keeps.withState (Or.inl hfaults),
      h.found⟩
  logged _ h :=
    ⟨⟨h.running.memo, h.running.grown⟩, ⟨h.keeps.blank, h.keeps.memo, h.keeps.recorded⟩, h.found⟩

/-- What a custom expression finds is among what its program can have found. -/
theorem custom_told {setting : Setting} (hcall : π.Serves ask call call') (hfaults : π.faults)
    (id : ExprId) (spec : Custom) (children : List ExprId) (hready : Ready π.grammar m)
    (hkeeps : π.Keeps m) (hroams : Roams π ask setting.text m.state.scope place)
    (hplace : place (.nothing m.state.stop)) :
    Twins m (fun _ => π.faults) (custom setting call id spec children)
      (custom setting call' id spec children)
      (π.Leaves (fun o => ∀ f, o = some f → place f) m) := by
  have hbegun : place (m.state.since m.state) := by
    rw [ParseState.since_self]
    exact hplace
  have hrun := (roaming_steady hcall hfaults hready.canonical hroams).run id children
    ⟨⟨hready.memo, .refl m.state⟩, hkeeps, hbegun⟩ spec.program
  refine ⟨by simp only [custom, hrun.same], ?_, fun _ => hfaults⟩
  intro b m' hcustom
  obtain ⟨m₁, hprogram, hend⟩ := custom_ok hcustom
  have h₁ := hrun.answer hprogram
  rcases hend with ⟨rfl, -, rfl⟩ | ⟨rfl, rfl⟩
  · refine ⟨h₁.keeps.withState (Or.inl hfaults), ?_⟩
    rintro f ⟨⟩
    exact h₁.found
  · refine ⟨h₁.keeps.withState (Or.inl hfaults), ?_⟩
    rintro f ⟨⟩

end Packrat.Programs
