import Packrat.Engine.Programs
import Packrat.Proofs.Contract.Combinators

/-! # The contract of a match, for custom expressions

    A program moves, matches children and changes slots in any order, and commits on the way.
    Through all of this the state only grows from the one where the program began, so whichever
    way it ends, the snapshot taken at the start undoes it or turns it into one uncommitted view.

    The induction is on the program: an instruction may hold programs itself. -/

namespace Packrat.Programs

open Matching

variable {g : Grammar} {call call' : Caller} {m : Machine} {s : ParseState}

/-! ## What every instruction keeps

    An instruction moves on and commits, matches an expression, changes a slot or writes to the log.
    What each of these keeps, every program does. -/

/-- Moving, matching and changing slots keep `I`, and wherever it holds a fault leaves a scope that
    satisfies `E`. -/
structure Steady (text : Text) (call call' : Caller) (E : Scope → Prop) (I : Machine → Prop) :
    Prop where
  scope {m : Machine} : I m → E m.state.scope
  moved {m : Machine} {target : Nat} : I m → m.state.stop ≤ target → target ≤ text.length →
    (m.state.moveTo target).countersFit → I (m.withState (m.state.moveTo target).commit)
  entered {m : Machine} (id : ExprId) : I m →
    Twins m E (enter call id) (enter call' id) fun _ m' => I m'
  slotted {m : Machine} {i : Nat} {a b : Slot} : I m → m.state.slots[i]? = some a → a.Grown b →
    I (m.withState { m.state with slots := m.state.slots.set i b })
  logged {m : Machine} (entry : LogEntry) : I m → I { m with log := entry :: m.log }

namespace Steady

variable {text : Text} {E : Scope → Prop} {I : Machine → Prop}

/-- A move ahead inside the text commits; any other is a fault in the scope that was there. -/
theorem moveTo (hI : Steady text call call' E I) (h : I m) (target : Nat) :
    Twins m E (moveTo text target) (moveTo text target) fun _ m' => I m' := by
  refine Twins.state_bind ?_
  dsimp only
  by_cases hlegal : m.state.stop ≤ target ∧ target ≤ text.length
  · rw [if_pos hlegal]
    refine Twins.onState_bind ((Twins.transition (hI.scope h)).imp ?_)
    rintro ⟨⟩ m' ⟨hfit, rfl⟩
    show I (m.withState (m.state.moveTo target).commit)
    exact hI.moved h hlegal.1 hlegal.2 hfit
  · rw [if_neg hlegal]
    exact Twins.throw (hI.scope h)

/-- A child is an expression like any other, and an index past the children only fails. -/
theorem enterChild (hI : Steady text call call' E I) (h : I m) (children : List ExprId)
    (index : Nat) :
    Twins m E (enterChild call children index) (enterChild call' children index)
      fun _ m' => I m' := by
  rw [Programs.enterChild, Programs.enterChild]
  cases children[index]? with
  | none => exact Twins.pure h
  | some id => exact hI.entered id h

/-- By induction on the rounds that are left. -/
theorem enterMany (hI : Steady text call call' E I) (h : I m) (children : List ExprId)
    (index rounds : Nat) :
    Twins m E (enterMany call children index rounds) (enterMany call' children index rounds)
      fun _ m' => I m' := by
  induction rounds generalizing m with
  | zero => exact Twins.pure h
  | succ rounds ih =>
      refine Twins.state_bind ((hI.enterChild h children index).bind ?_)
      intro matched m₁ h₁
      cases matched with
      | false => exact Twins.pure h₁
      | true =>
          refine Twins.state_bind ?_
          by_cases hstay : m₁.state.stop = m.state.stop
          · simp only [if_pos hstay]
            exact Twins.pure h₁
          · simp only [if_neg hstay]
            exact ih h₁

/-- A list of names grows at its end. -/
theorem pushName (hI : Steady text call call' E I) (h : I m) (slot : Nat) (name : String) :
    Twins m E (pushName slot name) (pushName slot name) fun _ m' => I m' := by
  refine Twins.state_bind ?_
  cases hpush : m.state.pushName? slot name with
  | none => exact Twins.pure h
  | some t =>
      refine Twins.onState_bind (Twins.pure ?_)
      rw [ParseState.pushName?] at hpush
      split at hpush
      · rename_i quiet committed entries hslot
        cases hpush
        exact hI.slotted h hslot (.names (List.prefix_append entries [name]))
      · cases hpush

/-- A counter grows, or the amount does not fit and the program aborts. -/
theorem increase (hI : Steady text call call' E I) (h : I m) (slot amount : Nat) :
    Twins m E (increase slot amount) (increase slot amount) fun _ m' => I m' := by
  refine Twins.state_bind ?_
  cases hcounter : m.state.counter? slot with
  | none => exact Twins.pure h
  | some amounts =>
      obtain ⟨committed, pending⟩ := amounts
      refine Twins.transition_bind (hI.scope h) ?_
      intro _
      refine Twins.pure ?_
      rw [ParseState.counter?] at hcounter
      split at hcounter
      · rename_i c p hslot
        exact hI.slotted h hslot (.counter c p committed (pending + amount))
      · cases hcounter

/-- A comparison changes nothing. -/
theorem countAtLeast (hI : Steady text call call' E I) (h : I m) (slot amount : Nat) :
    Twins m E (countAtLeast slot amount) (countAtLeast slot amount) fun _ m' => I m' := by
  refine Twins.state_bind ?_
  cases m.state.counter? slot with
  | none => exact Twins.pure h
  | some amounts =>
      obtain ⟨committed, pending⟩ := amounts
      by_cases hfit : committed + pending ≤ Slot.limit
      · simp only [if_pos hfit]
        exact Twins.pure h
      · simp only [if_neg hfit]
        exact Twins.throw (hI.scope h)

/-- A note goes to the log. -/
theorem note (hI : Steady text call call' E I) (h : I m) (label : String) (id : ExprId) :
    Twins m E
      (fingerprint >>= fun print => state >>= fun t =>
        log (.note label id t print) >>= fun _ => pure true)
      (fingerprint >>= fun print => state >>= fun t =>
        log (.note label id t print) >>= fun _ => pure true)
      fun _ m' => I m' := by
  refine (Twins.fingerprint (hI.scope h)).bind ?_
  rintro print m' ⟨-, rfl⟩
  exact Twins.state_bind (Twins.log_bind (Twins.pure (hI.logged _ h)))

mutual

/-- One instruction keeps what moving, matching and changing slots keep. -/
theorem step {setting : Setting} (hI : Steady setting.text call call' E I) (id : ExprId)
    (children : List ExprId) {m : Machine} (h : I m) (instr : Instr) :
    Twins m E (step setting call id children instr) (step setting call' id children instr)
      fun _ m' => I m' := by
  cases instr with
  | advance count =>
      simp only [Programs.step]
      refine Twins.state_bind ((hI.moveTo h _).bind ?_)
      intro _ m₁ h₁
      exact Twins.pure h₁
  | goTo position =>
      simp only [Programs.step]
      refine (hI.moveTo h _).bind ?_
      intro _ m₁ h₁
      exact Twins.pure h₁
  | call child =>
      simp only [Programs.step]
      exact hI.enterChild h children child
  | callExpr target =>
      simp only [Programs.step]
      exact hI.entered target h
  | «attempt» child =>
      simp only [Programs.step]
      refine (hI.enterChild h children child).bind ?_
      intro _ m₁ h₁
      exact Twins.pure h₁
  | repeated child =>
      simp only [Programs.step]
      refine Twins.state_bind ((hI.enterMany h children child _).bind ?_)
      intro _ m₁ h₁
      exact Twins.pure h₁
  | branch child onMatch onFail =>
      simp only [Programs.step]
      refine (hI.enterChild h children child).bind ?_
      intro matched m₁ h₁
      cases matched with
      | true => exact hI.run id children h₁ onMatch
      | false => exact hI.run id children h₁ onFail
  | atPosition position body =>
      simp only [Programs.step]
      refine Twins.state_bind ?_
      by_cases hat : m.state.stop = position
      · simp only [if_pos hat]
        exact hI.run id children h body
      · simp only [if_neg hat]
        exact Twins.pure h
  | take members =>
      simp only [Programs.step]
      refine Twins.state_bind ((hI.moveTo h _).bind ?_)
      intro _ m₁ h₁
      exact Twins.pure h₁
  | atEnd =>
      simp only [Programs.step]
      exact Twins.state_bind (Twins.pure h)
  | beforeEnd =>
      simp only [Programs.step]
      exact Twins.state_bind (Twins.pure h)
  | fail =>
      simp only [Programs.step]
      exact Twins.pure h
  | abortExtension message =>
      simp only [Programs.step]
      exact Twins.throw (hI.scope h)
  | abortInvariant message =>
      simp only [Programs.step]
      exact Twins.throw (hI.scope h)
  | pushName slot name =>
      simp only [Programs.step]
      exact hI.pushName h slot name
  | pushRun slot members =>
      simp only [Programs.step, currentRun]
      refine Twins.bind (R := fun _ m' => m' = m) (Twins.state_bind (Twins.pure rfl)) ?_
      rintro found m' rfl
      refine Twins.state_bind ?_
      by_cases hno : found = "" ∨ (m'.state.pushName? slot found).isNone
      · simp only [if_pos hno]
        exact Twins.pure h
      · simp only [if_neg hno]
        refine Twins.state_bind ((hI.moveTo h _).bind ?_)
        intro _ m₁ h₁
        exact hI.pushName h₁ slot found
  | knownRun slot members =>
      simp only [Programs.step, currentRun]
      refine Twins.bind (R := fun _ m' => m' = m) (Twins.state_bind (Twins.pure rfl)) ?_
      rintro found m' rfl
      refine Twins.state_bind ?_
      split
      · split
        · refine Twins.state_bind ((hI.moveTo h _).bind ?_)
          intro _ m₁ h₁
          exact Twins.pure h₁
        · exact Twins.pure h
      · exact Twins.pure h
  | increase slot amount =>
      simp only [Programs.step]
      exact hI.increase h slot amount
  | countAtLeast slot amount =>
      simp only [Programs.step]
      exact hI.countAtLeast h slot amount
  | note label =>
      simp only [Programs.step]
      exact hI.note h label id
  | observe choose =>
      simp only [Programs.step]
      exact Twins.state_bind (hI.run id children h (choose setting.text m.state))

/-- A program keeps what its instructions keep. -/
theorem run {setting : Setting} (hI : Steady setting.text call call' E I) (id : ExprId)
    (children : List ExprId) {m : Machine} (h : I m) (program : List Instr) :
    Twins m E (run setting call id children program) (run setting call' id children program)
      fun _ m' => I m' := by
  cases program with
  | nil =>
      simp only [Programs.run]
      exact Twins.pure h
  | cons instr rest =>
      simp only [Programs.run]
      refine (hI.step id children h instr).bind ?_
      intro matched m₁ h₁
      cases matched with
      | true => exact hI.run id children h₁ rest
      | false => exact Twins.pure h₁

end

end Steady

/-! ## The contract -/

/-- A program that began in `s` is running. -/
structure Running (g : Grammar) (s : ParseState) (m : Machine) : Prop where
  memo : PredicatesIdle g m.memo
  grown : s.Grown m.state

/-- Matching an expression out of a running program, with a commit before and after. -/
theorem enter_running (hcall : Obeys g call call') (hs : s.scope.Canonical) (id : ExprId)
    (h : Running g s m) :
    Twins m (· = s.scope) (enter call id) (enter call' id) fun _ m' => Running g s m' := by
  refine Twins.commit_bind h.grown.scope ?_
  intro hfit
  have hready : Ready g (m.withState m.state.commit) :=
    ready_commit h.memo (h.grown.scope ▸ hs) hfit
  have hgrown := h.grown.commit hfit
  refine (hcall.call_grown hready hgrown id).bind ?_
  rintro matched m₁ ⟨hmemo, hanswer⟩
  have hgrown₁ : s.Grown m₁.state := hgrown.trans hanswer.grown
  cases matched with
  | false => exact Twins.pure ⟨hmemo, hgrown₁⟩
  | true =>
      refine Twins.commit_bind hgrown₁.scope ?_
      intro hfit₁
      exact Twins.pure ⟨hmemo, hgrown₁.commit hfit₁⟩

/-- Whatever a program does, its state only grows from the one where it began. -/
theorem running_steady (text : Text) (hcall : Obeys g call call') (hs : s.scope.Canonical) :
    Steady text call call' (· = s.scope) (Running g s) where
  scope h := h.grown.scope
  moved h _ _ hfit := ⟨h.memo, (h.grown.moveTo _).commit hfit⟩
  entered id h := enter_running hcall hs id h
  slotted h hslot hgrown := ⟨h.memo, h.grown.setSlot hslot hgrown⟩
  logged _ h := ⟨h.memo, h.grown⟩

/-- How a match of a custom expression comes to an answer: its program kept what it did, or it failed
    and all is undone. -/
theorem custom_ok {setting : Setting} {id : ExprId} {spec : Custom} {children : List ExprId}
    {b : Bool} {m' : Machine} (h : custom setting call id spec children m = .ok b m') :
    ∃ m₁, run setting call id children spec.program m = .ok b m₁ ∧
      ((b = true ∧ m₁.state.canUncommit m.state.snapshot = true ∧
          m' = m₁.withState (m₁.state.uncommit m.state.snapshot)) ∨
        (b = false ∧ m' = m₁.withState (m₁.state.restore m.state.snapshot))) := by
  simp only [custom] at h
  split at h
  · rename_i m₁ hrun
    obtain ⟨⟨⟩, m₂, huncommit, hpure⟩ := bind_ok h
    rw [uncommit, Matching.transition] at huncommit
    split at huncommit
    · rename_i hcan
      cases huncommit
      cases hpure
      exact ⟨m₁, hrun, .inl ⟨rfl, hcan, rfl⟩⟩
    · cases huncommit
  · rename_i m₁ hrun
    cases h
    exact ⟨m₁, hrun, .inr ⟨rfl, rfl⟩⟩
  · cases h

/-- A program that ran to its end is kept, as one uncommitted view. -/
theorem custom_kept {setting : Setting} {id : ExprId} {spec : Custom} {children : List ExprId}
    {m₁ : Machine} (hrun : run setting call id children spec.program m = .ok true m₁)
    (hcan : m₁.state.canUncommit m.state.snapshot = true) :
    custom setting call id spec children m =
      .ok true (m₁.withState (m₁.state.uncommit m.state.snapshot)) := by
  have huncommit : uncommit m.state.snapshot m₁ =
      .ok () (m₁.withState (m₁.state.uncommit m.state.snapshot)) := if_pos hcan
  simp only [custom, hrun]
  exact bind_eq huncommit

/-- A program that failed is undone by the snapshot from its start. -/
theorem custom_undone {setting : Setting} {id : ExprId} {spec : Custom} {children : List ExprId}
    {m₁ : Machine} (hrun : run setting call id children spec.program m = .ok false m₁) :
    custom setting call id spec children m =
      .ok false (m₁.withState (m₁.state.restore m.state.snapshot)) := by
  simp only [custom, hrun]

/-- A custom expression keeps the contract of a match. -/
theorem custom_left (setting : Setting) (hcall : Obeys g call call') (id : ExprId)
    (spec : Custom) (children : List ExprId) (hready : Ready g m) :
    Twins m (· = m.state.scope) (custom setting call id spec children)
      (custom setting call' id spec children) (Left g m) := by
  have hrun := (running_steady setting.text hcall hready.canonical).run id children
    ⟨hready.memo, .refl m.state⟩ spec.program
  have hsame : custom setting call' id spec children m = custom setting call id spec children m := by
    simp only [custom, hrun.same]
  cases hresult : run setting call id children spec.program m with
  | error e m₁ =>
      have hcustom : custom setting call id spec children m
          = .error e (m₁.withState (m₁.state.restore m.state.snapshot)) := by
        simp only [custom, hresult]
      refine ⟨hsame, ?_, ?_⟩
      · intro b m' hx
        rw [hcustom] at hx
        cases hx
      · intro e' m' hx
        rw [hcustom] at hx
        cases hx
        have hscope : m₁.state.scope = m.state.scope := hrun.fault hresult
        exact hscope
  | ok matched m₁ =>
      have h₁ := hrun.answer hresult
      cases matched with
      | false =>
          have hcustom : custom setting call id spec children m
              = .ok false (m₁.withState (m₁.state.restore m.state.snapshot)) := by
            simp only [custom, hresult]
          refine ⟨hsame, ?_, ?_⟩
          · intro b m' hx
            rw [hcustom] at hx
            cases hx
            exact ⟨h₁.memo, h₁.grown.restore⟩
          · intro e' m' hx
            rw [hcustom] at hx
            cases hx
      | true =>
          have hcustom : custom setting call id spec children m
              = (uncommit m.state.snapshot >>= fun _ => pure true : Matching Bool) m₁ := by
            simp only [custom, hresult]
          have hlast : Twins m₁ (· = m.state.scope)
              (uncommit m.state.snapshot >>= fun _ => pure true)
              (uncommit m.state.snapshot >>= fun _ => pure true) (Left g m) := by
            refine Twins.uncommit_bind h₁.grown.scope ?_
            intro hfit
            exact Twins.pure ⟨h₁.memo, h₁.grown.uncommit hfit⟩
          refine ⟨hsame, ?_, ?_⟩
          · intro b m' hx
            exact hlast.answer (hcustom ▸ hx)
          · intro e' m' hx
            exact hlast.fault (hcustom ▸ hx)

end Packrat.Programs
