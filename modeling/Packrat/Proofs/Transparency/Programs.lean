import Packrat.Proofs.Transparency.Forms
import Packrat.Proofs.Transparency.Silence

/-! # Programs keep machines coupled

    A program reads the position, the outcomes of the expressions that it matches, and the slots.
    What it chooses to do in view of the state is to depend on no more than that
    (`Instr.Discreet`).  If both parses have the same slots, all of this is the same in states that
    are alike, so the two runs of a program take the same way and do the same to the slots.

    What a program writes to the log differs, since the captures do; nothing reads it. -/

namespace Packrat

open Matching Coupling

/-! ## Writing to the same slots -/

theorem isNone_eq {α β : Type} {r : α → β → Prop} {x : Option α} {y : Option β}
    (h : Option.Rel r x y) : x.isNone = y.isNone := by
  cases h <;> rfl

namespace ParseState.Alike

variable {exact : Prop} {s t : ParseState}

/-- States that are alike with their slots have the same slots. -/
theorem slots_eq (h : s.Alike true exact t) : t.slots = s.slots :=
  h.slots.1

/-- A sound slot written to both states. -/
theorem set (h : s.Alike true exact t) {slot : Slot} (hslot : slot.Sound) (i : Nat) :
    ({ s with slots := s.slots.set i slot } : ParseState).Alike true exact
      { t with slots := t.slots.set i slot } := by
  obtain ⟨hsame, hsound⟩ : t.slots = s.slots ∧ Slots.Sound s.slots := h.slots
  refine ⟨h.start, h.stop, h.recording, h.floors, h.seeds, ⟨?_, hsound.set hslot i⟩, h.captures⟩
  show t.slots.set i slot = s.slots.set i slot
  rw [hsame]

/-- A name is pushed in both states or in neither. -/
theorem pushName? (h : s.Alike true exact t) (i : Nat) (name : String) :
    Option.Rel (ParseState.Alike true exact) (s.pushName? i name) (t.pushName? i name) := by
  obtain ⟨hsame, hsound⟩ : t.slots = s.slots ∧ Slots.Sound s.slots := h.slots
  simp only [ParseState.pushName?, hsame]
  cases hget : s.slots[i]? with
  | none => exact .none
  | some slot =>
      cases slot with
      | names quiet committed entries =>
          have hslot : (Slot.names quiet committed (entries ++ [name])).Sound :=
            hsound (.names quiet committed entries) (List.mem_of_getElem? hget)
          refine .some ?_
          have hset := h.set hslot i
          rw [hsame] at hset
          exact hset
      | counter => exact .none

theorem counter?_eq (h : s.Alike true exact t) (i : Nat) : t.counter? i = s.counter? i := by
  rw [ParseState.counter?, ParseState.counter?, h.slots_eq]

/-- A counter that stays in range may be set in both states. -/
theorem setCounter (h : s.Alike true exact t) {i committed pending : Nat}
    (hi : s.counter? i = some (committed, pending)) {pending' : Nat}
    (hle : pending' ≤ Slot.limit) :
    (s.setCounter i committed pending').Alike true exact (t.setCounter i committed pending') := by
  obtain ⟨-, hsound⟩ : t.slots = s.slots ∧ Slots.Sound s.slots := h.slots
  rw [ParseState.counter?] at hi
  split at hi
  · rename_i hget
    cases hi
    have hcounter : (Slot.counter committed pending).Sound := hsound _ (List.mem_of_getElem? hget)
    have hslot : (Slot.counter committed pending').Sound := And.intro hcounter.1 hle
    exact h.set hslot i
  · cases hi

end ParseState.Alike

/-! ## Instructions -/

/-- The instruction is discreet and names only expressions with the property. -/
def Instr.Comparable (P : ExprId → Prop) (instr : Instr) : Prop :=
  instr.Discreet ∧ ∀ target, instr = .callExpr target → P target

namespace Programs

variable {C : Coupling} {P : ExprId → Prop} {call : Caller} {call' : Nat → Caller} {m n : Machine}

theorem moveTo_follows (text : Text) (target : Nat) (h : C.Coupled m n) :
    Follows m n (moveTo text target) (fun _ => moveTo text target)
      fun _ m' _ n' => C.Coupled m' n' := by
  refine Follows.state_bind ?_
  dsimp only
  rw [h.state.stop]
  by_cases hlegal : n.state.stop ≤ target ∧ target ≤ text.length
  · simp only [if_pos hlegal]
    have hmoved := h.withState (h.state.moveTo target)
    refine Follows.onState_bind (Follows.transition fun hfit => ⟨hmoved.state.countersFit hfit, ?_⟩)
    exact hmoved.withState hmoved.state.commit
  · simp only [if_neg hlegal]
    exact Follows.throw

/-- Matching an expression out of a program, with a commit before and after. -/
theorem enter_follows (hcall : C.Simulates P call call') {id : ExprId} (hP : P id)
    (h : C.Coupled m n) :
    Follows m n (enter call id) (fun j => enter (call' j) id) C.Agree := by
  refine Follows.transition_bind h.state.countersFit ?_
  refine (hcall id _ _ hP (h.withState h.state.commit)).bind ?_
  rintro matched m₁ _ n₁ - ⟨rfl, h₁⟩
  cases matched with
  | false => exact Follows.pure ⟨rfl, h₁⟩
  | true =>
      refine Follows.transition_bind h₁.state.countersFit (Follows.pure ⟨rfl, ?_⟩)
      exact h₁.withState h₁.state.commit

/-- Children are the same on both sides. -/
theorem enterChild_follows (hcall : C.Simulates P call call') {children : List ExprId}
    (hP : ∀ child ∈ children, P child) (index : Nat) (h : C.Coupled m n) :
    Follows m n (enterChild call children index) (fun j => enterChild (call' j) children index)
      C.Agree := by
  simp only [enterChild]
  cases hchild : children[index]? with
  | none => exact Follows.pure ⟨rfl, h⟩
  | some child => exact enter_follows hcall (hP child (List.mem_of_getElem? hchild)) h

/-- Both parses stay in place or go on together. -/
theorem enterMany_follows (hcall : C.Simulates P call call') {children : List ExprId}
    (hP : ∀ child ∈ children, P child) (index rounds : Nat) (h : C.Coupled m n) :
    Follows m n (enterMany call children index rounds)
      (fun j => enterMany (call' j) children index rounds) fun _ m' _ n' => C.Coupled m' n' := by
  induction rounds generalizing m n with
  | zero => exact Follows.pure h
  | succ rounds ih =>
      refine Follows.state_bind ((enterChild_follows hcall hP index h).bind ?_)
      rintro matched m₁ _ n₁ - ⟨rfl, h₁⟩
      cases matched with
      | false => exact Follows.pure h₁
      | true =>
          refine Follows.state_bind ?_
          rw [h.state.stop, h₁.state.stop]
          by_cases hstay : n₁.state.stop = n.state.stop
          · simp only [if_pos hstay]
            exact Follows.pure h₁
          · simp only [if_neg hstay]
            exact ih h₁

/-- The run of characters ahead is the same, as the positions are. -/
theorem currentRun_bind {α β : Type} {Q : α → Machine → β → Machine → Prop} (text : Text)
    (members : List Char) (h : C.Coupled m n) {f : String → Matching α}
    {g : Nat → String → Matching β} (hf : ∀ found, Follows m n (f found) (fun j => g j found) Q) :
    Follows m n (currentRun text members >>= f) (fun j => currentRun text members >>= g j) Q := by
  refine Follows.bind (R := fun a m' b n' => a = b ∧ m = m' ∧ n = n') (Follows.state_bind ?_) ?_
  · rw [h.state.stop]
    exact Follows.pure ⟨rfl, rfl, rfl⟩
  · rintro found _ _ _ - ⟨rfl, rfl, rfl⟩
    exact hf found

/-- What is written to the log may differ. -/
theorem note_follows (label : String) (id : ExprId) (h : C.Coupled m n) :
    Follows m n
      (fingerprint >>= fun print => state >>= fun s =>
        log (.note label id s print) >>= fun _ => pure true)
      (fun _ => fingerprint >>= fun print => state >>= fun s =>
        log (.note label id s print) >>= fun _ => pure true) C.Agree := by
  intro a m' hx
  obtain ⟨print, m₁, hprint, hx⟩ := bind_ok hx
  rw [fingerprint] at hprint
  split at hprint
  · rename_i hfit
    cases hprint
    cases hx
    let n' : Machine := { n with log := .note label id n.state n.state.fingerprint :: n.log }
    have hlog : n.log <:+ n'.log := List.suffix_cons _ _
    have hprint' : fingerprint n = .ok n.state.fingerprint n := if_pos (h.state.countersFit hfit)
    refine ⟨true, n', 0, fun j _ => bind_eq hprint', hlog, rfl, alike_later h.state hlog, h.empty,
      h.recorded, ?_⟩
    exact fun hexact => h.recalls (C.exact_of_suffix hlog hexact)
  · cases hprint

/-! ### Instructions that use slots -/

/-- Where slots are compared, coupled machines have states that are alike with their slots. -/
theorem alike_slotted (hslotted : C.slotted = true) (h : C.Coupled m n) :
    m.state.Alike true (C.exact n.log) n.state :=
  hslotted ▸ h.state

/-- States that are alike with their slots may be put into coupled machines. -/
theorem coupled_slotted (hslotted : C.slotted = true) (h : C.Coupled m n) {s t : ParseState}
    (hst : s.Alike true (C.exact n.log) t) : C.Coupled (m.withState s) (n.withState t) :=
  h.withState (hslotted ▸ hst)

/-- A name is pushed to the same slot. -/
theorem pushName_follows (hslotted : C.slotted = true) (slot : Nat) (name : String)
    (h : C.Coupled m n) :
    Follows m n (pushName slot name) (fun _ => pushName slot name) C.Agree := by
  refine Follows.state_bind ?_
  have hpush := (alike_slotted hslotted h).pushName? slot name
  generalize m.state.pushName? slot name = found, n.state.pushName? slot name = found' at hpush ⊢
  cases hpush with
  | none => exact Follows.pure ⟨rfl, h⟩
  | some hst => exact Follows.onState_bind (Follows.pure ⟨rfl, coupled_slotted hslotted h hst⟩)

/-- The same amount is added to the same counter, or aborts both. -/
theorem increase_follows (hslotted : C.slotted = true) (slot amount : Nat) (h : C.Coupled m n) :
    Follows m n (increase slot amount) (fun _ => increase slot amount) C.Agree := by
  refine Follows.state_bind ?_
  have halike := alike_slotted hslotted h
  rw [halike.counter?_eq]
  cases hcounter : m.state.counter? slot with
  | none => exact Follows.pure ⟨rfl, h⟩
  | some amounts =>
      obtain ⟨committed, pending⟩ := amounts
      refine Follows.bind (R := fun _ m' _ n' => C.Coupled m' n') (Follows.transition ?_) ?_
      · intro hle
        refine ⟨hle, coupled_slotted hslotted h ?_⟩
        exact halike.setCounter hcounter (of_decide_eq_true hle)
      · intro _ m₁ _ n₁ _ h₁
        exact Follows.pure ⟨rfl, h₁⟩

/-- The same counter is compared. -/
theorem countAtLeast_follows (hslotted : C.slotted = true) (slot amount : Nat)
    (h : C.Coupled m n) :
    Follows m n (countAtLeast slot amount) (fun _ => countAtLeast slot amount) C.Agree := by
  refine Follows.state_bind ?_
  rw [(alike_slotted hslotted h).counter?_eq]
  cases m.state.counter? slot with
  | none => exact Follows.pure ⟨rfl, h⟩
  | some amounts =>
      obtain ⟨committed, pending⟩ := amounts
      by_cases hfit : committed + pending ≤ Slot.limit
      · simp only [if_pos hfit]
        exact Follows.pure ⟨rfl, h⟩
      · simp only [if_neg hfit]
        exact Follows.throw

/-! ## Runs -/

mutual

/-- One instruction takes the same way in both parses, given that what it chooses in view of the
    state depends on what is alike. -/
theorem step_follows (hslotted : C.slotted = true) (hcall : C.Simulates P call call')
    (g : Grammar) (text : Text) (c c' : Config) (id : ExprId) {children : List ExprId}
    (hP : ∀ child ∈ children, P child) {m n : Machine} (h : C.Coupled m n) (instr : Instr)
    (hall : ∀ i : Instr, i.Within [instr] → i.Comparable P) :
    Follows m n (step ⟨g, text, c⟩ call id children instr)
      (fun j => step ⟨g, text, c'⟩ (call' j) id children instr) C.Agree := by
  cases instr with
  | advance count =>
      simp only [step]
      refine Follows.state_bind ?_
      rw [h.state.stop]
      refine (moveTo_follows text _ h).bind ?_
      intro _ m₁ _ n₁ _ h₁
      exact Follows.pure ⟨rfl, h₁⟩
  | goTo position =>
      simp only [step]
      refine (moveTo_follows text _ h).bind ?_
      intro _ m₁ _ n₁ _ h₁
      exact Follows.pure ⟨rfl, h₁⟩
  | call child =>
      simp only [step]
      exact enterChild_follows hcall hP child h
  | callExpr target =>
      simp only [step]
      have htarget := (hall _ (.here (List.mem_singleton_self _))).2 target rfl
      exact enter_follows hcall htarget h
  | «attempt» child =>
      simp only [step]
      refine (enterChild_follows hcall hP child h).bind ?_
      rintro matched m₁ _ n₁ - ⟨-, h₁⟩
      exact Follows.pure ⟨rfl, h₁⟩
  | repeated child =>
      simp only [step]
      refine Follows.state_bind ?_
      rw [h.state.stop]
      refine (enterMany_follows hcall hP child _ h).bind ?_
      intro _ m₁ _ n₁ _ h₁
      exact Follows.pure ⟨rfl, h₁⟩
  | branch child onMatch onFail =>
      simp only [step]
      refine (enterChild_follows hcall hP child h).bind ?_
      rintro matched m₁ _ n₁ - ⟨rfl, h₁⟩
      cases matched with
      | true =>
          exact run_follows hslotted hcall g text c c' id hP h₁ onMatch fun i hi =>
            hall i (.onMatch (List.mem_singleton_self _) hi)
      | false =>
          exact run_follows hslotted hcall g text c c' id hP h₁ onFail fun i hi =>
            hall i (.onFail (List.mem_singleton_self _) hi)
  | atPosition position body =>
      simp only [step]
      refine Follows.state_bind ?_
      rw [h.state.stop]
      by_cases hat : n.state.stop = position
      · simp only [if_pos hat]
        exact run_follows hslotted hcall g text c c' id hP h body fun i hi =>
          hall i (.body (List.mem_singleton_self _) hi)
      · simp only [if_neg hat]
        exact Follows.pure ⟨rfl, h⟩
  | take members =>
      simp only [step]
      refine Follows.state_bind ?_
      rw [h.state.stop]
      refine (moveTo_follows text _ h).bind ?_
      intro _ m₁ _ n₁ _ h₁
      exact Follows.pure ⟨rfl, h₁⟩
  | atEnd =>
      simp only [step]
      refine Follows.state_bind ?_
      rw [h.state.stop]
      exact Follows.pure ⟨rfl, h⟩
  | beforeEnd =>
      simp only [step]
      refine Follows.state_bind ?_
      rw [h.state.stop]
      exact Follows.pure ⟨rfl, h⟩
  | fail =>
      simp only [step]
      exact Follows.pure ⟨rfl, h⟩
  | abortExtension message =>
      simp only [step]
      exact Follows.throw
  | abortInvariant message =>
      simp only [step]
      exact Follows.throw
  | pushName slot name =>
      simp only [step]
      exact pushName_follows hslotted slot name h
  | pushRun slot members =>
      simp only [step]
      refine currentRun_bind text members h ?_
      intro found
      refine Follows.state_bind ?_
      have hnames : (m.state.pushName? slot found).isNone = (n.state.pushName? slot found).isNone :=
        isNone_eq ((alike_slotted hslotted h).pushName? slot found)
      rw [hnames]
      by_cases hno : found = "" ∨ (n.state.pushName? slot found).isNone
      · simp only [if_pos hno]
        exact Follows.pure ⟨rfl, h⟩
      · simp only [if_neg hno]
        refine Follows.state_bind ?_
        rw [h.state.stop]
        refine (moveTo_follows text _ h).bind ?_
        intro _ m₁ _ n₁ _ h₁
        exact pushName_follows hslotted slot found h₁
  | knownRun slot members =>
      simp only [step]
      refine currentRun_bind text members h ?_
      intro found
      refine Follows.state_bind ?_
      rw [(alike_slotted hslotted h).slots_eq]
      split
      · split
        · refine Follows.state_bind ?_
          rw [h.state.stop]
          refine (moveTo_follows text _ h).bind ?_
          intro _ m₁ _ n₁ _ h₁
          exact Follows.pure ⟨rfl, h₁⟩
        · exact Follows.pure ⟨rfl, h⟩
      · exact Follows.pure ⟨rfl, h⟩
  | increase slot amount =>
      simp only [step]
      exact increase_follows hslotted slot amount h
  | countAtLeast slot amount =>
      simp only [step]
      exact countAtLeast_follows hslotted slot amount h
  | note label =>
      simp only [step]
      exact note_follows label id h
  | observe choose =>
      simp only [step]
      refine Follows.state_bind ?_
      have hdiscreet := (hall _ (.here (List.mem_singleton_self _))).1
      have hsame : choose text m.state = choose text n.state :=
        hdiscreet text _ _ h.state.stop (alike_slotted hslotted h).slots_eq.symm
      rw [hsame]
      exact run_follows hslotted hcall g text c c' id hP h _ fun i hi =>
        hall i (.chosen (List.mem_singleton_self _) _ _ hi)

/-- A program takes the same way in both parses. -/
theorem run_follows (hslotted : C.slotted = true) (hcall : C.Simulates P call call')
    (g : Grammar) (text : Text) (c c' : Config) (id : ExprId) {children : List ExprId}
    (hP : ∀ child ∈ children, P child) {m n : Machine} (h : C.Coupled m n) (program : List Instr)
    (hall : ∀ i : Instr, i.Within program → i.Comparable P) :
    Follows m n (run ⟨g, text, c⟩ call id children program)
      (fun j => run ⟨g, text, c'⟩ (call' j) id children program) C.Agree := by
  cases program with
  | nil =>
      simp only [run]
      exact Follows.pure ⟨rfl, h⟩
  | cons instr rest =>
      simp only [run]
      refine (step_follows hslotted hcall g text c c' id hP h instr fun i hi =>
        hall i hi.head).bind ?_
      rintro matched m₁ _ n₁ - ⟨rfl, h₁⟩
      cases matched with
      | true =>
          exact run_follows hslotted hcall g text c c' id hP h₁ rest fun i hi =>
            hall i hi.tail
      | false => exact Follows.pure ⟨rfl, h₁⟩

end

/-- Custom expressions do the same in both parses. -/
theorem custom_follows (hslotted : C.slotted = true) (hcall : C.Simulates P call call')
    (g : Grammar) (text : Text) (c c' : Config) (id : ExprId) {spec : Custom}
    {children : List ExprId} (hP : ∀ target, (Shape.custom spec children).Invokes target → P target)
    (hdiscreet : ∀ i : Instr, i.Within spec.program → i.Discreet) (h : C.Coupled m n) :
    Follows m n (custom ⟨g, text, c⟩ call id spec children)
      (fun j => custom ⟨g, text, c'⟩ (call' j) id spec children) C.Agree := by
  have hrun := run_follows hslotted hcall g text c c' id
    (fun child hchild => hP child (.child hchild)) h spec.program fun i hi =>
      ⟨hdiscreet i hi, by rintro target rfl; exact hP target (.named hi)⟩
  intro b m' hx
  obtain ⟨m₁, hprogram, hend⟩ := custom_ok hx
  obtain ⟨b', n₁, k, hprogram', hlog, rfl, h₁⟩ := hrun b m₁ hprogram
  have hbegun := alike_later h.state hlog
  rcases hend with ⟨rfl, hcan, rfl⟩ | ⟨rfl, rfl⟩
  · refine ⟨true, n₁.withState (n₁.state.uncommit n.state.snapshot), k, ?_, hlog, rfl, ?_⟩
    · intro j hj
      exact custom_kept (hprogram' j hj) (h₁.state.canUncommit hbegun hcan)
    · exact h₁.withState (h₁.state.uncommit hbegun)
  · refine ⟨false, n₁.withState (n₁.state.restore n.state.snapshot), k, ?_, hlog, rfl, ?_⟩
    · intro j hj
      exact custom_undone (hprogram' j hj)
    · exact h₁.withState (h₁.state.restore hbegun)

end Programs

end Packrat
