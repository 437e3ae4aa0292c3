import Mathlib.Logic.Relation
import Packrat.Analysis.LeftRecursion
import Packrat.Proofs.Contract.Invocation
import Packrat.Proofs.SlotContents

/-! # Expressions that leave slots alone

    Only the programs of custom expressions write slots.  An expression from which no such program
    can be invoked is silent: its matches leave the slots as they were, and so do the seeds that it
    installs and the outcomes that it hands to the memo table.

    This is an invariant of the whole machine (`Quiet`).  It needs the slots to be settled, since
    then commits and ways back do nothing to them. -/

namespace Packrat

open Relation Matching Engine

/-! ## What programs invoke and write -/

namespace Instr

/-- The instruction occurs in a program, at any depth.  In an observation occurs what occurs in any
    of the programs that it may choose. -/
inductive Within (instr : Instr) : List Instr → Prop
  | here {program : List Instr} (h : instr ∈ program) : Within instr program
  | onMatch {program onMatch onFail : List Instr} {child : Nat}
      (h : .branch child onMatch onFail ∈ program) (hwithin : Within instr onMatch) :
      Within instr program
  | onFail {program onMatch onFail : List Instr} {child : Nat}
      (h : .branch child onMatch onFail ∈ program) (hwithin : Within instr onFail) :
      Within instr program
  | body {program body : List Instr} {position : Nat} (h : .atPosition position body ∈ program)
      (hwithin : Within instr body) : Within instr program
  | chosen {program : List Instr} {choose : Text → ParseState → List Instr}
      (h : .observe choose ∈ program) (text : Text) (s : ParseState)
      (hwithin : Within instr (choose text s)) : Within instr program

/-- What occurs in a program occurs in a larger one. -/
theorem Within.mono {instr : Instr} {program larger : List Instr} (h : instr.Within program)
    (hsubset : program ⊆ larger) : instr.Within larger := by
  cases h with
  | here h => exact .here (hsubset h)
  | onMatch h hwithin => exact .onMatch (hsubset h) hwithin
  | onFail h hwithin => exact .onFail (hsubset h) hwithin
  | body h hwithin => exact .body (hsubset h) hwithin
  | chosen h text s hwithin => exact .chosen (hsubset h) text s hwithin

theorem Within.head {instr first : Instr} {rest : List Instr} (h : instr.Within [first]) :
    instr.Within (first :: rest) :=
  h.mono (List.cons_subset_cons first (List.nil_subset rest))

theorem Within.tail {instr first : Instr} {rest : List Instr} (h : instr.Within rest) :
    instr.Within (first :: rest) :=
  h.mono (List.subset_cons_self first rest)

/-- Whether the instruction holds no program. -/
def isPlain : Instr → Bool
  | .branch .. | .atPosition .. | .observe _ => false
  | _ => true

/-- In a list of plain instructions, what occurs is listed. -/
theorem Within.mem {instr : Instr} {program : List Instr} (h : instr.Within program)
    (hplain : ∀ i ∈ program, i.isPlain = true) : instr ∈ program := by
  cases h with
  | here h => exact h
  | onMatch h _ => cases hplain _ h
  | onFail h _ => cases hplain _ h
  | body h _ => cases hplain _ h
  | chosen h _ _ _ => cases hplain _ h

/-- Whether the instruction writes a slot. -/
def writes : Instr → Bool
  | .pushName _ _ | .pushRun _ _ | .increase _ _ => true
  | _ => false

/-- What an observation chooses depends on the text, the position and the slots only. -/
def Discreet : Instr → Prop
  | .observe choose => ∀ text s t, s.stop = t.stop → s.slots = t.slots →
      choose text s = choose text t
  | _ => True

/-- Only an observation can look at more than it should. -/
theorem Discreet.of_isPlain {instr : Instr} (h : instr.isPlain = true) : instr.Discreet := by
  cases instr with
  | observe choose => cases h
  | _ => exact trivial

end Instr

/-- Expressions that a shape may invoke: its children, and those that a program names. -/
inductive Shape.Invokes : Shape ExprId → ExprId → Prop
  | child {s : Shape ExprId} {target : ExprId} (h : target ∈ s.children) : Invokes s target
  | named {spec : Custom} {children : List ExprId} {target : ExprId}
      (h : Instr.Within (.callExpr target) spec.program) : Invokes (.custom spec children) target

namespace Grammar

variable {g : Grammar} {id : ExprId}

def Invokes (g : Grammar) (id target : ExprId) : Prop :=
  ∃ shape, g.shape? id = some shape ∧ shape.Invokes target

/-- The instruction occurs in a program that can be invoked from the expression. -/
def MayRun (g : Grammar) (id : ExprId) (instr : Instr) : Prop :=
  ∃ i spec children, ReflTransGen g.Invokes id i ∧ g.shape? i = some (.custom spec children) ∧
    instr.Within spec.program

/-- What may be run from an expression may be run from all that invoke it. -/
theorem MayRun.of_invokes {target : ExprId} {instr : Instr} (h : g.MayRun target instr)
    (hinvokes : g.Invokes id target) : g.MayRun id instr := by
  obtain ⟨i, spec, children, hreach, hshape, hwithin⟩ := h
  exact ⟨i, spec, children, hreach.head hinvokes, hshape, hwithin⟩

/-- No program that writes a slot can be invoked from the expression. -/
def Silent (g : Grammar) (id : ExprId) : Prop :=
  ∀ instr, g.MayRun id instr → instr.writes = false

/-- Silence is handed down to whatever is invoked. -/
theorem Silent.invoked (h : g.Silent id) {target : ExprId} (hinvokes : g.Invokes id target) :
    g.Silent target :=
  fun instr hrun => h instr (hrun.of_invokes hinvokes)

/-- The children of a silent expression are silent. -/
theorem Silent.children (h : g.Silent id) {shape : Shape ExprId}
    (hshape : g.shape? id = some shape) : ∀ child ∈ shape.children, g.Silent child :=
  fun _ hchild => h.invoked ⟨shape, hshape, .child hchild⟩

/-- No boundary that can be invoked from the expression writes slots. -/
def SilentBoundaries (g : Grammar) (id : ExprId) : Prop :=
  ∀ i, ReflTransGen g.Invokes id i → g.isBoundary i = true → g.Silent i

/-- Below an expression there are no more boundaries than from it. -/
theorem SilentBoundaries.invoked (h : g.SilentBoundaries id) {target : ExprId}
    (hinvokes : g.Invokes id target) : g.SilentBoundaries target :=
  fun i hreach => h i (hreach.head hinvokes)

/-- What programs choose to do depends on the text, the position, the slots and the outcomes of
    what they invoke, in every program that can be invoked from the expression. -/
def Discreet (g : Grammar) (id : ExprId) : Prop :=
  ∀ instr, g.MayRun id instr → instr.Discreet

/-- Discretion is handed down to whatever is invoked. -/
theorem Discreet.invoked (h : g.Discreet id) {target : ExprId} (hinvokes : g.Invokes id target) :
    g.Discreet target :=
  fun instr hrun => h instr (hrun.of_invokes hinvokes)

/-- Programs that only list plain instructions are discreet. -/
theorem discreet_of_plain (h : ∀ expr ∈ g.nodes, ∀ spec children,
    expr.shape = .custom spec children → ∀ instr ∈ spec.program, instr.isPlain = true) :
    g.Discreet id := by
  rintro instr ⟨i, spec, children, -, hshape, hwithin⟩
  obtain ⟨expr, hnode, hexpr⟩ := Option.map_eq_some_iff.mp hshape
  have hplain := h expr (Array.mem_of_getElem? hnode) spec children hexpr
  exact .of_isPlain (hplain instr (hwithin.mem hplain))

/-- What can be invoked from a member of a list that is closed under invocation is a member. -/
theorem mem_of_invokes {ids : List ExprId}
    (hclosed : ∀ i ∈ ids, ∀ target, g.Invokes i target → target ∈ ids) (hid : id ∈ ids)
    {i : ExprId} (h : ReflTransGen g.Invokes id i) : i ∈ ids := by
  induction h with
  | refl => exact hid
  | tail _ hlast ih => exact hclosed _ ih _ hlast

end Grammar

/-- The instruction writes no slot and names only silent expressions. -/
def Instr.Silent (g : Grammar) (instr : Instr) : Prop :=
  instr.writes = false ∧ ∀ target, instr = .callExpr target → g.Silent target

/-- The instructions of a silent custom expression write nothing, and name silent expressions only.
    -/
theorem Grammar.Silent.instrs {g : Grammar} {id : ExprId} (h : g.Silent id) {spec : Custom}
    {children : List ExprId} (hshape : g.shape? id = some (.custom spec children)) :
    ∀ instr : Instr, instr.Within spec.program → instr.Silent g := by
  intro instr hwithin
  refine ⟨h instr ⟨id, spec, children, .refl, hshape, hwithin⟩, ?_⟩
  rintro target rfl
  exact h.invoked ⟨_, hshape, .named hwithin⟩

/-! ## States in which slots stay -/

/-- No seed adds to slots. -/
structure Seeds.Quiet (seeds : Seeds ExactDigest) : Prop where
  canonical : seeds.Canonical
  bare : ∀ key c, seeds.get? key = some (some c) → c.Bare

namespace Seeds.Quiet

variable {seeds : Seeds ExactDigest}

/-- A seed that adds nothing to slots may be installed. -/
theorem insert (h : seeds.Quiet) (key : SeedKey) {seed : Option Changes}
    (hseed : ∀ c, seed = some c → c.Bare) : (seeds.insert key seed).Quiet := by
  refine ⟨h.canonical.insert key seed, ?_⟩
  intro j c hget
  rw [get?_insert] at hget
  split at hget
  · exact hseed c (Option.some.inj hget)
  · exact h.bare j c hget

/-- Nothing is installed by removing a seed. -/
theorem remove (h : seeds.Quiet) (key : SeedKey) : (seeds.remove key).Quiet := by
  refine ⟨h.canonical.remove key, ?_⟩
  intro j c hget
  rw [h.canonical.get?_remove] at hget
  split at hget
  · cases hget
  · exact h.bare j c hget

/-- A block says nothing about slots. -/
theorem setBlocked (h : seeds.Quiet) (id : ExprId) (blocked : Bool) :
    (seeds.setBlocked id blocked).Quiet := by
  refine ⟨h.canonical.setBlocked id blocked, ?_⟩
  intro j c hget
  rw [get?_setBlocked] at hget
  exact h.bare j c hget

theorem unblockAll (h : seeds.Quiet) : seeds.unblockAll.Quiet :=
  ⟨h.canonical.unblockAll, h.bare⟩

theorem restoreBlocked (h : seeds.Quiet) {ids : List ExprId} (hids : Ordered.Increasing ids) :
    (seeds.restoreBlocked ids).Quiet :=
  ⟨h.canonical.restoreBlocked hids, h.bare⟩

end Seeds.Quiet

/-- The slots are the given ones, and no seed adds to them. -/
structure ParseState.Quiet (slots : List Slot) (s : ParseState) : Prop where
  slots : s.slots = slots
  seeds : s.seeds.Quiet

namespace ParseState.Quiet

variable {slots : List Slot} {s t : ParseState}

/-- A commit of settled slots changes none of them. -/
theorem commit (h : s.Quiet slots) (hsettled : Slots.Settled slots) : s.commit.Quiet slots := by
  refine ⟨?_, h.seeds⟩
  show Slots.commit s.slots = slots
  rw [h.slots, hsettled.commit]

/-- Nothing is pending in settled slots, so nothing is discarded. -/
theorem discard (h : s.Quiet slots) (hsettled : Slots.Settled slots) : s.discard.Quiet slots := by
  refine ⟨?_, h.seeds⟩
  show s.slots.map Slot.discard = slots
  rw [h.slots, hsettled.discard]

/-- The way back to a state with the same slots changes none of them. -/
theorem restore (h : s.Quiet slots) (ht : t.slots = slots) : (s.restore t.snapshot).Quiet slots := by
  refine ⟨?_, h.seeds⟩
  show Slots.restore s.slots (t.slots.map Slot.mark) = slots
  rw [h.slots, ht, Slots.restore_self]

/-- Between states with the same slots, there is nothing to uncommit. -/
theorem uncommit (h : s.Quiet slots) (ht : t.slots = slots) :
    (s.uncommit t.snapshot).Quiet slots := by
  refine ⟨?_, h.seeds⟩
  show Slots.uncommit s.slots (t.slots.map Slot.mark) = slots
  rw [h.slots, ht, Slots.uncommit_self]

/-- Changes that add nothing to slots leave them as they are. -/
theorem merge (h : s.Quiet slots) {c : Changes} (hc : c.Bare) : (s.merge c).Quiet slots := by
  refine ⟨?_, h.seeds⟩
  show Slots.merge s.slots c.slots = slots
  rw [Slots.merge_none hc, h.slots]

/-- What is extracted from settled slots is nothing. -/
theorem bare_extract (h : s.Quiet slots) (hsettled : Slots.Settled slots) : s.extract.Bare := by
  show ∀ d ∈ s.slots.map Slot.extract, d = none
  rw [h.slots]
  exact hsettled.bare

theorem withSeeds (h : s.Quiet slots) {seeds : Seeds ExactDigest} (hseeds : seeds.Quiet) :
    ({ s with seeds } : ParseState).Quiet slots :=
  ⟨h.slots, hseeds⟩

end ParseState.Quiet

/-- What silent expressions leave: the slots are the given ones, and neither seeds nor outcomes of
    silent expressions add to them. -/
structure Quiet (g : Grammar) (slots : List Slot) (m : Machine) : Prop where
  state : m.state.Quiet slots
  memo : ∀ key c, m.memo.Holds key (some c) → g.Silent key.expr → c.Bare

/-- The program leaves quiet what is. -/
abbrev Quietly {α : Type} (g : Grammar) (slots : List Slot) (m : Machine) (x : Matching α) : Prop :=
  Twins m (fun _ => True) x x fun _ m' => Quiet g slots m'

variable {g : Grammar} {slots : List Slot} {call : Caller} {m : Machine} {operand : ExprId}

theorem Quiet.withState (h : Quiet g slots m) {s : ParseState} (hs : s.Quiet slots) :
    Quiet g slots (m.withState s) :=
  ⟨hs, h.memo⟩

theorem Quiet.of_eq {m' : Machine} (h : Quiet g slots m) (hstate : m'.state = m.state)
    (hmemo : m'.memo = m.memo) : Quiet g slots m' :=
  ⟨hstate ▸ h.state, hmemo ▸ h.memo⟩

section Forms

variable (hcall : ∀ id m, g.Silent id → Quiet g slots m → Quietly g slots m (call id))
variable (hsettled : Slots.Settled slots)

/-! ## Plain forms -/

namespace Combinators

theorem terminal_quiet (h : Quiet g slots m) (stop : Option Nat) :
    Quietly g slots m (terminal stop) := by
  cases stop with
  | none => exact Twins.pure h
  | some stop => exact Twins.onState_bind (Twins.pure (h.withState ⟨h.state.slots, h.state.seeds⟩))

include hcall in
/-- A choice runs silent alternatives, of which none leaves more than it found. -/
theorem choice_quiet (items : List ExprId) (hitems : ∀ i ∈ items, g.Silent i)
    (h : Quiet g slots m) : Quietly g slots m (choice call items) := by
  induction items generalizing m with
  | nil => exact Twins.pure h
  | cons item rest ih =>
      obtain ⟨hitem, hrest⟩ := List.forall_mem_cons.mp hitems
      refine (hcall item m hitem h).bind ?_
      intro matched m₁ h₁
      cases matched with
      | true => exact Twins.pure h₁
      | false => exact ih hrest h₁

include hcall in
theorem optional_quiet (hoperand : g.Silent operand) (h : Quiet g slots m) :
    Quietly g slots m (optional call operand) :=
  (hcall operand m hoperand h).bind fun _ _ h₁ => Twins.pure h₁

include hcall in
theorem token_quiet (setting : Setting) (hoperand : g.Silent operand) (h : Quiet g slots m) :
    Quietly g slots m (token call setting operand) := by
  refine (hcall operand m hoperand h).bind ?_
  intro matched m₁ h₁
  cases matched with
  | false => exact Twins.pure h₁
  | true =>
      cases hws : setting.grammar.whitespace with
      | none =>
          simp only [if_true]
          exact Twins.pure h₁
      | some whitespace =>
          simp only [if_true]
          refine Twins.state_bind (Twins.lift_bind trivial ?_)
          rintro stop -
          cases stop with
          | none => exact Twins.pure h₁
          | some stop =>
              exact Twins.onState_bind (Twins.pure (h₁.withState ⟨h₁.state.slots, h₁.state.seeds⟩))

include hcall in
theorem capture_quiet (text : Text) (mode : CaptureMode) (hoperand : g.Silent operand)
    (h : Quiet g slots m) : Quietly g slots m (capture call text operand mode) := by
  refine Twins.state_bind ((hcall operand m hoperand h).bind ?_)
  intro matched m₁ h₁
  cases matched with
  | false => exact Twins.pure h₁
  | true =>
      refine Twins.state_bind (Twins.onState_bind (Twins.pure ?_))
      exact h₁.withState ⟨h₁.state.slots, h₁.state.seeds⟩

include hcall hsettled

/-- Between silent items, commits change no slot. -/
theorem matchAll_quiet (items : List ExprId) (hitems : ∀ i ∈ items, g.Silent i)
    (h : Quiet g slots m) : Quietly g slots m (matchAll call items) := by
  induction items generalizing m with
  | nil => exact Twins.pure h
  | cons item rest ih =>
      obtain ⟨hitem, hrest⟩ := List.forall_mem_cons.mp hitems
      refine (hcall item m hitem h).bind ?_
      intro matched m₁ h₁
      cases matched with
      | false => exact Twins.pure h₁
      | true =>
          refine Twins.commit_bind trivial ?_
          intro _
          exact ih hrest (h₁.withState (h₁.state.commit hsettled))

/-- A sequence of silent items ends with a way back over slots that never changed. -/
theorem sequence_quiet (items : List ExprId) (hitems : ∀ i ∈ items, g.Silent i)
    (h : Quiet g slots m) : Quietly g slots m (sequence call items) := by
  refine Twins.state_bind ((matchAll_quiet hcall hsettled items hitems h).bind ?_)
  intro matched m₁ h₁
  cases matched with
  | true =>
      refine Twins.uncommit_bind trivial ?_
      intro _
      exact Twins.pure (h₁.withState (h₁.state.uncommit h.state.slots))
  | false =>
      exact Twins.onState_bind (Twins.pure (h₁.withState (h₁.state.restore h.state.slots)))

/-- Rounds of a silent operand leave what the first one found. -/
theorem matchMany_quiet (rounds count : Nat) (hoperand : g.Silent operand) (h : Quiet g slots m) :
    Quietly g slots m (matchMany call operand rounds count) := by
  induction rounds generalizing m count with
  | zero => exact Twins.pure h
  | succ rounds ih =>
      refine Twins.state_bind ((hcall operand m hoperand h).bind ?_)
      intro matched m₁ h₁
      cases matched with
      | false => exact Twins.pure h₁
      | true =>
          refine Twins.state_bind ?_
          by_cases hstay : m₁.state.stop = m.state.stop
          · simp only [if_pos hstay]
            exact Twins.onState_bind (Twins.pure (h₁.withState (h₁.state.discard hsettled)))
          · simp only [if_neg hstay]
            refine Twins.commit_bind trivial ?_
            intro _
            exact ih (count + 1) (h₁.withState (h₁.state.commit hsettled))

/-- A repetition of a silent operand is undone or uncommitted over the same slots. -/
theorem repetition_quiet (text : Text) (least : Nat) (hoperand : g.Silent operand)
    (h : Quiet g slots m) : Quietly g slots m (repetition call text least operand) := by
  refine Twins.state_bind ((matchMany_quiet hcall hsettled _ 0 hoperand h).bind ?_)
  intro count m₁ h₁
  by_cases hfew : count < least
  · simp only [if_pos hfew]
    exact Twins.onState_bind (Twins.pure (h₁.withState (h₁.state.restore h.state.slots)))
  · simp only [if_neg hfew]
    refine Twins.uncommit_bind trivial ?_
    intro _
    exact Twins.pure (h₁.withState (h₁.state.uncommit h.state.slots))

theorem lookahead_quiet (hoperand : g.Silent operand) (h : Quiet g slots m) :
    Quietly g slots m (lookahead call operand) := by
  refine (hcall operand m hoperand h).bind ?_
  intro matched m₁ h₁
  cases matched with
  | false => exact Twins.pure h₁
  | true => exact Twins.onState_bind (Twins.pure (h₁.withState (h₁.state.discard hsettled)))

/-- A negation restores the recording whatever its operand does, and no slot. -/
theorem negation_quiet (hoperand : g.Silent operand) (h : Quiet g slots m) :
    Quietly g slots m (negation call operand) := by
  have hsilenced : Quiet g slots (m.withState { m.state with recording := false }) :=
    h.withState ⟨h.state.slots, h.state.seeds⟩
  refine Twins.state_bind (Twins.onState_bind ?_)
  refine ((hcall operand _ hoperand hsilenced).thenAlways
    (Q := fun _ m' => Quiet g slots m') ?_ fun _ h => h).bind ?_
  · intro matched m₁ h₁
    exact h₁.withState ⟨h₁.state.slots, h₁.state.seeds⟩
  · intro matched m₁ h₁
    cases matched with
    | false => exact Twins.pure h₁
    | true => exact Twins.onState_bind (Twins.pure (h₁.withState (h₁.state.discard hsettled)))

end Combinators

/-! ## Growing forms -/

namespace Growth

/-- A seed that adds nothing to slots, on a machine that is quiet. -/
abbrev QuietSeed (g : Grammar) (slots : List Slot) (seed : Option Changes) (m : Machine) : Prop :=
  Quiet g slots m ∧ ∀ c, seed = some c → c.Bare

variable {s : ParseState} {key : SeedKey}

/-- A seed that adds nothing to slots is replayed without changing them. -/
theorem replay_quiet (h : Quiet g slots m) {seed : Option Changes}
    (hseed : ∀ c, seed = some c → c.Bare) : Quietly g slots m (replay seed) := by
  cases seed with
  | none => exact Twins.pure h
  | some c =>
      refine Twins.merge_bind trivial ?_
      intro _
      exact Twins.pure (h.withState (h.state.merge (hseed c rfl)))

include hsettled

/-- A seed that was installed adds nothing either. -/
theorem install_quiet (h : Quiet g slots m) (hs : s.slots = slots) :
    Twins m (fun _ => True) (install key s.snapshot) (install key s.snapshot)
      fun c m' => Quiet g slots m' ∧ c.Bare := by
  have hbare := h.state.bare_extract hsettled
  have hback := h.state.restore hs
  refine Twins.state_bind (Twins.onState_bind (Twins.onTally_bind (Twins.onState_bind ?_)))
  refine Twins.pure ⟨⟨hback.withSeeds (hback.seeds.insert key ?_), h.memo⟩, hbare⟩
  rintro _ ⟨⟩
  exact hbare

include hcall

/-- The seeds of a silent boundary add nothing to slots, one after the other. -/
theorem grow_quiet (hoperand : g.Silent operand) (hs : s.slots = slots) (runs : Nat)
    (h : Quiet g slots m) {best : Option Changes} (hbest : ∀ c, best = some c → c.Bare) :
    Twins m (fun _ => True) (grow call key operand s.snapshot runs best)
      (grow call key operand s.snapshot runs best)
      (QuietSeed g slots) := by
  induction runs generalizing m best with
  | zero => exact Twins.pure ⟨h, hbest⟩
  | succ runs ih =>
      refine (hcall operand m hoperand h).bind ?_
      intro matched m₁ h₁
      cases matched with
      | false => exact Twins.pure ⟨h₁, hbest⟩
      | true =>
          refine Twins.state_bind ?_
          by_cases hfar : advances m₁.state.stop best = true
          · simp only [hfar, if_true]
            refine (install_quiet hsettled h₁ hs).bind ?_
            rintro c m₂ ⟨h₂, hc⟩
            refine ih h₂ ?_
            rintro _ ⟨⟩
            exact hc
          · simp only [hfar]
            exact Twins.onState_bind (Twins.pure ⟨h₁.withState (h₁.state.restore hs), hbest⟩)

/-- A silent boundary replays or grows a seed that adds nothing. -/
theorem leftRecursive_quiet (text : Text) (id : ExprId) (assoc : Bool) (hoperand : g.Silent operand)
    (h : Quiet g slots m) : Quietly g slots m (leftRecursive call text id operand assoc) := by
  have hseeds := h.state.seeds
  have hnone : ∀ c : Changes, (none : Option Changes) = some c → c.Bare := by rintro c ⟨⟩
  refine Twins.state_bind ?_
  dsimp only
  generalize ({ expr := id, position := m.state.stop } : SeedKey) = key
  cases hget : m.state.seeds.get? key with
  | some seed => exact replay_quiet h fun c hc => hseeds.bare key c (hc ▸ hget)
  | none =>
      have hfailing := hseeds.insert key hnone
      by_cases hblocked : (assoc && m.state.seeds.isBlocked id) = true
      · simp only [if_pos hblocked]
        refine Twins.onState_bind ?_
        refine (hcall operand _ hoperand
          (h.withState (h.state.withSeeds (hfailing.setBlocked id false)))).thenAlways ?_
          fun _ h => h
        intro matched m₁ h₁
        exact h₁.withState
          (h₁.state.withSeeds ((h₁.state.seeds.setBlocked id true).remove key))
      · simp only [if_neg hblocked]
        refine Twins.onState_bind ?_
        have hgrowing : Quiet g slots (m.withState { m.state with
            seeds := if assoc then (m.state.seeds.insert key none).setBlocked id true
              else m.state.seeds.insert key none }) := by
          refine h.withState (h.state.withSeeds ?_)
          cases assoc with
          | true => exact hfailing.setBlocked id true
          | false => exact hfailing
        refine ((grow_quiet hcall hsettled hoperand h.state.slots _ hgrowing hnone).thenAlways
          (Q := QuietSeed g slots) ?_ fun _ h => h).bind ?_
        · rintro seed m₁ ⟨h₁, hseed⟩
          refine ⟨h₁.withState (h₁.state.withSeeds ?_), hseed⟩
          cases assoc with
          | true => exact (h₁.state.seeds.setBlocked id false).remove key
          | false => exact h₁.state.seeds.remove key
        · rintro seed m₁ ⟨h₁, hseed⟩
          exact replay_quiet h₁ hseed

/-- Whichever alternative surpasses the seed, what it installs adds nothing. -/
theorem climbOnce_quiet (alternatives : List ExprId) (hsilent : ∀ i ∈ alternatives, g.Silent i)
    (hs : s.slots = slots) (h : Quiet g slots m) (best : Option Changes) :
    Twins m (fun _ => True) (climbOnce call key s.snapshot best alternatives)
      (climbOnce call key s.snapshot best alternatives)
      (QuietSeed g slots) := by
  induction alternatives generalizing m with
  | nil => exact Twins.pure ⟨h, by rintro c ⟨⟩⟩
  | cons alternative rest ih =>
      obtain ⟨halternative, hrest⟩ := List.forall_mem_cons.mp hsilent
      refine (hcall alternative m halternative h).bind ?_
      intro matched m₁ h₁
      cases matched with
      | false => exact ih hrest h₁
      | true =>
          refine Twins.state_bind ?_
          by_cases hfar : advances m₁.state.stop best = true
          · simp only [hfar, if_true]
            refine (install_quiet hsettled h₁ hs).bind ?_
            rintro c m₂ ⟨h₂, hc⟩
            refine Twins.pure ⟨h₂, ?_⟩
            rintro _ ⟨⟩
            exact hc
          · simp only [hfar]
            exact Twins.onState_bind (ih hrest (h₁.withState (h₁.state.restore hs)))

/-- A group of silent alternatives goes on from seeds that add nothing. -/
theorem climb_quiet (group : Group ExprId) (hsilent : ∀ i ∈ group.alternatives, g.Silent i)
    (hs : s.slots = slots) (rounds : Nat) (h : Quiet g slots m) {best : Option Changes}
    (hbest : ∀ c, best = some c → c.Bare) :
    Twins m (fun _ => True) (climb call key group s.snapshot rounds best)
      (climb call key group s.snapshot rounds best)
      (QuietSeed g slots) := by
  induction rounds generalizing m best with
  | zero => exact Twins.pure ⟨h, hbest⟩
  | succ rounds ih =>
      refine (climbOnce_quiet hcall hsettled group.alternatives hsilent hs h best).bind ?_
      rintro grown m₁ ⟨h₁, hgrown⟩
      cases grown with
      | none => exact Twins.pure ⟨h₁, hbest⟩
      | some c =>
          by_cases hgrows : group.kind.grows = true
          · simp only [hgrows, if_true]
            exact ih h₁ hgrown
          · simp only [hgrows]
            exact Twins.pure ⟨h₁, hgrown⟩

/-- Groups hand on seeds that add nothing, and floors say nothing about slots. -/
theorem climbAll_quiet (text : Text) (groups : List (Group ExprId))
    (hsilent : ∀ group ∈ groups, ∀ i ∈ group.alternatives, g.Silent i) (h : Quiet g slots m)
    {best : Option Changes} (hbest : ∀ c, best = some c → c.Bare) :
    Twins m (fun _ => True) (climbAll call text key groups best)
      (climbAll call text key groups best)
      (QuietSeed g slots) := by
  induction groups generalizing m best with
  | nil => exact Twins.pure ⟨h, hbest⟩
  | cons group rest ih =>
      obtain ⟨hgroup, hrest⟩ := List.forall_mem_cons.mp hsilent
      refine Twins.onState_bind (Twins.state_bind ?_)
      have hlevel : Quiet g slots (m.withState { m.state with
          floors := m.state.floors.set key.expr (levelFloor group) }) :=
        h.withState ⟨h.state.slots, h.state.seeds⟩
      refine (climb_quiet hcall hsettled group hgroup hlevel.state.slots _ hlevel hbest).bind ?_
      rintro seed m₁ ⟨h₁, hseed⟩
      exact ih hrest h₁ hseed

/-- A silent cluster replays or climbs to a seed that adds nothing. -/
theorem cluster_quiet (text : Text) (id : ExprId) (groups : List (Group ExprId))
    (hsilent : ∀ group ∈ groups, ∀ i ∈ group.alternatives, g.Silent i) (h : Quiet g slots m) :
    Quietly g slots m (cluster call text id groups) := by
  have hseeds := h.state.seeds
  have hnone : ∀ c : Changes, (none : Option Changes) = some c → c.Bare := by rintro c ⟨⟩
  refine Twins.state_bind ?_
  dsimp only
  generalize ({ expr := id, position := m.state.stop } : SeedKey) = key
  cases hget : m.state.seeds.get? key with
  | some seed => exact replay_quiet h fun c hc => hseeds.bare key c (hc ▸ hget)
  | none =>
      refine Twins.onState_bind ?_
      have hfailing := h.withState (h.state.withSeeds (hseeds.insert key hnone))
      have hadmitted : ∀ group ∈ groups.takeWhile (fun group =>
          m.state.floors.floor id ≤ group.precedence), ∀ i ∈ group.alternatives, g.Silent i :=
        fun group hgroup => hsilent group (List.takeWhile_subset _ hgroup)
      refine ((climbAll_quiet hcall hsettled text _ hadmitted hfailing hnone).thenAlways
        (Q := QuietSeed g slots) ?_ fun _ h => h).bind ?_
      · rintro seed m₁ ⟨h₁, hseed⟩
        exact ⟨h₁.withState ⟨h₁.state.slots, h₁.state.seeds.remove key⟩, hseed⟩
      · rintro seed m₁ ⟨h₁, hseed⟩
        exact replay_quiet h₁ hseed

omit hsettled in
theorem minPrecedence_quiet (floor : Precedence) (hoperand : g.Silent operand)
    (h : Quiet g slots m) : Quietly g slots m (minPrecedence call operand floor) := by
  have hreset : Quiet g slots (m.withState { m.state with
      floors := .uniform floor, seeds := m.state.seeds.unblockAll }) :=
    h.withState ⟨h.state.slots, h.state.seeds.unblockAll⟩
  refine Twins.state_bind (Twins.onState_bind ?_)
  refine (hcall operand _ hoperand hreset).thenAlways ?_ fun _ h => h
  intro matched m₁ h₁
  exact h₁.withState ⟨h₁.state.slots,
    h₁.state.seeds.restoreBlocked h.state.seeds.canonical.blocked⟩

end Growth

/-! ## Programs -/

namespace Programs

include hsettled

omit hcall in
theorem moveTo_quiet (text : Text) (target : Nat) (h : Quiet g slots m) :
    Quietly g slots m (moveTo text target) := by
  refine Twins.state_bind ?_
  dsimp only
  by_cases hlegal : m.state.stop ≤ target ∧ target ≤ text.length
  · rw [if_pos hlegal]
    have hmoved : Quiet g slots (m.withState (m.state.moveTo target)) :=
      h.withState ⟨h.state.slots, h.state.seeds⟩
    refine Twins.onState_bind ((Twins.transition trivial).imp ?_)
    rintro ⟨⟩ m' ⟨-, rfl⟩
    exact hmoved.withState (hmoved.state.commit hsettled)
  · rw [if_neg hlegal]
    exact Twins.throw trivial

include hcall

/-- Matching a silent expression out of a program changes no slot, and neither do the commits around
    it. -/
theorem enter_quiet {id : ExprId} (hid : g.Silent id) (h : Quiet g slots m) :
    Quietly g slots m (enter call id) := by
  refine Twins.commit_bind trivial ?_
  intro _
  refine (hcall id _ hid (h.withState (h.state.commit hsettled))).bind ?_
  intro matched m₁ h₁
  cases matched with
  | false => exact Twins.pure h₁
  | true =>
      refine Twins.commit_bind trivial ?_
      intro _
      exact Twins.pure (h₁.withState (h₁.state.commit hsettled))

/-- The children of a silent expression may be matched, and an index past them only fails. -/
theorem enterChild_quiet {children : List ExprId} (hchildren : ∀ child ∈ children, g.Silent child)
    (index : Nat) (h : Quiet g slots m) : Quietly g slots m (enterChild call children index) := by
  rw [enterChild]
  cases hchild : children[index]? with
  | none => exact Twins.pure h
  | some child =>
      exact enter_quiet hcall hsettled (hchildren child (List.mem_of_getElem? hchild)) h

/-- A child may be matched over and over. -/
theorem enterMany_quiet {children : List ExprId} (hchildren : ∀ child ∈ children, g.Silent child)
    (index rounds : Nat) (h : Quiet g slots m) :
    Quietly g slots m (enterMany call children index rounds) := by
  induction rounds generalizing m with
  | zero => exact Twins.pure h
  | succ rounds ih =>
      refine Twins.state_bind ((enterChild_quiet hcall hsettled hchildren index h).bind ?_)
      intro matched m₁ h₁
      cases matched with
      | false => exact Twins.pure h₁
      | true =>
          refine Twins.state_bind ?_
          by_cases hstay : m₁.state.stop = m.state.stop
          · simp only [if_pos hstay]
            exact Twins.pure h₁
          · simp only [if_neg hstay]
            exact ih h₁

omit hcall hsettled in
/-- Comparing a counter reads it only. -/
theorem countAtLeast_quiet (slot amount : Nat) (h : Quiet g slots m) :
    Quietly g slots m (countAtLeast slot amount) := by
  refine Twins.state_bind ?_
  cases m.state.counter? slot with
  | none => exact Twins.pure h
  | some amounts =>
      obtain ⟨committed, pending⟩ := amounts
      by_cases hfit : committed + pending ≤ Slot.limit
      · simp only [if_pos hfit]
        exact Twins.pure h
      · simp only [if_neg hfit]
        exact Twins.throw trivial

omit hcall hsettled

mutual

/-- One instruction of a silent program.  Those that write a slot do not occur in it. -/
theorem step_quiet (hcall : ∀ id m, g.Silent id → Quiet g slots m → Quietly g slots m (call id))
    (hsettled : Slots.Settled slots) (setting : Setting) (id : ExprId) {children : List ExprId}
    (hchildren : ∀ child ∈ children, g.Silent child) {m : Machine} (h : Quiet g slots m)
    (instr : Instr) (hsilent : ∀ i : Instr, i.Within [instr] → i.Silent g) :
    Quietly g slots m (step setting call id children instr) := by
  cases instr with
  | advance count =>
      simp only [step]
      refine Twins.state_bind ((moveTo_quiet hsettled _ _ h).bind ?_)
      intro _ m₁ h₁
      exact Twins.pure h₁
  | goTo position =>
      simp only [step]
      refine (moveTo_quiet hsettled _ _ h).bind ?_
      intro _ m₁ h₁
      exact Twins.pure h₁
  | call child =>
      simp only [step]
      exact enterChild_quiet hcall hsettled hchildren child h
  | callExpr target =>
      simp only [step]
      have htarget := (hsilent _ (.here (List.mem_singleton_self _))).2 target rfl
      exact enter_quiet hcall hsettled htarget h
  | «attempt» child =>
      simp only [step]
      refine (enterChild_quiet hcall hsettled hchildren child h).bind ?_
      intro _ m₁ h₁
      exact Twins.pure h₁
  | repeated child =>
      simp only [step]
      refine Twins.state_bind ((enterMany_quiet hcall hsettled hchildren child _ h).bind ?_)
      intro _ m₁ h₁
      exact Twins.pure h₁
  | branch child onMatch onFail =>
      simp only [step]
      refine (enterChild_quiet hcall hsettled hchildren child h).bind ?_
      intro matched m₁ h₁
      cases matched with
      | true =>
          exact run_quiet hcall hsettled setting id hchildren h₁ onMatch fun i hi =>
            hsilent i (.onMatch (List.mem_singleton_self _) hi)
      | false =>
          exact run_quiet hcall hsettled setting id hchildren h₁ onFail fun i hi =>
            hsilent i (.onFail (List.mem_singleton_self _) hi)
  | atPosition position body =>
      simp only [step]
      refine Twins.state_bind ?_
      by_cases hat : m.state.stop = position
      · simp only [if_pos hat]
        exact run_quiet hcall hsettled setting id hchildren h body fun i hi =>
          hsilent i (.body (List.mem_singleton_self _) hi)
      · simp only [if_neg hat]
        exact Twins.pure h
  | take members =>
      simp only [step]
      refine Twins.state_bind ((moveTo_quiet hsettled _ _ h).bind ?_)
      intro _ m₁ h₁
      exact Twins.pure h₁
  | atEnd =>
      simp only [step]
      exact Twins.state_bind (Twins.pure h)
  | beforeEnd =>
      simp only [step]
      exact Twins.state_bind (Twins.pure h)
  | fail =>
      simp only [step]
      exact Twins.pure h
  | abortExtension message =>
      simp only [step]
      exact Twins.throw trivial
  | abortInvariant message =>
      simp only [step]
      exact Twins.throw trivial
  | pushName slot name => cases (hsilent _ (.here (List.mem_singleton_self _))).1
  | pushRun slot members => cases (hsilent _ (.here (List.mem_singleton_self _))).1
  | knownRun slot members =>
      simp only [step, currentRun]
      refine Twins.bind (R := fun _ m' => m' = m) (Twins.state_bind (Twins.pure rfl)) ?_
      rintro found m' rfl
      refine Twins.state_bind ?_
      split
      · split
        · refine Twins.state_bind ((moveTo_quiet hsettled _ _ h).bind ?_)
          intro _ m₁ h₁
          exact Twins.pure h₁
        · exact Twins.pure h
      · exact Twins.pure h
  | increase slot amount => cases (hsilent _ (.here (List.mem_singleton_self _))).1
  | countAtLeast slot amount =>
      simp only [step]
      exact countAtLeast_quiet slot amount h
  | note label =>
      simp only [step]
      refine (Twins.fingerprint trivial).bind ?_
      rintro print m' ⟨-, rfl⟩
      exact Twins.state_bind (Twins.log_bind (Twins.pure ⟨h.state, h.memo⟩))
  | observe choose =>
      simp only [step]
      refine Twins.state_bind ?_
      exact run_quiet hcall hsettled setting id hchildren h _ fun i hi =>
        hsilent i (.chosen (List.mem_singleton_self _) _ _ hi)

/-- A silent program, instruction by instruction. -/
theorem run_quiet (hcall : ∀ id m, g.Silent id → Quiet g slots m → Quietly g slots m (call id))
    (hsettled : Slots.Settled slots) (setting : Setting) (id : ExprId) {children : List ExprId}
    (hchildren : ∀ child ∈ children, g.Silent child) {m : Machine} (h : Quiet g slots m)
    (program : List Instr) (hsilent : ∀ i : Instr, i.Within program → i.Silent g) :
    Quietly g slots m (run setting call id children program) := by
  cases program with
  | nil =>
      simp only [run]
      exact Twins.pure h
  | cons instr rest =>
      simp only [run]
      refine (step_quiet hcall hsettled setting id hchildren h instr fun i hi =>
        hsilent i hi.head).bind ?_
      intro matched m₁ h₁
      cases matched with
      | true =>
          exact run_quiet hcall hsettled setting id hchildren h₁ rest fun i hi =>
            hsilent i hi.tail
      | false => exact Twins.pure h₁

end

include hcall hsettled

/-- A custom expression goes back over slots that its program did not change. -/
theorem custom_quiet (setting : Setting) {id : ExprId} {spec : Custom} {children : List ExprId}
    (hid : g.Silent id) (hshape : g.shape? id = some (.custom spec children))
    (h : Quiet g slots m) : Quietly g slots m (custom setting call id spec children) := by
  have hrun := run_quiet hcall hsettled setting id (hid.children hshape) h spec.program
    (hid.instrs hshape)
  refine ⟨rfl, ?_, fun _ => trivial⟩
  intro b m' hx
  obtain ⟨m₁, hprogram, hend⟩ := custom_ok hx
  have h₁ : Quiet g slots m₁ := hrun.answer hprogram
  rcases hend with ⟨-, -, rfl⟩ | ⟨-, rfl⟩
  · exact h₁.withState (h₁.state.uncommit h.state.slots)
  · exact h₁.withState (h₁.state.restore h.state.slots)

end Programs

/-! ## Every match -/

namespace Engine

include hcall hsettled

/-- Every shape of a silent expression invokes silent expressions only. -/
theorem dispatch_quiet (setting : Setting) {id : ExprId} {shape : Shape ExprId}
    (hid : g.Silent id) (hshape : g.shape? id = some shape) (h : Quiet g slots m) :
    Quietly g slots m (dispatch setting call id shape) := by
  have hchildren := hid.children hshape
  have honly : ∀ operand, shape.children = [operand] → g.Silent operand := by
    intro operand honly
    exact hchildren operand (honly ▸ List.mem_singleton_self operand)
  refine Twins.state_bind ?_
  cases shape with
  | literal literal => exact Combinators.terminal_quiet h _
  | any => exact Combinators.terminal_quiet h _
  | range lo hi => exact Combinators.terminal_quiet h _
  | set members => exact Combinators.terminal_quiet h _
  | sequence items => exact Combinators.sequence_quiet hcall hsettled items hchildren h
  | choice items => exact Combinators.choice_quiet hcall items hchildren h
  | optional operand => exact Combinators.optional_quiet hcall (honly operand rfl) h
  | zeroMore operand => exact Combinators.repetition_quiet hcall hsettled _ 0 (honly operand rfl) h
  | oneMore operand => exact Combinators.repetition_quiet hcall hsettled _ 1 (honly operand rfl) h
  | lookahead operand => exact Combinators.lookahead_quiet hcall hsettled (honly operand rfl) h
  | not operand => exact Combinators.negation_quiet hcall hsettled (honly operand rfl) h
  | token operand => exact Combinators.token_quiet hcall setting (honly operand rfl) h
  | capture operand mode => exact Combinators.capture_quiet hcall _ mode (honly operand rfl) h
  | leftRecursive operand assoc =>
      exact Growth.leftRecursive_quiet hcall hsettled _ id assoc (honly operand rfl) h
  | cluster groups =>
      refine Growth.cluster_quiet hcall hsettled _ id groups ?_ h
      intro group hgroup i hi
      exact hchildren i (List.mem_flatMap.mpr ⟨group, hgroup, hi⟩)
  | minPrecedence operand floor =>
      exact Growth.minPrecedence_quiet hcall floor (honly operand rfl) h
  | reference name => exact Twins.throw trivial
  | custom spec children =>
      exact Programs.custom_quiet hcall hsettled setting hid hshape h

omit hcall hsettled in
/-- A failure is recorded beside the state and the memo table. -/
theorem recordFailure_quiet (setting : Setting) (id : ExprId) (expr : Expr)
    (h : Quiet g slots m) : Quietly g slots m (recordFailure setting id expr) := by
  refine ((recordFailure_records m expr).imp_fault fun _ _ => trivial).imp ?_
  rintro ⟨⟩ m₁ ⟨hstate, hmemo, -⟩
  exact h.of_eq hstate hmemo

/-- What a silent expression hands to the memo table adds nothing to slots. -/
theorem evaluate_quiet (setting : Setting) {id : ExprId} {expr : Expr} (hid : g.Silent id)
    (hshape : g.shape? id = some expr.shape) (key : Option (MemoKey Fingerprint))
    (h : Quiet g slots m) : Quietly g slots m (evaluate setting call id expr key) := by
  have hrecord : ∀ {matched : Bool} {m₁ : Machine}, Quiet g slots m₁ → Quietly g slots m₁
      (if !matched then do recordFailure setting id expr; pure matched else pure matched) := by
    intro matched m₁ h₁
    cases matched with
    | true => exact Twins.pure h₁
    | false => exact (recordFailure_quiet setting id expr h₁).bind fun _ _ h₂ => Twins.pure h₂
  refine (dispatch_quiet hcall hsettled setting hid hshape h).bind ?_
  intro matched m₁ h₁
  cases key with
  | none => exact hrecord h₁
  | some key =>
      refine Twins.onTally_bind (Twins.state_bind ?_)
      refine ((store_held setting _ key _).imp_fault fun _ _ => trivial).bind ?_
      rintro ⟨⟩ m₂ ⟨hstate, -, hheld⟩
      refine hrecord ⟨hstate ▸ h₁.state, ?_⟩
      intro k c hk hsilent
      rcases hheld k (some c) hk with ⟨-, houtcome⟩ | hold
      · cases matched with
        | false => cases houtcome
        | true =>
            cases houtcome
            exact h₁.state.bare_extract hsettled
      · exact h₁.memo k c hold hsilent

omit hcall hsettled in
/-- An outcome that is kept for a silent expression adds nothing to slots. -/
theorem replayMemo_quiet (setting : Setting) {id : ExprId} (hid : g.Silent id) (expr : Expr)
    {key : MemoKey Fingerprint} (hkey : key.expr = id) {outcome : Option Changes}
    (hheld : m.memo.Holds key outcome) (h : Quiet g slots m) :
    Quietly g slots m (replayMemo setting id expr outcome) := by
  refine Twins.onTally_bind ?_
  have hcounted : Quiet g slots
      { m with tally := { m.tally with memoHits := m.tally.memoHits + 1 } } := ⟨h.state, h.memo⟩
  cases outcome with
  | some c =>
      refine Twins.merge_bind trivial ?_
      intro _
      exact Twins.pure (hcounted.withState (h.state.merge (h.memo key c hheld (hkey ▸ hid))))
  | none => exact (recordFailure_quiet setting id expr hcounted).bind fun _ _ h₁ => Twins.pure h₁

/-- A match of a silent expression, answered by the memo table or run. -/
theorem attempt_quiet (setting : Setting) (hgrammar : setting.grammar = g) {id : ExprId}
    (hid : g.Silent id) (h : Quiet g slots m) : Quietly g slots m (attempt setting call id) := by
  refine ((countStep_standing m).imp_fault fun _ _ => trivial).bind ?_
  rintro ⟨⟩ m₁ hstanding
  have h₁ := h.of_eq hstanding.state hstanding.memo
  refine Twins.lift_bind trivial ?_
  intro expr hnode
  have hshape : g.shape? id = some expr.shape := by
    rw [← hgrammar]
    exact Grammar.shape?_of_node? (Grammar.node_ok hnode)
  by_cases hmemoizes : memoizes setting expr = true
  · simp only [if_pos hmemoizes]
    refine ((memoKey_eq m₁).imp_fault fun _ _ => trivial).bind ?_
    rintro key m₂ ⟨rfl, rfl⟩
    refine ((consult_held m₂ _).imp_fault fun _ _ => trivial).bind ?_
    rintro answer m₃ ⟨hstanding₃, hheld⟩
    have h₃ := h₁.of_eq hstanding₃.state hstanding₃.memo
    cases answer with
    | some outcome =>
        exact replayMemo_quiet setting hid expr rfl (hstanding₃.memo ▸ hheld outcome rfl) h₃
    | none => exact evaluate_quiet hcall hsettled setting hid hshape _ h₃
  · simp only [if_neg hmemoizes]
    exact evaluate_quiet hcall hsettled setting hid hshape none h₁

end Engine

end Forms

/-- A match of a silent expression leaves settled slots as they are. -/
theorem Engine.invoke_quiet (setting : Setting) (nesting : Nat) {id : ExprId}
    (hid : setting.grammar.Silent id) (hsettled : Slots.Settled slots)
    (h : Quiet setting.grammar slots m) :
    Quietly setting.grammar slots m (invoke setting nesting id) := by
  induction nesting generalizing id m with
  | zero =>
      refine ((countStep_standing m).imp_fault fun _ _ => trivial).bind ?_
      rintro ⟨⟩ m₁ -
      exact Twins.state_bind (Twins.throw trivial)
  | succ nesting ih =>
      rw [invoke_succ]
      exact attempt_quiet (fun _ _ hid h => ih hid h) hsettled setting rfl hid h

end Packrat
