import Packrat.Proofs.ReportContents
import Packrat.Proofs.Transparency.Alike

/-! # Following a parse without a memo table

    A parse with a memo table is compared with one that keeps no outcome.  The second nests deeper,
    so it is run with every nesting that is large enough.  A program follows another from two
    machines if, whenever the other answers, it answers too, and the answers and machines are
    related (`Follows`).

    What relates the machines is a `Coupling`: the parse states are alike, the failures, if they are
    compared, are related by any relation that recording respects, and what the memo table holds is
    what the parse without one would find (`Faithful`).  As long as a chosen condition on the log of
    the second parse holds, the parse states are alike exactly. -/

namespace Packrat

open Engine

/-- A parse that hands outcomes to a memo table which keeps none of them. -/
def Config.unmemoized (depth : Nat) : Config :=
  { memoization := .all, maxDepth := depth, memo := .off }

namespace Matching

variable {α β γ δ : Type} {m n : Machine}

/-- Whenever `x` answers from `m`, the programs `y` answer from `n` once there is enough nesting,
    with related answers and machines. -/
def Follows (m n : Machine) (x : Matching α) (y : Nat → Matching β)
    (Q : α → Machine → β → Machine → Prop) : Prop :=
  ∀ a m', x m = .ok a m' →
    ∃ b n' k, (∀ j, k ≤ j → y j n = .ok b n') ∧ n.log <:+ n'.log ∧ Q a m' b n'

namespace Follows

variable {x : Matching α} {y : Nat → Matching β} {Q R : α → Machine → β → Machine → Prop}

/-- The answers of two programs that follow each other may be told with less. -/
theorem imp (h : Follows m n x y R)
    (hQ : ∀ a m' b n', n.log <:+ n'.log → R a m' b n' → Q a m' b n') : Follows m n x y Q := by
  intro a m' hx
  obtain ⟨b, n', k, hy, hlog, hR⟩ := h a m' hx
  exact ⟨b, n', k, hy, hlog, hQ a m' b n' hlog hR⟩

/-- What is known of the second program alone. -/
theorem and_right {S : β → Machine → Prop} (h : Follows m n x y R)
    (hS : ∀ j b n', y j n = .ok b n' → S b n') :
    Follows m n x y fun a m' b n' => R a m' b n' ∧ S b n' := by
  intro a m' hx
  obtain ⟨b, n', k, hy, hlog, hR⟩ := h a m' hx
  exact ⟨b, n', k, hy, hlog, hR, hS k b n' (hy k le_rfl)⟩

theorem pure {a : α} {b : β} (h : Q a m b n) :
    Follows m n (Pure.pure a) (fun _ => Pure.pure b) Q := by
  intro a' m' hx
  cases hx
  exact ⟨b, n, 0, fun _ _ => rfl, List.suffix_rfl, h⟩

/-- A parse that ends with a fault is followed by anything. -/
theorem throw {e : Fault} : Follows m n (MonadExcept.throw e) y Q := by
  intro a m' hx
  cases hx

/-- Programs that follow each other part by part follow each other as a whole. -/
theorem bind {R : γ → Machine → δ → Machine → Prop} {x : Matching γ} {y : Nat → Matching δ}
    {f : γ → Matching α} {g : Nat → δ → Matching β} (hx : Follows m n x y R)
    (hf : ∀ a m' b n', n.log <:+ n'.log → R a m' b n' → Follows m' n' (f a) (fun j => g j b) Q) :
    Follows m n (x >>= f) (fun j => y j >>= g j) Q := by
  intro a m' hrun
  obtain ⟨c, m₁, hxm, hfm⟩ := bind_ok hrun
  obtain ⟨d, n₁, k, hy, hlog, hR⟩ := hx c m₁ hxm
  obtain ⟨b, n', k', hg, hlog', hQ⟩ := hf c m₁ d n₁ hlog hR a m' hfm
  refine ⟨b, n', max k k', ?_, hlog.trans hlog', hQ⟩
  intro j hj
  exact (bind_eq (hy j (le_trans (le_max_left k k') hj))).trans
    (hg j (le_trans (le_max_right k k') hj))

/-! ## Basic programs -/

/-- Reading the state goes on with the two states. -/
theorem state_bind {f : ParseState → Matching α} {g : Nat → ParseState → Matching β}
    (h : Follows m n (f m.state) (fun j => g j n.state) Q) :
    Follows m n (state >>= f) (fun j => state >>= g j) Q :=
  h

theorem onState_bind {u v : ParseState → ParseState} {f : Unit → Matching α}
    {g : Nat → Unit → Matching β}
    (h : Follows (m.withState (u m.state)) (n.withState (v n.state)) (f ()) (fun j => g j ()) Q) :
    Follows m n (onState u >>= f) (fun j => onState v >>= g j) Q :=
  h

theorem onTally_bind {u v : Tally → Tally} {f : Unit → Matching α} {g : Nat → Unit → Matching β}
    (h : Follows { m with tally := u m.tally } { n with tally := v n.tally } (f ())
      (fun j => g j ()) Q) :
    Follows m n (onTally u >>= f) (fun j => onTally v >>= g j) Q :=
  h

/-- A transition that the second machine allows if the first does. -/
theorem transition {allowed allowed' : ParseState → Bool} {u v : ParseState → ParseState}
    {Q : Unit → Machine → Unit → Machine → Prop}
    (h : allowed m.state = true → allowed' n.state = true ∧
      Q () (m.withState (u m.state)) () (n.withState (v n.state))) :
    Follows m n (Matching.transition allowed u) (fun _ => Matching.transition allowed' v) Q := by
  intro a m' hx
  rw [Matching.transition] at hx
  split at hx
  · rename_i hok
    cases hx
    obtain ⟨hok', hQ⟩ := h hok
    refine ⟨(), n.withState (v n.state), 0, ?_, List.suffix_rfl, hQ⟩
    intro j _
    exact if_pos hok'
  · cases hx

/-- A transition that the first parse is allowed must be one the second is allowed. -/
theorem transition_bind {allowed allowed' : ParseState → Bool} {u v : ParseState → ParseState}
    {f : Unit → Matching α} {g : Nat → Unit → Matching β}
    (hallowed : allowed m.state = true → allowed' n.state = true)
    (h : Follows (m.withState (u m.state)) (n.withState (v n.state)) (f ()) (fun j => g j ()) Q) :
    Follows m n (Matching.transition allowed u >>= f)
      (fun j => Matching.transition allowed' v >>= g j) Q := by
  refine bind (R := fun _ m' _ n' => m' = m.withState (u m.state) ∧ n' = n.withState (v n.state))
    (transition fun hok => ⟨hallowed hok, rfl, rfl⟩) ?_
  rintro ⟨⟩ _ ⟨⟩ _ - ⟨rfl, rfl⟩
  exact h

/-- A computation over grammar and text answers both parses alike. -/
theorem lift_bind {v : Except Fault γ} {f : γ → Matching α} {g : Nat → γ → Matching β}
    (h : ∀ c, v = .ok c → Follows m n (f c) (fun j => g j c) Q) :
    Follows m n (lift v >>= f) (fun j => lift v >>= g j) Q := by
  cases v with
  | ok c => exact h c rfl
  | error e =>
      intro a m' hx
      cases hx

/-- What is done on the way out is done in both parses. -/
theorem thenAlways {u v : ParseState → ParseState} (h : Follows m n x y R)
    (hQ : ∀ a m' b n', n.log <:+ n'.log → R a m' b n' →
      Q a (m'.withState (u m'.state)) b (n'.withState (v n'.state))) :
    Follows m n (Matching.thenAlways x u) (fun j => Matching.thenAlways (y j) v) Q := by
  intro a m' hrun
  obtain ⟨m₁, hxm, rfl⟩ := thenAlways_ok hrun
  obtain ⟨b, n₁, k, hy, hlog, hR⟩ := h a m₁ hxm
  refine ⟨b, n₁.withState (v n₁.state), k, ?_, hlog, hQ a m₁ b n₁ hlog hR⟩
  intro j hj
  exact thenAlways_eq (hy j hj)

end Follows

end Matching

/-! ## Couplings -/

/-- The state after an outcome was replayed. -/
def ParseState.replayed (s : ParseState) : Option Changes → ParseState
  | some c => s.merge c
  | none => s

/-- The outcome of a match that ended in `s`. -/
def outcomeOf (matched : Bool) (s : ParseState) : Option Changes :=
  if matched then some s.extract else none

theorem isSome_outcomeOf (matched : Bool) (s : ParseState) :
    (outcomeOf matched s).isSome = matched := by
  cases matched <;> rfl

def Grammar.isTerminal (g : Grammar) (id : ExprId) : Bool :=
  (g.shape? id).any Shape.isTerminal

/-- What becomes of the captures of a match that is handed to the memo table: a terminal has none,
    and those of any other expression are in the log. -/
def Handed (g : Grammar) (id : ExprId) (n : Machine) (matched : Bool) (n' : Machine) : Prop :=
  if g.isTerminal id then n'.state.captures = n.state.captures
  else .store (keyAt n.state id) (outcomeOf matched n'.state) ∈ n'.log

/-- The outcome is what a parse without a memo table finds from any state with the key.  If failures
    are reported, all that it records on the way are covered, that of the expression itself
    included. -/
structure Faithful (σ : Setting) (slotted : Bool) (reports : Prop) (f : Farthest)
    (key : MemoKey Fingerprint) (o : Option Changes) : Prop where
  finds : ∀ (s : ParseState) (n : Machine) (f' : Farthest), keyAt s key.expr = key →
    s.Settled → s.Alike slotted False n.state → n.memo = .empty → n.failures = .farthest f' →
    ∃ n' k, (∀ j, k ≤ j → invoke σ j key.expr n = .ok o.isSome n') ∧ n.log <:+ n'.log ∧
      (s.replayed o).Alike slotted False n'.state ∧ n'.memo = .empty ∧
      Handed σ.grammar key.expr n o.isSome n' ∧
      ∃ f₂, n'.failures = .farthest f₂ ∧ (reports → f.Repeats f' f₂)
  covers : reports → ∀ expr, σ.grammar.node? key.expr = some expr → o = none →
    key.print.recording = true → expr.flags.recordErrors = true → f.Covers key.expr key.position

/-- Recording a farther failure keeps the table faithful: what it vouches for only becomes easier to
    cover. -/
theorem Faithful.record {σ : Setting} {slotted : Bool} {reports : Prop} {f : Farthest}
    {key : MemoKey Fingerprint} {o : Option Changes} (h : Faithful σ slotted reports f key o)
    (id : ExprId) (position : Nat) : Faithful σ slotted reports (f.record id position) key o where
  finds := by
    intro s n f' hkey hs hst hmemo hf'
    obtain ⟨n', k, hrun, hlog, hst', hmemo', hhanded, f₂, hf₂, hrepeats⟩ :=
      h.finds s n f' hkey hs hst hmemo hf'
    exact ⟨n', k, hrun, hlog, hst', hmemo', hhanded, f₂, hf₂, fun hreports =>
      (hrepeats hreports).mono id position⟩
  covers := by
    intro hreports expr hexpr ho hrecording hflag
    exact (h.covers hreports expr hexpr ho hrecording hflag).record id position

/-- How a parse with a memo table is compared with one that keeps no outcome. -/
structure Coupling where
  grammar : Grammar
  text : Text
  depth : Nat
  /-- Both parses have the same slots; otherwise the second has none. -/
  slotted : Bool
  /-- Whether failures are compared. -/
  reports : Prop
  /-- Relates the failures recorded by the two parses. -/
  failures : Farthest → Farthest → Prop
  failures_record : ∀ {f f' id position}, failures f f' →
    failures (f.record id position) (f'.record id position)
  failures_again : ∀ {f f' id position}, failures f f' → f.Covers id position →
    failures f (f'.record id position)
  /-- Condition on the log of the second parse under which the two are exactly alike. -/
  exact : List LogEntry → Prop
  exact_of_suffix : ∀ {l l'}, l <:+ l' → exact l' → exact l
  slotted_of_exact : ∀ {l}, exact l → slotted = false
  /-- Expressions of which the first parse may keep outcomes. -/
  kept : ExprId → Prop
  /-- The outcomes that the second parse may hand to its memo table, at most one for each key that
      the first may keep. -/
  outcome : MemoKey Fingerprint → Option Changes → Prop
  outcome_of_mem : ∀ {l key o}, exact l → .store key o ∈ l → outcome key o
  outcome_unique : ∀ {key o o'}, kept key.expr → outcome key o → outcome key o' → o = o'

/-- A coupling that compares no captures. -/
def Coupling.loose (grammar : Grammar) (text : Text) (depth : Nat) (slotted : Bool) (reports : Prop)
    (failures : Farthest → Farthest → Prop)
    (hrecord : ∀ {f f' id position}, failures f f' →
      failures (f.record id position) (f'.record id position))
    (hagain : ∀ {f f' id position}, failures f f' → f.Covers id position →
      failures f (f'.record id position)) : Coupling where
  grammar := grammar
  text := text
  depth := depth
  slotted := slotted
  reports := reports
  failures := failures
  failures_record := hrecord
  failures_again := hagain
  exact := fun _ => False
  exact_of_suffix := fun _ h => h
  slotted_of_exact := fun h => h.elim
  kept := fun _ => True
  outcome := fun _ _ => False
  outcome_of_mem := fun h => h.elim
  outcome_unique := fun _ h => h.elim

namespace Coupling

variable (C : Coupling)

/-- What the parse without a memo table reads. -/
def setting : Setting :=
  { grammar := C.grammar, text := C.text, config := .unmemoized C.depth }

/-- A kept outcome has the captures that the second parse found. -/
def Recalls (key : MemoKey Fingerprint) (o : Option Changes) : Prop :=
  if C.grammar.isTerminal key.expr then ∀ c, o = some c → c.captures = []
  else C.kept key.expr ∧ C.outcome key.plain (o.map Changes.plain)

/-- The machines of the two parses at corresponding moments. -/
structure Coupled (m n : Machine) : Prop where
  state : m.state.Alike C.slotted (C.exact n.log) n.state
  empty : n.memo = .empty
  recorded : ∃ f f', (C.reports → m.failures = .farthest f ∧ C.failures f f') ∧
    n.failures = .farthest f' ∧
    ∀ key o, m.memo.Holds key o → Faithful C.setting C.slotted C.reports f key o
  recalls : C.exact n.log → ∀ key o, m.memo.Holds key o → C.Recalls key o

/-- Equal answers and coupled machines. -/
def Agree (a : Bool) (m : Machine) (b : Bool) (n : Machine) : Prop :=
  a = b ∧ C.Coupled m n

/-- The second caller follows the first on coupled machines. -/
def Simulates (P : ExprId → Prop) (call : Caller) (call' : Nat → Caller) : Prop :=
  ∀ id m n, P id → C.Coupled m n → Matching.Follows m n (call id) (fun j => call' j id) C.Agree

variable {C} {m n : Machine}

/-- Coupled machines stay coupled when their states change alike. -/
theorem Coupled.withState (h : C.Coupled m n) {s t : ParseState}
    (hst : s.Alike C.slotted (C.exact n.log) t) : C.Coupled (m.withState s) (n.withState t) :=
  ⟨hst, h.empty, h.recorded, h.recalls⟩

/-- States that were alike earlier still are. -/
theorem alike_later {s t : ParseState} {l l' : List LogEntry} (h : s.Alike C.slotted (C.exact l) t)
    (hlog : l <:+ l') : s.Alike C.slotted (C.exact l') t :=
  h.mono (C.exact_of_suffix hlog)

/-- The second parse has settled slots, which some expressions leave as they are. -/
structure Rests (C : Coupling) (call' : Nat → Caller) (slots : List Slot)
    (operands : List ExprId) : Prop where
  settled : Slots.Settled slots
  still : C.slotted = true → ∀ i ∈ operands, ∀ m n, C.Coupled m n → n.state.slots = slots →
    ∀ j b n', call' j i n = .ok b n' → n'.state.slots = slots

/-- An operand matched while slots rest. -/
theorem Simulates.resting {P : ExprId → Prop} {call : Caller} {call' : Nat → Caller}
    {slots : List Slot} {operands : List ExprId} {i : ExprId} (hcall : C.Simulates P call call')
    (hrests : C.Rests call' slots operands) (hi : i ∈ operands) (hP : P i) (h : C.Coupled m n)
    (hslots : n.state.slots = slots) :
    Matching.Follows m n (call i) (fun j => call' j i) fun a m' b n' =>
      C.Agree a m' b n' ∧ n'.state.slots = slots := by
  cases hslotted : C.slotted with
  | true => exact (hcall i m n hP h).and_right (hrests.still hslotted i hi m n h hslots)
  | false =>
      -- without slots there is nothing to change
      have hnone : ∀ {m n}, C.Coupled m n → n.state.slots = [] := by
        intro m n h
        have halike := h.state.slots
        rw [hslotted] at halike
        exact halike
      refine (hcall i m n hP h).imp fun a m' b n' _ hagree => ⟨hagree, ?_⟩
      rw [hnone hagree.2, ← hslots, hnone h]

end Coupling

end Packrat
