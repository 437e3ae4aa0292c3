import Packrat.Engine.Machine

/-! # Machines and programs in lockstep

    Two grammars are matched side by side, expression by expression.  What the two machines have in
    common is told by a `Lockstep`: which expressions are matched and what they are called in the
    second grammar, and how seeds, floors, kept outcomes, failures, logs and faults correspond.  All
    other things are EQUAL.  It carries the proofs that seeds, floors and failures still correspond
    after each change that a match makes to them.

    Two programs keep in STEP if from machines that correspond they end alike: with values that are
    related or with faults that correspond, and on machines that correspond again (`InStep`).  That
    is kept by the basic programs and by the ways to put programs together. -/

namespace Packrat

/-- The key of a seed, with another name for the boundary. -/
def SeedKey.rename (image : ExprId → ExprId) (k : SeedKey) : SeedKey :=
  { k with expr := image k.expr }

/-- How one grammar is matched next to another. -/
structure Lockstep where
  /-- The expressions that are matched. -/
  part : ExprId → Prop
  /-- What they are called in the second grammar. -/
  image : ExprId → ExprId
  seeds : Seeds ExactDigest → Seeds ExactDigest → Prop
  floors : Floors → Floors → Prop
  memo : Table Fingerprint (Option Changes) → Table Fingerprint (Option Changes) → Prop
  failures : Failures → Failures → Prop
  log : List LogEntry → List LogEntry → Prop
  fault : Fault → Fault → Prop
  -- seeds are asked and changed alike
  get? {a b : Seeds ExactDigest} {k : SeedKey} : seeds a b → part k.expr →
    b.get? (k.rename image) = a.get? k
  isBlocked {a b : Seeds ExactDigest} {id : ExprId} : seeds a b → part id →
    b.isBlocked (image id) = a.isBlocked id
  insert {a b : Seeds ExactDigest} {k : SeedKey} (seed : Option Changes) : seeds a b →
    part k.expr → seeds (a.insert k seed) (b.insert (k.rename image) seed)
  remove {a b : Seeds ExactDigest} {k : SeedKey} : seeds a b → part k.expr →
    seeds (a.remove k) (b.remove (k.rename image))
  setBlocked {a b : Seeds ExactDigest} {id : ExprId} (blocked : Bool) : seeds a b → part id →
    seeds (a.setBlocked id blocked) (b.setBlocked (image id) blocked)
  unblockAll {a b : Seeds ExactDigest} : seeds a b → seeds a.unblockAll b.unblockAll
  restoreBlocked {a b a' b' : Seeds ExactDigest} : seeds a b → seeds a' b' →
    seeds (a.restoreBlocked a'.blocked) (b.restoreBlocked b'.blocked)
  -- what was set for a cluster is put back
  reset {f f' h h' : Floors} {id : ExprId} : floors f f' → floors h h' → part id →
    floors (h.reset id (f.explicit? id)) (h'.reset (image id) (f'.explicit? (image id)))
  -- failures are recorded alike
  record {f f' : Failures} {id : ExprId} (position : Nat) : failures f f' → part id →
    failures (f.record id position) (f'.record (image id) position)
  recordLog {l l' : List LogEntry} {id : ExprId} (position : Nat) : log l l' → part id →
    log (.failure id position :: l) (.failure (image id) position :: l')
  sameFault (e : Fault) : fault e e

namespace Lockstep

open Matching

/-- How grammars are matched that call all expressions the same, if floors, memo tables, logs and
    faults are all that may differ. -/
def ofFloors (part : ExprId → Prop) (floors : Floors → Floors → Prop)
    (memo : Table Fingerprint (Option Changes) → Table Fingerprint (Option Changes) → Prop)
    (log : List LogEntry → List LogEntry → Prop) (fault : Fault → Fault → Prop)
    (reset : ∀ {f f' h h' : Floors} {id : ExprId}, floors f f' → floors h h' → part id →
      floors (h.reset id (f.explicit? id)) (h'.reset id (f'.explicit? id)))
    (recordLog : ∀ {l l' : List LogEntry} (entry : LogEntry), log l l' →
      log (entry :: l) (entry :: l'))
    (sameFault : ∀ e, fault e e) : Lockstep where
  part := part
  image id := id
  seeds := Eq
  floors := floors
  memo := memo
  failures := Eq
  log := log
  fault := fault
  get? := by
    rintro a _ k rfl -
    rfl
  isBlocked := by
    rintro a _ id rfl -
    rfl
  insert := by
    rintro a _ k seed rfl -
    rfl
  remove := by
    rintro a _ k rfl -
    rfl
  setBlocked := by
    rintro a _ id blocked rfl -
    rfl
  unblockAll := by
    rintro a _ rfl
    rfl
  restoreBlocked := by
    rintro a _ a' _ rfl rfl
    rfl
  reset := reset
  record := by
    rintro f _ id position rfl -
    rfl
  recordLog position h _ := recordLog _ h
  sameFault := sameFault

variable {L : Lockstep}

/-! ## Machines -/

/-- The same state, but for seeds and floors, which correspond. -/
inductive State (L : Lockstep) (s : ParseState) : ParseState → Prop where
  | intro {seeds : Seeds ExactDigest} {floors : Floors} (hseeds : L.seeds s.seeds seeds)
      (hfloors : L.floors s.floors floors) : State L s { s with seeds, floors }

namespace State

variable {s s' : ParseState}

/-- What does not depend on seeds and floors is equal. -/
theorem reads {β : Type} (h : L.State s s') {f : ParseState → β}
    (hf : ∀ s seeds floors, f { s with seeds, floors } = f s) : f s' = f s := by
  obtain ⟨-, -⟩ := h
  exact hf s _ _

/-- A change that neither looks at seeds and floors nor touches them. -/
theorem frame (h : L.State s s') {u : ParseState → ParseState}
    (hu : ∀ s seeds floors, u { s with seeds, floors } = { u s with seeds, floors }) :
    L.State (u s) (u s') := by
  cases h with
  | @intro seeds floors hseeds hfloors =>
      have hself : ∀ {β : Type} (f : ParseState → β),
          f (u s) = f { u s with seeds := s.seeds, floors := s.floors } :=
        fun f => congrArg f (hu s s.seeds s.floors)
      have hseeds' : L.seeds (u s).seeds seeds := (hself ParseState.seeds).symm ▸ hseeds
      have hfloors' : L.floors (u s).floors floors := (hself ParseState.floors).symm ▸ hfloors
      exact (hu s seeds floors).symm ▸ .intro hseeds' hfloors'

/-- The seeds are changed alike. -/
theorem withSeeds (h : L.State s s') {u u' : Seeds ExactDigest → Seeds ExactDigest}
    (hu : ∀ a b, L.seeds a b → L.seeds (u a) (u' b)) :
    L.State { s with seeds := u s.seeds } { s' with seeds := u' s'.seeds } := by
  obtain ⟨hseeds, hfloors⟩ := h
  exact .intro (s := { s with seeds := u s.seeds }) (hu _ _ hseeds) hfloors

/-- The floors are changed alike. -/
theorem withFloors (h : L.State s s') {u u' : Floors → Floors}
    (hu : ∀ f f', L.floors f f' → L.floors (u f) (u' f')) :
    L.State { s with floors := u s.floors } { s' with floors := u' s'.floors } := by
  obtain ⟨hseeds, hfloors⟩ := h
  exact .intro (s := { s with floors := u s.floors }) hseeds (hu _ _ hfloors)

end State

/-- Everything on the two machines corresponds, and the counters are equal. -/
structure Machines (L : Lockstep) (m m' : Machine) : Prop where
  state : L.State m.state m'.state
  memo : L.memo m.memo m'.memo
  failures : L.failures m.failures m'.failures
  tally : m'.tally = m.tally
  log : L.log m.log m'.log

/-! ## Programs -/

variable {α β γ δ : Type} {Q : α → β → Prop} {R : γ → δ → Prop}

/-- The same answer, or faults that correspond. -/
inductive Answers (L : Lockstep) : Except Fault α → Except Fault α → Prop where
  | ok (a : α) : Answers L (.ok a) (.ok a)
  | error {e e' : Fault} : L.fault e e' → Answers L (.error e) (.error e')

/-- A computation that does not depend on ids answers both sides alike. -/
theorem answers_refl (v : Except Fault α) : L.Answers v v := by
  cases v with
  | ok a => exact .ok a
  | error e => exact .error (L.sameFault e)

/-- Related values or faults that correspond, on machines that correspond. -/
inductive Ends (L : Lockstep) (Q : α → β → Prop) :
    EStateM.Result Fault Machine α → EStateM.Result Fault Machine β → Prop where
  | ok {a : α} {b : β} {m m' : Machine} (hvalue : Q a b) (hmachine : L.Machines m m') :
      Ends L Q (.ok a m) (.ok b m')
  | error {e e' : Fault} {m m' : Machine} (hfault : L.fault e e') (hmachine : L.Machines m m') :
      Ends L Q (.error e m) (.error e' m')

/-- From machines that correspond the two programs end alike. -/
def InStep (L : Lockstep) (Q : α → β → Prop) (x : Matching α) (y : Matching β) : Prop :=
  ∀ m m', L.Machines m m' → L.Ends Q (x m) (y m')

/-- Nothing is asked of the values. -/
abbrev Anything (_ : α) (_ : β) : Prop := True

namespace InStep

theorem pure {a : α} {b : β} (h : Q a b) : L.InStep Q (Pure.pure a) (Pure.pure b) :=
  fun _ _ hm => .ok h hm

theorem throw (e : Fault) : L.InStep Q (throw e) (MonadExcept.throw e) :=
  fun _ _ hm => .error (L.sameFault e) hm

/-- Programs that are in step part by part are in step as a whole. -/
theorem bind {x : Matching γ} {y : Matching δ} {f : γ → Matching α} {g : δ → Matching β}
    (hxy : L.InStep R x y) (hfg : ∀ c d, R c d → L.InStep Q (f c) (g d)) :
    L.InStep Q (x >>= f) (y >>= g) := by
  intro m m' hm
  have h := hxy m m' hm
  simp only [Bind.bind, EStateM.bind]
  generalize x m = r at h ⊢
  generalize y m' = r' at h ⊢
  cases h with
  | ok hvalue hmachine => exact hfg _ _ hvalue _ _ hmachine
  | error hfault hmachine => exact .error hfault hmachine

theorem value (a : α) : L.InStep Eq (Pure.pure a) (Pure.pure a) :=
  pure rfl

/-- A program that goes on with the value that both return. -/
theorem bindEq {x y : Matching γ} {f : γ → Matching α} {g : γ → Matching β}
    (hxy : L.InStep Eq x y) (hfg : ∀ c, L.InStep Q (f c) (g c)) : L.InStep Q (x >>= f) (y >>= g) :=
  hxy.bind fun c _ hcd => hcd ▸ hfg c

/-- The first program returns nothing, and the second goes on from where it ends. -/
theorem andThen {x y : Matching Unit} {f : Unit → Matching α} {g : Unit → Matching β}
    (hxy : L.InStep Anything x y) (hfg : L.InStep Q (f ()) (g ())) :
    L.InStep Q (x >>= f) (y >>= g) :=
  hxy.bind fun _ _ _ => hfg

/-- Machines in step are read as they are. -/
theorem machine : L.InStep L.Machines get get :=
  fun _ _ hm => .ok hm hm

theorem state : L.InStep L.State state Matching.state :=
  fun _ _ hm => .ok hm.state hm

/-- A change of states that keeps them in step may be made on both sides. -/
theorem onState {u u' : ParseState → ParseState} (hu : ∀ s s', L.State s s' → L.State (u s) (u' s')) :
    L.InStep Anything (onState u) (Matching.onState u') :=
  fun _ _ hm => .ok trivial { hm with state := hu _ _ hm.state }

/-- A change that neither looks at seeds and floors nor touches them. -/
theorem frame {u : ParseState → ParseState}
    (hu : ∀ s seeds floors, u { s with seeds, floors } = { u s with seeds, floors }) :
    L.InStep Anything (Matching.onState u) (Matching.onState u) :=
  onState fun _ _ hs => hs.frame hu

/-- A change of the seeds alone needs only the seeds to stay in step. -/
theorem onSeeds {u u' : Seeds ExactDigest → Seeds ExactDigest}
    (hu : ∀ a b, L.seeds a b → L.seeds (u a) (u' b)) :
    L.InStep Anything (onSeeds u) (Matching.onSeeds u') :=
  onState fun _ _ hs => hs.withSeeds hu

theorem onTally (u : Tally → Tally) : L.InStep Anything (onTally u) (Matching.onTally u) :=
  fun _ _ hm => .ok trivial { hm with tally := congrArg u hm.tally }

/-- Entries of the log are related by the log, as a whole. -/
theorem log {entry entry' : LogEntry}
    (h : ∀ l l', L.log l l' → L.log (entry :: l) (entry' :: l')) :
    L.InStep Anything (Matching.log entry) (Matching.log entry') :=
  fun _ _ hm => .ok trivial { hm with log := h _ _ hm.log }

theorem lift {v v' : Except Fault α} (h : L.Answers v v') :
    L.InStep Eq (lift v) (Matching.lift v') := by
  intro m m' hm
  cases h with
  | ok a => exact .ok rfl hm
  | error hfault => exact .error hfault hm

/-- A transition that neither looks at seeds and floors nor touches them. -/
theorem transition {allowed : ParseState → Bool} {u : ParseState → ParseState}
    (hallowed : ∀ s seeds floors, allowed { s with seeds, floors } = allowed s)
    (hu : ∀ s seeds floors, u { s with seeds, floors } = { u s with seeds, floors }) :
    L.InStep Anything (transition allowed u) (Matching.transition allowed u) := by
  intro m m' hm
  have hmoved : L.Machines { m with state := u m.state } { m' with state := u m'.state } :=
    { hm with state := hm.state.frame hu }
  simp only [Matching.transition, hm.state.reads hallowed]
  split
  · exact .ok trivial hmoved
  · exact .error (L.sameFault _) hmoved

/-- A commit faults on both sides or on neither: the slots are the same. -/
theorem commit : L.InStep Anything commit Matching.commit :=
  transition (fun _ _ _ => rfl) fun _ _ _ => rfl

/-- Marks hold positions and slots, which are the same on both sides. -/
theorem uncommit (mark : Snapshot) : L.InStep Anything (uncommit mark) (Matching.uncommit mark) :=
  transition (fun _ _ _ => rfl) fun _ _ _ => rfl

theorem merge (changes : Changes) : L.InStep Anything (merge changes) (Matching.merge changes) :=
  transition (fun _ _ _ => rfl) fun _ _ _ => rfl

theorem restore (mark : Snapshot) :
    L.InStep Anything (Matching.onState (·.restore mark)) (Matching.onState (·.restore mark)) :=
  frame fun _ _ _ => rfl

theorem discard : L.InStep Anything (Matching.onState (·.discard)) (Matching.onState (·.discard)) :=
  frame fun _ _ _ => rfl

theorem moveTo (stop : Nat) :
    L.InStep Anything (Matching.onState (·.moveTo stop)) (Matching.onState (·.moveTo stop)) :=
  frame fun _ _ _ => rfl

/-- What is done on the way out keeps machines in step. -/
theorem thenAlways {x : Matching α} {y : Matching β} (hxy : L.InStep Q x y)
    {u u' : ParseState → ParseState} (hu : ∀ s s', L.State s s' → L.State (u s) (u' s')) :
    L.InStep Q (thenAlways x u) (Matching.thenAlways y u') := by
  intro m m' hm
  have h := hxy m m' hm
  simp only [Matching.thenAlways]
  generalize x m = r at h ⊢
  generalize y m' = r' at h ⊢
  cases h with
  | ok hvalue hmachine => exact .ok hvalue { hmachine with state := hu _ _ hmachine.state }
  | error hfault hmachine => exact .error hfault { hmachine with state := hu _ _ hmachine.state }

end InStep

end Lockstep

end Packrat
