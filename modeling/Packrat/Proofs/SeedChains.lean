import Mathlib
import Packrat.Proofs.Protocol.Bounds
import Packrat.Proofs.Transparency.Outcomes

/-! # Chains of seeds

    A boundary starts from a failing seed.  Whenever its operand gets farther than the seed, what the
    operand did is the next seed; the first run that fails or gets no farther is the last.  What the
    boundary comes to is its last seed, replayed.

    The chain is told as it happens, run after run and machine after machine (`Round`, `Rounds`,
    `Levels`): before every run the state is the one where the boundary began, but for the seed.
    That this is what the loops do takes two facts.  Runs keep to the contract of a match, so
    snapshots lead back.  And they end in the text, so every seed of a chain leaves less room for the
    next (`room_lt`), and the bound on the number of runs is never what ends a loop. -/

namespace Packrat

open Matching Engine

/-- The state with another seed at the key. -/
def ParseState.seeded (s : ParseState) (key : SeedKey) (seed : Option Changes) : ParseState :=
  { s with seeds := s.seeds.insert key seed }

/-- The state with another floor of a cluster. -/
def ParseState.atLevel (s : ParseState) (id : ExprId) (level : Precedence) : ParseState :=
  { s with floors := s.floors.set id level }

/-- The state in which a left-recursive boundary runs its operand first: the seed fails, and the
    boundary is blocked if it is left-associative. -/
def ParseState.entered (s : ParseState) (key : SeedKey) (assoc : Bool) : ParseState :=
  { s with
    seeds := if assoc then (s.seeds.insert key none).setBlocked key.expr true
      else s.seeds.insert key none }

/-- The machine once a seed is installed, which is counted. -/
def Machine.accept (m : Machine) (s : ParseState) : Machine :=
  { m with
    state := s
    tally := { m.tally with seedIterations := m.tally.seedIterations + 1 } }

namespace Growth

/-! ## Chains -/

section Chains

variable (call : Caller) (s : ParseState) (key : SeedKey)

/-- Alternatives are run one after the other, each from the state `s` with the seed `best`, until one
    gets farther than the seed; what it did becomes the seed. -/
inductive Round (best : Option Changes) :
    List ExprId → Option Changes → Machine → Machine → Prop where
  | exhausted {m : Machine} : m.state = s.seeded key best → Round best [] none m m
  | failed {i : ExprId} {rest : List ExprId} {o : Option Changes} {m m₁ m' : Machine} :
      m.state = s.seeded key best → call i m = .ok false m₁ → Round best rest o m₁ m' →
      Round best (i :: rest) o m m'
  | stalled {i : ExprId} {rest : List ExprId} {o : Option Changes} {m m₁ m' : Machine} :
      m.state = s.seeded key best → call i m = .ok true m₁ →
      advances m₁.state.stop best = false →
      Round best rest o (m₁.withState (s.seeded key best)) m' → Round best (i :: rest) o m m'
  | accepted {i : ExprId} {m m₁ : Machine} (rest : List ExprId) :
      m.state = s.seeded key best → call i m = .ok true m₁ →
      advances m₁.state.stop best = true →
      Round best (i :: rest) (some m₁.state.extract) m
        (m₁.accept (s.seeded key (some m₁.state.extract)))

/-- Rounds follow each other, from seed to seed, until one accepts none; without growth one that
    accepts is the last. -/
inductive Rounds (alternatives : List ExprId) (grows : Bool) :
    Option Changes → List Changes → Machine → Machine → Prop where
  | ended {best : Option Changes} {m m' : Machine} :
      Round call s key best alternatives none m m' → Rounds alternatives grows best [] m m'
  | once {best : Option Changes} {c : Changes} {m m' : Machine} : grows = false →
      Round call s key best alternatives (some c) m m' → Rounds alternatives grows best [c] m m'
  | grown {best : Option Changes} {c : Changes} {more : List Changes} {m m₁ m' : Machine} :
      grows = true → Round call s key best alternatives (some c) m m₁ →
      Rounds alternatives grows (some c) more m₁ m' →
      Rounds alternatives grows best (c :: more) m m'

/-- Groups run in order, each with its floor, and hand the last seed on. -/
inductive Levels : List (Group ExprId) → Option Changes → List Changes → Machine → Machine → Prop where
  | done (best : Option Changes) (m : Machine) : Levels [] best [] m m
  | descend {group : Group ExprId} {rest : List (Group ExprId)} {best : Option Changes}
      {accepted more : List Changes} {m m₁ m' : Machine} :
      Rounds call (s.atLevel key.expr (levelFloor group)) key group.alternatives group.kind.grows best
        accepted (m.withState ((s.atLevel key.expr (levelFloor group)).seeded key best)) m₁ →
      Levels rest (accepted.getLast?.or best) more m₁ m' →
      Levels (group :: rest) best (accepted ++ more) m m'

/-- The operand of a left-recursive boundary is run time and again, from the state `s` with the seed
    `best` first and then with what the last run did, until a run fails or gets no farther than its
    seed.  The number counts the runs. -/
inductive Runs (operand : ExprId) :
    Nat → Option Changes → List Changes → Machine → Machine → Prop where
  | failed {best : Option Changes} {m m' : Machine} : m.state = s.seeded key best →
      call operand m = .ok false m' → Runs operand 1 best [] m m'
  | stalled {best : Option Changes} {m m₁ : Machine} : m.state = s.seeded key best →
      call operand m = .ok true m₁ → advances m₁.state.stop best = false →
      Runs operand 1 best [] m (m₁.withState (s.seeded key best))
  | grown {best : Option Changes} {runs : Nat} {more : List Changes} {m m₁ m' : Machine} :
      m.state = s.seeded key best → call operand m = .ok true m₁ →
      advances m₁.state.stop best = true →
      Runs operand runs (some m₁.state.extract) more
        (m₁.accept (s.seeded key (some m₁.state.extract))) m' →
      Runs operand (runs + 1) best (m₁.state.extract :: more) m m'

end Chains

/-- The last seed of a chain is the last one of the rest, or the first. -/
theorem handed_on (c : Changes) (more : List Changes) (best : Option Changes) :
    (c :: more).getLast?.or best = more.getLast?.or (some c) := by
  rw [List.getLast?_cons]
  cases more.getLast? <;> rfl

/-- Seeds that reach farther and farther, from `first` on and not beyond `last`. -/
def Ascends (first last : Nat) : Option Changes → List Changes → Prop
  | _, [] => True
  | best, c :: more =>
      advances c.stop best = true ∧ first ≤ c.stop ∧ c.stop ≤ last ∧ Ascends first last (some c) more

namespace Ascends

variable {first last : Nat} {best : Option Changes} {accepted more : List Changes}

theorem append (h : Ascends first last best accepted)
    (hmore : Ascends first last (accepted.getLast?.or best) more) :
    Ascends first last best (accepted ++ more) := by
  induction accepted generalizing best with
  | nil => exact hmore
  | cons c rest ih =>
      obtain ⟨hadvances, hfirst, hlast, hrest⟩ := h
      exact ⟨hadvances, hfirst, hlast, ih hrest (handed_on c rest best ▸ hmore)⟩

theorem within (h : Ascends first last best accepted) :
    ∀ c ∈ accepted, first ≤ c.stop ∧ c.stop ≤ last := by
  induction accepted generalizing best with
  | nil => simp
  | cons c rest ih => exact List.forall_mem_cons.mpr ⟨⟨h.2.1, h.2.2.1⟩, ih h.2.2.2⟩

theorem pairwise (h : Ascends first last best accepted) :
    (accepted.map Changes.stop).Pairwise (· < ·) ∧
      ∀ seed, best = some seed → ∀ c ∈ accepted, seed.stop < c.stop := by
  induction accepted generalizing best with
  | nil => simp
  | cons c rest ih =>
      obtain ⟨hadvances, -, -, hrest⟩ := h
      obtain ⟨hpairwise, hbeyond⟩ := ih hrest
      refine ⟨List.pairwise_cons.mpr ⟨?_, hpairwise⟩, ?_⟩
      · exact List.forall_mem_map.mpr (hbeyond c rfl)
      · rintro seed rfl
        have hlt : seed.stop < c.stop := by simpa [advances] using hadvances
        exact List.forall_mem_cons.mpr ⟨hlt, fun d hd => hlt.trans (hbeyond c rfl d hd)⟩

/-- There are no more seeds than there is room for. -/
theorem length_le (h : Ascends first last best accepted) :
    accepted.length ≤ room first last best := by
  induction accepted generalizing best with
  | nil => exact Nat.zero_le _
  | cons c rest ih =>
      obtain ⟨hadvances, hfirst, hlast, hrest⟩ := h
      have hroom := room_lt hfirst hlast hadvances
      have hle := ih hrest
      rw [List.length_cons]
      omega

end Ascends

/-! ## Loops run chains -/

variable {g : Grammar} {text : Text} {more : ExprId → Nat → Option Nat → Prop}
variable {kept : MemoKey Fingerprint → Option Changes → Prop} {call : Caller}
variable {s : ParseState} {c d : Scope} {key : SeedKey} {best : Option Changes} {m m' : Machine}
variable {b : Bool}

theorem replay_ok {seed : Option Changes} (h : replay seed m = .ok b m') :
    b = seed.isSome ∧ m'.state = m.state.replayed seed ∧
      ∀ changes, seed = some changes → m.state.canMerge changes = true := by
  cases seed with
  | none =>
      cases h
      exact ⟨rfl, rfl, nofun⟩
  | some changes =>
      obtain ⟨⟨⟩, m₁, hmerge, hpure⟩ := bind_ok h
      rw [merge, Matching.transition] at hmerge
      split at hmerge
      · rename_i hfit
        cases hmerge
        cases hpure
        refine ⟨rfl, rfl, ?_⟩
        rintro _ ⟨⟩
        exact hfit
      · cases hmerge

/-- The slots of a seed are what a run added to those of `s`. -/
def Extracted (s : ParseState) (seed : Option Changes) : Prop :=
  ∀ changes, seed = some changes →
    ∃ slots, List.Forall₂ Slot.Kept s.slots slots ∧ changes.slots = slots.map Slot.extract

/-- What replaying a seed did is the seed again. -/
theorem Extracted.outcomeOf_replayed {seed : Option Changes} (h : Extracted s seed) (hs : s.Settled)
    (hfit : ∀ changes, seed = some changes → s.canMerge changes = true) :
    outcomeOf seed.isSome (s.replayed seed) = seed := by
  cases seed with
  | none => rfl
  | some changes =>
      obtain ⟨slots, hkept, hslots⟩ := h changes rfl
      have hmerged : Slots.deltasFit s.slots changes.slots = true := hfit changes rfl
      rw [hslots] at hmerged
      have hsame : (Slots.merge s.slots changes.slots).map Slot.extract = changes.slots := by
        rw [hslots]
        exact Slots.extract_merge hkept hs.slots hmerged
      have hcaptures : (s.captures.merge changes.captures).extract = changes.captures := by
        simp [CaptureBuffer.merge, CaptureBuffer.extract, hs.captures, CaptureBuffer.length]
      show some (s.merge changes).extract = some changes
      rw [ParseState.extract, ParseState.merge]
      dsimp only
      rw [hsame, hcaptures]

/-- One round.  An operand keeps to the contract, so it can be undone. -/
theorem climbOnce_round (hcall : Obeys g call call) (hs : s.Settled) (hc : s.scope.Canonical)
    (alternatives : List ExprId) (hidle : PredicatesIdle g m.memo)
    (hstate : m.state = s.seeded key best) {o : Option Changes}
    (h : climbOnce call key s.snapshot best alternatives m = .ok o m') :
    Round call s key best alternatives o m m' ∧ Extracted s o := by
  induction alternatives generalizing m with
  | nil =>
      cases h
      exact ⟨.exhausted hstate, nofun⟩
  | cons i rest ih =>
      obtain ⟨matched, m₁, hrun, h⟩ := bind_ok h
      have hready : Ready g m := by
        refine ⟨?_, ?_, hidle⟩
        · rw [hstate]
          exact ⟨hs.positions, hs.captures, hs.slots⟩
        · rw [hstate]
          exact hc.seeded key best
      obtain ⟨hidle₁, hanswer⟩ := (hcall i m hready).answer hrun
      cases matched with
      | false =>
          have heq : m₁.state = m.state := hanswer
          obtain ⟨hround, hextracted⟩ := ih hidle₁ (heq.trans hstate) h
          exact ⟨.failed hstate hrun hround, hextracted⟩
      | true =>
          have hkept : m.state.Kept m₁.state := hanswer
          have hback : m₁.state.restore s.snapshot = s.seeded key best := by
            have hsnap : m.state.snapshot = s.snapshot := by
              rw [hstate]
              rfl
            rw [← hsnap, hkept.grown.restore, hstate]
          obtain ⟨t, m₂, hget, h⟩ := bind_ok h
          cases hget
          cases hfar : advances m₁.state.stop best with
          | true =>
              rw [if_pos hfar] at h
              have haccepted : m' = m₁.accept (s.seeded key (some m₁.state.extract)) ∧
                  o = some m₁.state.extract := by
                let reseed : ParseState → ParseState := (·.seeded key (some m₁.state.extract))
                have hagain : reseed (s.seeded key best) = reseed s :=
                  congrArg s.withScope (Scope.seeded_seeded hc best (some m₁.state.extract))
                cases h
                exact ⟨congrArg m₁.accept ((congrArg reseed hback).trans hagain), rfl⟩
              obtain ⟨rfl, rfl⟩ := haccepted
              refine ⟨.accepted rest hstate hrun hfar, ?_⟩
              rintro _ ⟨⟩
              have hslots : m.state.slots = s.slots := by
                rw [hstate]
                rfl
              exact ⟨m₁.state.slots, hslots ▸ hkept.slots, rfl⟩
          | false =>
              rw [if_neg (by simp [hfar])] at h
              obtain ⟨⟨⟩, m₂, hrestore, h⟩ := bind_ok h
              cases hrestore
              have hrest : climbOnce call key s.snapshot best rest
                  (m₁.withState (s.seeded key best)) = .ok o m' := by
                rw [← hback]
                exact h
              obtain ⟨hround, hextracted⟩ := ih (m := m₁.withState (s.seeded key best)) hidle₁ rfl hrest
              exact ⟨.stalled hstate hrun hfar hround, hextracted⟩

/-- Rounds, until none accepts a seed.  There is a round for every place that a seed can reach, so
    the loop ends by itself. -/
theorem climb_rounds (hcall : (Protocol.within g text more kept).Serves (fun c _ p => Inside text c p)
      call call) (group : Group ExprId) (rounds : Nat) (hs : s.Settled) (hc : c.Canonical)
    (hkey : key.position = s.stop) (hinside : Inside text c s.stop)
    (hbest : Bounded text s.stop best) (hextracted : Extracted s best)
    (hstands : Stands (.within g text more kept) s (c.seeded key best) m)
    (henough : room s.stop text.length best < rounds) {o : Option Changes}
    (h : climb call key group s.snapshot rounds best m = .ok o m') :
    ∃ accepted, o = accepted.getLast?.or best ∧
      Rounds call (s.withScope c) key group.alternatives group.kind.grows best accepted m m' ∧
      Ascends s.stop text.length best accepted ∧ Bounded text s.stop o ∧ Extracted s o ∧
      Stands (.within g text more kept) s (c.seeded key o) m' := by
  induction rounds generalizing m best with
  | zero => omega
  | succ rounds ih =>
      obtain ⟨grown, m₁, hround, h⟩ := bind_ok h
      obtain ⟨hchain, hextracted₁⟩ := climbOnce_round hcall.obeys (hs.withScope c) hc
        group.alternatives hstands.idle hstands.state hround
      have hseeded : Inside text (c.seeded key best) s.stop := by
        refine hinside.seeded _ (hkey ▸ hbest) fun k => ?_
        simp only [Scope.seeded, Seeds.get?_insert]
      obtain ⟨hclimbs, -, hstands₁⟩ := (climbOnce_told hcall group.alternatives
        (fun _ _ => hseeded) hs hc hstands).answer hround
      cases grown with
      | none =>
          cases h
          exact ⟨[], rfl, .ended hchain, trivial, hbest, hextracted, hstands₁⟩
      | some changes =>
          obtain ⟨⟨i, -, htell⟩, hadvances⟩ := hclimbs.surpasses
          have hwithin := Protocol.tell_within htell
          have hroom := room_lt hwithin.forward hwithin.stop hadvances
          have hbounded : Bounded text s.stop (some changes) := by
            rintro _ ⟨⟩
            exact hwithin
          cases hgrows : group.kind.grows with
          | false =>
              simp only [hgrows, Bool.false_eq_true, if_false] at h
              cases h
              exact ⟨[changes], rfl, .once rfl hchain,
                ⟨hadvances, hwithin.forward, hwithin.stop, trivial⟩, hbounded, hextracted₁, hstands₁⟩
          | true =>
              simp only [hgrows, if_true] at h
              obtain ⟨accepted, rfl, hrest, hascends, hbounded', hextracted', hstands'⟩ :=
                ih hbounded hextracted₁ hstands₁ (by omega) h
              rw [hgrows] at hrest
              exact ⟨changes :: accepted, (handed_on changes accepted best).symm,
                .grown rfl hchain hrest, ⟨hadvances, hwithin.forward, hwithin.stop, hascends⟩,
                hbounded', hextracted', hstands'⟩

/-- Rounds of a single alternative are runs of it. -/
theorem Rounds.runs {operand : ExprId} {accepted : List Changes}
    (h : Rounds call s key [operand] true best accepted m m') :
    Runs call s key operand (accepted.length + 1) best accepted m m' := by
  generalize hgrows : true = grows at h
  induction h with
  | ended hround =>
      cases hround with
      | failed hstate hrun hrest =>
          cases hrest
          exact .failed hstate hrun
      | stalled hstate hrun hfar hrest =>
          cases hrest
          exact .stalled hstate hrun hfar
  | once hstops => cases hgrows.trans hstops
  | grown _ hround _ ih =>
      cases hround with
      | failed _ _ hrest => cases hrest
      | stalled _ _ _ hrest => cases hrest
      | accepted _ hstate hrun hfar => exact .grown hstate hrun hfar ih

/-- A left-recursive boundary grows like a group of a single alternative. -/
theorem grow_eq_climb (call : Caller) (key : SeedKey) (operand : ExprId) (mark : Snapshot)
    (precedence : Precedence) (runs : Nat) (best : Option Changes) :
    grow call key operand mark runs best =
      climb call key ⟨precedence, .leftRecursive, [operand]⟩ mark runs best := by
  induction runs generalizing best with
  | zero => rfl
  | succ runs ih =>
      funext m
      simp only [grow, climb, climbOnce, bind, EStateM.bind]
      cases call operand m with
      | error e m₁ => rfl
      | ok matched m₁ =>
          cases matched with
          | false => rfl
          | true =>
              have hread : ∀ {β : Type} (f : ParseState → Matching β),
                  EStateM.bind state f m₁ = f m₁.state m₁ := fun _ => rfl
              cases hfar : advances m₁.state.stop best with
              | false =>
                  simp only [if_true, hread, hfar]
                  rfl
              | true =>
                  simp only [if_true, hread, hfar, ih]
                  rfl

/-- What a boundary comes to: its seeds reach farther and farther, and the last one is replayed. -/
structure Ends (text : Text) (s : ParseState) (accepted : List Changes) (matched : Bool)
    (t : ParseState) : Prop where
  increasing : (accepted.map Changes.stop).Pairwise (· < ·)
  within : ∀ c ∈ accepted, s.stop ≤ c.stop ∧ c.stop ≤ text.length
  few : accepted.length ≤ text.length - s.stop + 1
  matched_eq : matched = accepted.getLast?.isSome
  replayed : t = s.replayed accepted.getLast?

/-- What a boundary comes to that replays its last seed in the state where it began. -/
theorem Ascends.ends {accepted : List Changes} (h : Ascends s.stop text.length none accepted)
    (hextracted : Extracted s accepted.getLast?) (hs : s.Settled) (hstate : m.state = s)
    (hreplay : replay accepted.getLast? m = .ok b m') :
    Ends text s accepted b m'.state ∧ outcomeOf b m'.state = accepted.getLast? := by
  obtain ⟨hmatched, hreplayed, hfit⟩ := replay_ok hreplay
  rw [hstate] at hreplayed hfit
  refine ⟨⟨h.pairwise.1, h.within, h.length_le, hmatched, hreplayed⟩, ?_⟩
  rw [hmatched, hreplayed]
  exact hextracted.outcomeOf_replayed hs hfit

section Boundaries

variable (hcall : (Protocol.within g text more kept).Serves (fun c _ p => Inside text c p) call call)
include hcall

/-- A left-recursive boundary that grows runs a chain from a failing seed and replays the last
    seed. -/
theorem leftRecursive_chain {id operand : ExprId} {assoc : Bool} (hready : Ready g m)
    (hkeeps : (Protocol.within g text more kept).Keeps m)
    (hinside : Inside text m.state.scope m.state.stop)
    (hkey : key = { expr := id, position := m.state.stop })
    (hget : m.state.seeds.get? key = none) (hblocked : (assoc && m.state.seeds.isBlocked id) = false)
    (h : leftRecursive call text id operand assoc m = .ok b m') :
    ∃ accepted m₁, Runs call (m.state.entered key assoc) key operand (accepted.length + 1) none
        accepted (m.withState (m.state.entered key assoc)) m₁ ∧
      Ends text m.state accepted b m'.state ∧ outcomeOf b m'.state = accepted.getLast? := by
  have hcan : m.state.seeds.Canonical := hready.canonical.seeds
  have hid : key.expr = id := by rw [hkey]
  obtain ⟨s, m₀, hstate, h⟩ := bind_ok h
  cases hstate
  simp only [← hkey, hget, hblocked, Bool.false_eq_true, if_false] at h
  obtain ⟨⟨⟩, m₀, hseeds, h⟩ := bind_ok h
  cases hseeds
  obtain ⟨grown, m₁, hrun, h⟩ := bind_ok h
  obtain ⟨m₂, hgrow, rfl⟩ := thenAlways_ok hrun
  -- the scope of the boundary, where the key has a failing seed
  generalize hcdef : ({ m.state.scope with
    seeds := if assoc then (m.state.seeds.insert key none).setBlocked id true
      else m.state.seeds.insert key none } : Scope) = c
  have hentered : m.state.entered key assoc = m.state.withScope c := by
    rw [← hcdef, ← hid]
    rfl
  have hget?_c : ∀ k, c.seeds.get? k = if k = key then some none else m.state.seeds.get? k := by
    intro k
    rw [← hcdef]
    cases assoc <;> simp [Seeds.get?_setBlocked, Seeds.get?_insert]
  have hc : c.Canonical := by
    rw [← hcdef]
    refine ⟨?_, hready.canonical.floors⟩
    cases assoc with
    | true => exact (hcan.insert key none).setBlocked id true
    | false => exact hcan.insert key none
  have hstands : Stands (.within g text more kept) m.state (c.seeded key none)
      (m.withState (m.state.withScope c)) := by
    rw [Scope.seeded_self hc (by rw [hget?_c, if_pos rfl])]
    exact ⟨hready.memo, hkeeps.withState hkeeps.blank, rfl⟩
  have hclimb : climb call key ⟨0, .leftRecursive, [operand]⟩ m.state.snapshot
      (text.length - m.state.stop + 2) none (m.withState (m.state.withScope c)) = .ok grown m₂ := by
    rw [← grow_eq_climb, ← hcdef]
    exact hgrow
  obtain ⟨accepted, rfl, hrounds, hascends, -, hextracted, hstands'⟩ := climb_rounds hcall _ _
    hready.settled hc (by rw [hkey]) (hinside.seeded _ (hkey ▸ bounded_none text _) hget?_c)
    (bounded_none text _) nofun hstands (by simp only [room]; omega) hclimb
  rw [Option.or_none] at h hstands' hextracted
  -- the scope is put back
  have hback : ({ m₂.state with seeds :=
      (if assoc then m₂.state.seeds.setBlocked id false else m₂.state.seeds).remove key } : ParseState)
      = m.state := by
    have hscope : m₂.state.scope = c.seeded key accepted.getLast? := by
      rw [hstands'.state]
      rfl
    have hreseeded : Reseeded key c m₂.state.scope :=
      ⟨_, (Seeds.AgreeOff.refl hc.seeds).insert accepted.getLast?, hscope⟩
    rw [← hcdef] at hreseeded
    rw [leftRecursive_undo hready.canonical hget hblocked hreseeded, hstands'.state]
    rfl
  refine ⟨accepted, m₂, ?_, hascends.ends hextracted hready.settled hback h⟩
  rw [hentered]
  exact hrounds.runs

/-- Groups run in order. -/
theorem climbAll_levels (hs : s.Settled) (hc : c.Canonical) (hkey : key.position = s.stop)
    (hinside : Inside text c s.stop) (groups : List (Group ExprId))
    (hd : ∀ level, d.atLevel key.expr level = c.atLevel key.expr level)
    (hbest : Bounded text s.stop best) (hextracted : Extracted s best)
    (hstands : Stands (.within g text more kept) s (d.seeded key best) m) {o : Option Changes}
    (h : climbAll call text key groups best m = .ok o m') :
    ∃ accepted, o = accepted.getLast?.or best ∧
      Levels call (s.withScope c) key groups best accepted m m' ∧
      Ascends s.stop text.length best accepted ∧ Extracted s o := by
  induction groups generalizing m best d with
  | nil =>
      cases h
      exact ⟨[], rfl, .done _ _, trivial, hextracted⟩
  | cons group rest ih =>
      obtain ⟨⟨⟩, m₁, hfloor, h⟩ := bind_ok h
      cases hfloor
      obtain ⟨t, m₁, hget, h⟩ := bind_ok h
      cases hget
      obtain ⟨best', m₁, hclimb, h⟩ := bind_ok h
      have hstate : ({ m.state with floors := m.state.floors.set key.expr (levelFloor group) } :
          ParseState) = s.withScope ((c.atLevel key.expr (levelFloor group)).seeded key best) := by
        rw [← hd, hstands.state]
        rfl
      rw [hkey] at hclimb
      simp only [hstate] at hclimb
      have hroom : room s.stop text.length best < text.length - s.stop + 2 := by
        cases best with
        | none =>
            simp only [room]
            omega
        | some seed =>
            have hforward : s.stop ≤ seed.stop := (hbest seed rfl).forward
            simp only [room]
            omega
      have hstands₁ : Stands (.within g text more kept) s
          ((c.atLevel key.expr (levelFloor group)).seeded key best)
          (m.withState (s.withScope ((c.atLevel key.expr (levelFloor group)).seeded key best))) :=
        ⟨hstands.idle, hstands.keeps.withState (Or.inl trivial), rfl⟩
      obtain ⟨accepted, rfl, hrounds, hascends, hbest', hextracted₁, hstands'⟩ :=
        climb_rounds hcall group _ hs (hc.atLevel key.expr _) hkey
          (hinside.of_get?_eq fun _ => rfl) hbest hextracted hstands₁ hroom hclimb
      obtain ⟨accepted', rfl, hlevels, hascends', hextracted'⟩ := ih
        (fun level => Scope.atLevel_atLevel hc key.expr _ level) hbest' hextracted₁ hstands' h
      refine ⟨accepted ++ accepted', ?_, .descend hrounds hlevels, hascends.append hascends',
        hextracted'⟩
      rw [List.getLast?_append, Option.or_assoc]

/-- A cluster runs a chain through its admitted groups and replays the last seed. -/
theorem cluster_chain {id : ExprId} {groups : List (Group ExprId)} (hready : Ready g m)
    (hkeeps : (Protocol.within g text more kept).Keeps m)
    (hinside : Inside text m.state.scope m.state.stop)
    (hkey : key = { expr := id, position := m.state.stop })
    (hget : m.state.seeds.get? key = none)
    (h : cluster call text id groups m = .ok b m') :
    ∃ accepted m₁, Levels call m.state key
        (groups.takeWhile fun group => m.state.floors.floor id ≤ group.precedence) none accepted
        (m.withState (m.state.seeded key none)) m₁ ∧
      Ends text m.state accepted b m'.state ∧ outcomeOf b m'.state = accepted.getLast? := by
  have hcan : m.state.seeds.Canonical := hready.canonical.seeds
  have hid : key.expr = id := by rw [hkey]
  obtain ⟨s, m₀, hstate, h⟩ := bind_ok h
  cases hstate
  simp only [← hkey, hget] at h
  obtain ⟨⟨⟩, m₀, hseeds, h⟩ := bind_ok h
  cases hseeds
  obtain ⟨grown, m₁, hrun, h⟩ := bind_ok h
  obtain ⟨m₂, hclimb, rfl⟩ := thenAlways_ok hrun
  have hstands : Stands (.within g text more kept) m.state (m.state.scope.seeded key none)
      (m.withState (m.state.seeded key none)) :=
    ⟨hready.memo, hkeeps.withState hkeeps.blank, rfl⟩
  obtain ⟨accepted, rfl, hlevels, hascends, hextracted⟩ := climbAll_levels hcall hready.settled
    hready.canonical (by rw [hkey]) hinside _ (fun _ => rfl) (bounded_none text _) nofun hstands hclimb
  rw [Option.or_none] at h hextracted
  have hback : ({ m₂.state with
      floors := m₂.state.floors.reset id (m.state.floors.explicit? id)
      seeds := m₂.state.seeds.remove key } : ParseState) = m.state := by
    let c : Scope := { m.state.scope with seeds := m.state.seeds.insert key none }
    have hc : c.Canonical := ⟨hcan.insert key none, hready.canonical.floors⟩
    have hgrowing : Growing g m.state (Levelled key c) (m.withState (m.state.seeded key none)) :=
      ⟨hready.memo, c, .refl hc, rfl⟩
    obtain ⟨-, d, hd, hstate⟩ :=
      (climbAll_growing hcall.obeys text _ none hready.settled hgrowing).answer hclimb
    have hlevelled : Levelled key c m₂.state.scope := by
      rw [hstate]
      exact hd
    refine (cluster_undo hready.canonical hid hget hlevelled).trans ?_
    rw [hstate]
    rfl
  exact ⟨accepted, m₂, hlevels, hascends.ends hextracted hready.settled hback h⟩

end Boundaries

/-! ## Kept outcomes -/

/-- What the memo table keeps came of a match in a state with the same key. -/
def Remembers (g : Grammar) (text : Text) (config : Config) (key : MemoKey Fingerprint)
    (o : Option Changes) : Prop :=
  ∃ nesting expr n b n', g.node? key.expr = some expr ∧ keyAt n.state key.expr = key ∧ Ready g n ∧
    (Protocol.within g text (fun _ _ _ => True) fun _ _ => True).Keeps n ∧
    Inside text n.state.scope n.state.stop ∧
    dispatch ⟨g, text, config⟩ (invoke ⟨g, text, config⟩ nesting) key.expr expr.shape n = .ok b n' ∧
    o = outcomeOf b n'.state

theorem sustains_remembers (g : Grammar) (text : Text) (config : Config) :
    Sustains g text config (fun _ _ _ => True) (Remembers g text config) :=
  sustains_bounds fun hnode hready hkeeps hinside hrun =>
    ⟨_, _, _, _, _, hnode, rfl, hready, hkeeps.bounds, hinside, hrun, rfl⟩

/-- Where the runs are that a match of `id` from `m` owes its outcome `o` to: they are its own, from
    `m` but for counters, or the memo table holds `o`, and they are those of an earlier match, from
    a state with the same key. -/
inductive Origin (id : ExprId) (nesting : Nat) (m : Machine) (o : Option Changes) :
    Nat → Machine → Prop where
  | own {n : Machine} : Standing m n → Origin id nesting m o nesting n
  | earlier {before : Nat} {n : Machine} : m.memo.Holds (keyAt m.state id) o →
      n.state.Settled → keyAt n.state id = keyAt m.state id → Origin id nesting m o before n

section Reached

variable {parser : Parser} {id : ExprId} {nesting before : Nat} {expr : Expr} {n n₀ : Machine}
variable {b₀ : Bool}

/-- A match of `id` from `m` that answered, and the match of its shape, from `n`, that the answer is
    owed to. -/
structure Traced (p : Parser) (text : Text) (id : ExprId) (nesting : Nat) (m : Machine) (b : Bool)
    (m' : Machine) (expr : Expr) (before : Nat) (n : Machine) (b₀ : Bool) (n₀ : Machine) : Prop where
  origin : Origin id nesting m (outcomeOf b₀ n₀.state) before n
  key : keyAt n.state id = keyAt m.state id
  ready : Ready p.grammar n
  keeps : (Protocol.within p.grammar text (fun _ _ _ => True) fun _ _ => True).Keeps n
  inside : Inside text n.state.scope n.state.stop
  dispatched : dispatch (p.setting text) (invoke (p.setting text) before) id expr.shape n = .ok b₀ n₀
  /-- What the shape comes to by a chain is what the match comes to. -/
  ends : ∀ accepted, Ends text n.state accepted b₀ n₀.state →
    outcomeOf b₀ n₀.state = accepted.getLast? → Ends text m.state accepted b m'.state

theorem exists_traced (hreach : parser.Reaches text m) (hsettled : m.state.Settled)
    (hrun : invoke (parser.setting text) (nesting + 1) id m = .ok b m') :
    ∃ expr before n b₀ n₀, parser.grammar.node? id = some expr ∧
      Traced parser text id nesting m b m' expr before n b₀ n₀ := by
  obtain ⟨hmemo, hcanonical, hkeeps, hinside⟩ :=
    hreach.within (sustains_remembers parser.grammar text parser.config)
  obtain ⟨expr, hnode, ⟨o, hanswered⟩ | ⟨n, n₀, hevaluated⟩⟩ := attempt_ok hrun
  · obtain ⟨-, -, before, expr', n, b₀, n₀, hnode', hkey, hready, hkeeps', hinside', hdispatch, ho⟩ :=
      hkeeps.memo _ o hanswered.held
    have hstop : n.state.stop = m.state.stop := congrArg MemoKey.position hkey
    refine ⟨expr', before, n, b₀, n₀, hnode', ?_, hkey, hready, hkeeps', hinside', hdispatch, ?_⟩
    · exact .earlier (ho ▸ hanswered.held) hready.settled hkey
    · intro accepted hends hlast
      have hsame : o = accepted.getLast? := ho.trans hlast
      refine ⟨hends.increasing, hstop ▸ hends.within, hstop ▸ hends.few, ?_, ?_⟩
      · rw [hanswered.matched_eq, hsame]
      · rw [hanswered.state, hsame]
  · have hstate := hevaluated.standing.state
    have hready : Ready parser.grammar m := ⟨hsettled, hcanonical, hmemo⟩
    refine ⟨expr, nesting, n, b, n₀, hnode, .own hevaluated.standing, by rw [hstate],
      hready.of_state_eq (hevaluated.standing.memo ▸ hmemo) hstate,
      hkeeps.bounds.of_standing hevaluated.standing, hstate ▸ hinside, hevaluated.dispatched, ?_⟩
    intro accepted hends _
    rw [hevaluated.state, ← hstate]
    exact hends

/-- Whether a boundary has a seed is seen from the key. -/
theorem Traced.get?_eq_none (h : Traced parser text id nesting m b m' expr before n b₀ n₀)
    (hm : m.state.scope.Canonical) (hget : m.state.seeds.get? key = none) :
    n.state.seeds.get? key = none := by
  have hdigest : n.state.seeds.digest = m.state.seeds.digest :=
    congrArg (·.print.seeds) h.key
  have hstops := Seeds.get?_stop_of_digest h.ready.canonical.seeds hm.seeds hdigest key
  rw [show m.state.scope.seeds.get? key = none from hget] at hstops
  exact Option.map_eq_none_iff.mp hstops

theorem Traced.isBlocked (h : Traced parser text id nesting m b m' expr before n b₀ n₀)
    (hm : m.state.scope.Canonical) (i : ExprId) :
    n.state.seeds.isBlocked i = m.state.seeds.isBlocked i := by
  have hblocked : n.state.seeds.blocked = m.state.seeds.blocked :=
    Seeds.blocked_of_digest h.ready.canonical.seeds hm.seeds (congrArg (·.print.seeds) h.key)
  rw [Seeds.isBlocked, Seeds.isBlocked, hblocked]

end Reached

end Growth

open Growth in
/-- A boundary that a parse matches where it has no seed, and where it is not blocked, starts from a
    failing seed and grows it.  A left-recursive one runs its operand again and again at its
    position, from the state of the match with the last seed, until a run fails or gets no farther
    than that seed; each other run is the next seed.  A cluster does so with the groups that it
    admits, one after the other, and hands its last seed from group to group.  The seeds reach
    farther and farther, within the text, so there are not many; and the match comes to the last one,
    replayed, or to a failure if there is none.  Where the memo table answers, the runs are those of
    an earlier match in an equal state. -/
theorem Parser.Reaches.seeds_grow {parser : Parser} {text : Text} {m m' : Machine} {nesting : Nat}
    {id : ExprId} {b : Bool} {key : SeedKey} (hreach : parser.Reaches text m)
    (hsettled : m.state.Settled) (hkey : key = { expr := id, position := m.state.stop })
    (hget : m.state.seeds.get? key = none)
    (hrun : invoke (parser.setting text) (nesting + 1) id m = .ok b m') :
    (∀ operand assoc, parser.grammar.shape? id = some (.leftRecursive operand assoc) →
      (assoc && m.state.seeds.isBlocked id) = false →
      ∃ before n n' runs accepted, Origin id nesting m accepted.getLast? before n ∧
        Runs (invoke (parser.setting text) before) (n.state.entered key assoc) key operand runs none
          accepted (n.withState (n.state.entered key assoc)) n' ∧
        runs ≤ text.length - m.state.stop + 2 ∧ Ends text m.state accepted b m'.state) ∧
    ∀ groups, parser.grammar.shape? id = some (.cluster groups) →
      ∃ before n n' accepted, Origin id nesting m accepted.getLast? before n ∧
        Levels (invoke (parser.setting text) before) n.state key
          (groups.takeWhile fun group => m.state.floors.floor id ≤ group.precedence) none accepted
          (n.withState (n.state.seeded key none)) n' ∧
        Ends text m.state accepted b m'.state := by
  have hcanonical := (hreach.within (sustains_remembers _ _ _)).2.1
  obtain ⟨expr, before, n, b₀, n₀, hnode, htraced⟩ := exists_traced hreach hsettled hrun
  have hshape := Grammar.shape?_of_node? hnode
  have hstop : n.state.stop = m.state.stop := congrArg MemoKey.position htraced.key
  have hkeyₙ : key = { expr := id, position := n.state.stop } := hstop ▸ hkey
  have hsustains : Sustains parser.grammar text parser.config (fun _ _ _ => True) fun _ _ => True :=
    sustains_bounds fun _ _ _ _ _ => trivial
  have hserves := invoke_within hsustains before
  have hdispatch := htraced.dispatched
  constructor
  · intro operand assoc hform hblocked
    rw [Option.some.inj (hshape.symm.trans hform)] at hdispatch
    obtain ⟨accepted, n', hruns, hends, hlast⟩ := leftRecursive_chain hserves htraced.ready
      htraced.keeps htraced.inside hkeyₙ (htraced.get?_eq_none hcanonical hget)
      (htraced.isBlocked hcanonical id ▸ hblocked) hdispatch
    have hends' := htraced.ends accepted hends hlast
    refine ⟨before, n, n', _, accepted, hlast ▸ htraced.origin, hruns, ?_, hends'⟩
    have hfew := hends'.few
    omega
  · intro groups hform
    rw [Option.some.inj (hshape.symm.trans hform)] at hdispatch
    obtain ⟨accepted, n', hlevels, hends, hlast⟩ := cluster_chain hserves htraced.ready
      htraced.keeps htraced.inside hkeyₙ (htraced.get?_eq_none hcanonical hget) hdispatch
    have hfloors : n.state.floors = m.state.floors := congrArg (·.print.floors) htraced.key
    rw [hfloors] at hlevels
    exact ⟨before, n, n', accepted, hlast ▸ htraced.origin, hlevels,
      htraced.ends accepted hends hlast⟩

/-- A parser for a letter with signs. -/
def signs : Parser :=
  { grammar := signed, root := 0, config := {} }

theorem seeds_grow_signs :
    signs.Reaches (.ofString "n++") (.initial {}) ∧ ∃ (m' : Machine) (accepted : List Changes),
      invoke (signs.setting (.ofString "n++")) 8 0 (.initial {}) = .ok true m' ∧
      (accepted.map Changes.stop).Pairwise (· < ·) ∧
      accepted.getLast?.map Changes.stop = some 3 := by
  have hreach : signs.Reaches (.ofString "n++") (.initial {}) := .begun .root
  obtain ⟨m', hrun, hstop⟩ := exists_of_answer (a := true) (f := fun m => m.state.stop) (v := 3)
    (x := invoke (signs.setting (.ofString "n++")) 8 0 (.initial {})) (by decide +kernel)
  obtain ⟨-, -, -, -, accepted, -, -, -, hends⟩ :=
    (hreach.seeds_grow (settled_initial _) rfl rfl hrun).1 1 false rfl rfl
  refine ⟨hreach, m', accepted, hrun, hends.increasing, ?_⟩
  have hmatched := hends.matched_eq
  have hreplayed := hends.replayed
  cases hlast : accepted.getLast? with
  | none =>
      rw [hlast] at hmatched
      cases hmatched
  | some c =>
      rw [hlast] at hreplayed
      rw [hreplayed] at hstop
      exact congrArg some hstop

end Packrat
