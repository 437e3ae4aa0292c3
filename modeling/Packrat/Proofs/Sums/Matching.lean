import Mathlib
import Packrat.Proofs.Peg.Roles
import Packrat.Proofs.Protocol.Outcomes
import Packrat.Proofs.Sums.Grammar
import Packrat.Proofs.Sums.Parentheses
import Packrat.Proofs.Transparency.Alike

/-! # Parsing sums with a left-associative boundary

    Each expression tells how far a part of a phrase reads where it is matched, and which part that
    is depends on whether the boundary is blocked.  Of the scope it depends on that and on where the
    seed at its position ends, and on nothing else; so whatever is memoized may be told again.

    * **`invoke_told`** — every match tells what its part reads, whatever is memoized.
    * **`parseWith_sums`** — a parse matches exactly the phrases of a free boundary. -/

namespace Packrat.Sums

open Relation Matching Engine

/-! ## What is told -/

section Told

variable {text : Text} {c c' : Scope} {id : ExprId} {p q : Nat} {o : Option Found} {f : Found}
variable {best : Option Changes} {seed changes : Changes} {b : Bool} {part : Part}

/-- How far a part reads, and what was captured. -/
structure Tells (text : Text) (part : Part) (p : Nat) (o : Option Found) : Prop where
  reads : Reads part (rest text p) (left text o)
  found : ∀ f, o = some f → f.Within text p false ∧ Single text p part.grows f

/-- Two operands were captured. -/
def Operands (text : Text) (p : Nat) (f : Found) : Prop :=
  ∃ f₁ f₂ q, Single text p true f₁ ∧ Single text q false f₂ ∧ f.nodes = f₁.nodes ++ f₂.nodes

/-- An operation on a seed, as far as it is known where the seed ends. -/
def OnSeed (text : Text) (captured : Found → Prop) (stop : Option Nat) (o : Option Found) : Prop :=
  match stop with
  | none => o = none
  | some q => Reads .operation (rest text q) (left text o) ∧
      ∀ f, o = some f → q < f.stop ∧ f.stop ≤ text.length ∧ captured f

/-- An operation on the seed, or else an atom. -/
def Alternatives (text : Text) (blocked : Bool) (stop : Option Nat) (p : Nat) (o : Option Found) :
    Prop :=
  (∃ f, o = some f ∧ OnSeed text (Single text p true) stop (some f)) ∨
    OnSeed text (Single text p true) stop none ∧ Tells text (.atom blocked) p o

/-- The key of the boundary at a position. -/
def keyOf (p : Nat) : SeedKey :=
  { expr := boundary, position := p }

/-- Whether the boundary is blocked. -/
def blocked (c : Scope) : Bool :=
  c.seeds.isBlocked boundary

/-- Where the seed at a position ends. -/
def seedStop (c : Scope) (p : Nat) : Option (Option Nat) :=
  (c.seeds.get? (keyOf p)).map (Option.map Changes.stop)

/-- What is told by role: the boundary tells what its seed does or what it reads, and the expressions
    below it what they read over the seed. -/
def told (text : Text) (c : Scope) (r : Role) (p : Nat) (o : Option Found) : Prop :=
  match r with
  | .boundary =>
      (∃ stop, seedStop c p = some stop ∧ o.map Found.stop = stop ∧
        ∀ f, o = some f → f.Within text p false ∧ Single text p true f) ∨
      seedStop c p = none ∧ Tells text (.entry (blocked c)) p o
  | .alternatives => ∃ stop, seedStop c p = some stop ∧ Alternatives text (blocked c) stop p o
  | .operation => ∃ stop, seedStop c p = some stop ∧ OnSeed text (Single text p true) stop o
  | .items => ∃ stop, seedStop c p = some stop ∧ OnSeed text (Operands text p) stop o
  | .group => Tells text (.group (blocked c)) p o

/-- Seeds lie behind, and each is found in the text as one node. -/
def Orderly (text : Text) (c : Scope) (p : Nat) : Prop :=
  ∀ key seed, c.seeds.get? key = some seed → key.position ≤ p ∧
    ∀ changes, seed = some changes → changes.found.Within text key.position false ∧
      Single text key.position true changes.found

/-- What is asked for by role: operations where the boundary has a seed, and blocked if the seed is
    one on which they operate. -/
def asked (text : Text) (c : Scope) (r : Role) (p : Nat) : Prop :=
  match r with
  | .boundary | .group => Orderly text c p
  | .alternatives | .operation | .items => Orderly text c p ∧
      ∃ best, c.seeds.get? (keyOf p) = some best ∧ (best.isSome = true → blocked c = true)

/-- The roles in the grammar. -/
def roles (text : Text) : Roles Role where
  grammar := grouped
  text := text
  role := role
  told := told text
  asked := asked text

/-- Blocking and the end of the seed are all that is seen of a scope. -/
theorem told_congr {r : Role} (hblocked : blocked c = blocked c')
    (hstop : seedStop c p = seedStop c' p) (h : told text c r p o) : told text c' r p o := by
  unfold told at h ⊢
  rw [← hblocked, ← hstop]
  exact h

theorem tells_sign {x : Char} (h : (roles text).Tells c (sign x) p o) :
    PegAt grouped text (sign x) p o := by
  have hplain : role (sign x) = none := by
    unfold sign
    split <;> rfl
  exact (Roles.tells_plain (R := roles text) hplain).mp h

theorem seedStop_eq (hget : c.seeds.get? (keyOf p) = some best) :
    seedStop c p = some (best.map Changes.stop) :=
  congrArg (Option.map _) hget

/-- The boundary moves on inside the text. -/
theorem within_of_boundary (h : (roles text).Tells c boundary p (some f)) :
    f.Within text p false := by
  rcases h with ⟨stop, -, -, hfound⟩ | ⟨-, htells⟩
  · exact (hfound f rfl).1
  · exact (htells.found f rfl).1

/-- Where the boundary has a seed, it does what the seed does. -/
theorem seed_of_boundary (h : (roles text).Tells c boundary p o)
    (hget : c.seeds.get? (keyOf p) = some best) :
    o.map Found.stop = best.map Changes.stop ∧
      ∀ f, o = some f → f.Within text p false ∧ Single text p true f := by
  rcases h with ⟨stop, hstop, hends, hfound⟩ | ⟨hnone, -⟩
  · cases (seedStop_eq hget).symm.trans hstop
    exact ⟨hends, hfound⟩
  · cases (seedStop_eq hget).symm.trans hnone

/-- What the boundary reads where it has no seed. -/
theorem tells_of_boundary (h : (roles text).Tells c boundary p o)
    (hnone : c.seeds.get? (keyOf p) = none) :
    Tells text (.entry (blocked c)) p o := by
  rcases h with ⟨stop, hstop, -⟩ | ⟨-, htells⟩
  · rw [seedStop, hnone] at hstop
    cases hstop
  · exact htells

/-- What the alternatives tell over a seed. -/
theorem alternatives_of_tell (h : (roles text).Tells c alternatives p o)
    (hget : c.seeds.get? (keyOf p) = some best) :
    Alternatives text (blocked c) (best.map Changes.stop) p o := by
  obtain ⟨stop, hstop, halternatives⟩ := h
  cases (seedStop_eq hget).symm.trans hstop
  exact halternatives

theorem Orderly.later (h : Orderly text c p) (hpq : p ≤ q) : Orderly text c q :=
  fun key seed hget => ⟨(h key seed hget).1.trans hpq, (h key seed hget).2⟩

/-- Nothing ahead has a seed. -/
theorem Orderly.unseeded (h : Orderly text c p) (hpq : p < q) :
    c.seeds.get? (keyOf q) = none := by
  cases hget : c.seeds.get? (keyOf q) with
  | none => rfl
  | some seed => exact absurd (h _ seed hget).1 hpq.not_ge

/-- A seed at the position, if it was found as one node. -/
theorem Orderly.seeded (h : Orderly text c p)
    (hget : ∀ key, c'.seeds.get? key = if key = keyOf p then some best else c.seeds.get? key)
    (hbest : ∀ changes, best = some changes → changes.found.Within text p false ∧
      Single text p true changes.found) : Orderly text c' p := by
  intro key seed hseed
  rw [hget] at hseed
  split at hseed
  · rename_i hkey
    cases hkey
    cases hseed
    exact ⟨le_rfl, hbest⟩
  · exact h key seed hseed

/-! ## Growing -/

/-- A seed from which a free boundary that began at `p` goes on. -/
structure Grows (text : Text) (p : Nat) (seed : Changes) : Prop where
  within : seed.found.Within text p false
  single : Single text p true seed.found
  first : ∃ q, Reads (.atom true) (rest text p) (some (rest text q)) ∧ q ≤ seed.stop
  goesOn : ∀ o, Reads .grown (rest text seed.stop) o → Reads (.entry false) (rest text p) o

theorem grows_atom (h : Tells text (.atom true) p (some changes.found)) : Grows text p changes := by
  obtain ⟨hwithin, hsingle⟩ := h.found _ rfl
  exact ⟨hwithin, hsingle.weaken fun _ => rfl, ⟨_, h.reads, le_rfl⟩, fun o ho => .free h.reads ho⟩

/-- An operation on a seed becomes the next seed. -/
theorem Grows.operation (h : Grows text p seed)
    (honseed : OnSeed text (Single text p true) (some seed.stop) (some changes.found)) :
    Grows text p changes := by
  obtain ⟨hreads, hfound⟩ := honseed
  obtain ⟨hfarther, hstop, hsingle⟩ := hfound _ rfl
  have hforward : p < seed.stop := h.within.moved
  have hmoved : p < changes.stop := hforward.trans hfarther
  obtain ⟨q, hfirst, hq⟩ := h.first
  refine ⟨⟨hmoved.le, hstop, fun heq => absurd heq hmoved.ne'⟩, hsingle, ⟨q, hfirst, ?_⟩, ?_⟩
  · exact hq.trans (le_of_lt hfarther)
  · exact fun o ho => h.goesOn o (.grown_more hreads ho)

/-- Where no operation goes on, the seed is all that a free boundary reads. -/
theorem Grows.stop (h : Grows text p seed)
    (honseed : OnSeed text (Single text p true) (some seed.stop) none) :
    Tells text (.entry false) p (some seed.found) := by
  refine ⟨h.goesOn _ (.grown_stop honseed.1), ?_⟩
  rintro _ ⟨⟩
  exact ⟨h.within, h.single⟩

/-- Alternatives move on inside the text. -/
theorem Alternatives.bounds (hbest : ∀ seed, best = some seed → Grows text p seed)
    (h : Alternatives text b (best.map Changes.stop) p (some f)) :
    p ≤ f.stop ∧ f.stop ≤ text.length := by
  rcases h with ⟨_, ⟨⟩, honseed⟩ | ⟨-, htells⟩
  · cases best with
    | none => cases honseed
    | some seed =>
        obtain ⟨hfarther, hstop, -⟩ := honseed.2 f rfl
        have hforward : p ≤ seed.stop := (hbest seed rfl).within.forward
        exact ⟨hforward.trans hfarther.le, hstop⟩
  · obtain ⟨hwithin, -⟩ := htells.found f rfl
    exact ⟨hwithin.forward, hwithin.stop⟩

/-- An alternative that gets farther than the seed is one from which the boundary goes on. -/
theorem Alternatives.grows (hbest : ∀ seed, best = some seed → Grows text p seed)
    (h : Alternatives text true (best.map Changes.stop) p (some changes.found))
    (hfarther : Growth.advances changes.stop best = true) : Grows text p changes := by
  rcases h with ⟨_, ⟨⟩, honseed⟩ | ⟨-, htells⟩
  · cases best with
    | none => cases honseed
    | some seed => exact (hbest seed rfl).operation honseed
  · cases best with
    | none => exact grows_atom htells
    | some seed =>
        -- the atom alone gets no farther than a seed that has grown from it
        have hseed := hbest seed rfl
        obtain ⟨q, hfirst, hq⟩ := hseed.first
        have hsame : rest text q = rest text changes.stop :=
          Option.some.inj (hfirst.unique htells.reads)
        have hend : seed.stop ≤ text.length := hseed.within.stop
        obtain rfl := rest_injective (hq.trans hend) (htells.found _ rfl).1.stop hsame
        have hlt : seed.stop < changes.stop := of_decide_eq_true hfarther
        exact absurd hq hlt.not_ge

/-- Where no alternative gets farther than the seed, the seed is what the boundary reads. -/
theorem Alternatives.ended (hbest : ∀ seed, best = some seed → Grows text p seed)
    (h : Alternatives text true (best.map Changes.stop) p o)
    (hends : ¬ Growth.Surpasses best o) : Tells text (.entry false) p (best.map Changes.found) := by
  rcases h with ⟨f, rfl, honseed⟩ | ⟨hnone, htells⟩
  · cases best with
    | none => cases honseed
    | some seed =>
        exact absurd ⟨f, rfl, decide_eq_true (honseed.2 f rfl).1⟩ hends
  · cases best with
    | some seed => exact (hbest seed rfl).stop hnone
    | none =>
        cases o with
        | none => exact ⟨.free_none htells.reads, by rintro f ⟨⟩⟩
        | some f => exact absurd ⟨f, rfl, rfl⟩ hends

/-! ## Below a boundary -/

/-- The scope in which a boundary without a seed asks for its alternatives first. -/
def below (c : Scope) (p : Nat) (b : Bool) : Scope :=
  { c with seeds := (c.seeds.insert (keyOf p) none).setBlocked boundary b }

theorem get?_below (key : SeedKey) : (below c p b).seeds.get? key
    = if key = keyOf p then some none else c.seeds.get? key := by
  rw [below, Seeds.get?_setBlocked, Seeds.get?_insert]

theorem get?_seeded (key : SeedKey) : ((below c p b).seeded (keyOf p) best).seeds.get? key
    = if key = keyOf p then some best else c.seeds.get? key := by
  rw [Scope.seeded, Seeds.get?_insert, get?_below]
  split <;> rfl

theorem blocked_below (hcan : c.seeds.Canonical) : blocked (below c p b) = b := by
  rw [blocked, below, Bool.eq_iff_iff, Seeds.isBlocked_iff, (hcan.insert _ none).mem_setBlocked,
    if_pos rfl]

/-- What the alternatives tell while their boundary grows. -/
theorem alternatives_below (hcan : c.seeds.Canonical)
    (h : (roles text).Tells ((below c p true).seeded (keyOf p) best) alternatives p o) :
    Alternatives text true (best.map Changes.stop) p o := by
  have halternatives := alternatives_of_tell h ((get?_seeded _).trans (if_pos rfl))
  have hblocked : blocked ((below c p true).seeded (keyOf p) best) = true := blocked_below hcan
  rwa [hblocked] at halternatives

/-! ## Sequences, choices and captures -/

/-- The seed, a plus and a right operand. -/
theorem items_of_each (horderly : Orderly text c p) (hget : c.seeds.get? (keyOf p) = some best)
    (hblocked : best.isSome = true → blocked c = true)
    (h : Each ((roles text).Tells c) [boundary, sign '+', boundary] p o) :
    OnSeed text (Operands text p) (best.map Changes.stop) o := by
  cases h with
  | fail _ hnone =>
      rw [← (seed_of_boundary hnone hget).1]
      exact rfl
  | @next _ _ _ f₁ _ hsome hrest =>
      obtain ⟨hends, hfound⟩ := seed_of_boundary hsome hget
      obtain ⟨hwithin, hsingle⟩ := hfound f₁ rfl
      obtain ⟨seed, rfl, -⟩ := Option.map_eq_some_iff.mp hends.symm
      rw [← hends]
      cases hrest with
      | fail _ hsign =>
          have hmissed := sign_missed (c := '+') (by decide) (tells_sign hsign)
          exact ⟨.no_plus hmissed, by rintro f ⟨⟩⟩
      | next hsign hrest =>
          obtain ⟨rfl, hplus⟩ := sign_met (c := '+') (by decide) (tells_sign hsign)
          have hlater : p < f₁.stop + 1 := hwithin.forward.trans_lt (Nat.lt_succ_self _)
          have hright : ∀ {o}, (roles text).Tells c boundary (f₁.stop + 1) o →
              Tells text (.entry true) (f₁.stop + 1) o :=
            fun htell => hblocked rfl ▸ tells_of_boundary htell (horderly.unseeded hlater)
          cases hrest with
          | fail _ hnone =>
              refine ⟨?_, by rintro f ⟨⟩⟩
              rw [hplus]
              exact .operation (hright hnone).reads
          | @next _ _ _ f₂ _ hsome hnil =>
              cases hnil
              obtain ⟨hreads, hfound₂⟩ := hright hsome
              obtain ⟨hwithin₂, hsingle₂⟩ := hfound₂ f₂ rfl
              refine ⟨?_, ?_⟩
              · rw [hplus]
                exact .operation hreads
              · rintro f ⟨⟩
                exact ⟨hwithin₂.forward, hwithin₂.stop, f₁, f₂, _, hsingle, hsingle₂,
                  by simp [Found.append, Found.nothing]⟩

/-- What stands in parentheses. -/
theorem group_of_each (horderly : Orderly text c p)
    (h : Each ((roles text).Tells c) [sign '(', boundary, sign ')'] p o) :
    Tells text (.group (blocked c)) p o := by
  cases h with
  | fail _ hsign =>
      have hmissed := sign_missed (c := '(') (by decide) (tells_sign hsign)
      exact ⟨.not_opened hmissed, by rintro f ⟨⟩⟩
  | next hsign hrest =>
      obtain ⟨rfl, hopen⟩ := sign_met (c := '(') (by decide) (tells_sign hsign)
      have hinner : ∀ {o}, (roles text).Tells c boundary (p + 1) o →
          Tells text (.entry (blocked c)) (p + 1) o :=
        fun htell => tells_of_boundary htell (horderly.unseeded (Nat.lt_succ_self p))
      cases hrest with
      | fail _ hnone =>
          refine ⟨?_, by rintro f ⟨⟩⟩
          rw [hopen]
          exact .not_filled (hinner hnone).reads
      | @next _ _ _ f _ hsome hrest =>
          obtain ⟨hreads, hfound⟩ := hinner hsome
          obtain ⟨hwithin, hsingle⟩ := hfound f rfl
          cases hrest with
          | fail _ hsign =>
              refine ⟨?_, by rintro f ⟨⟩⟩
              rw [hopen]
              exact .not_closed hreads (sign_missed (c := ')') (by decide) (tells_sign hsign))
          | next hsign hnil =>
              obtain ⟨rfl, hclose⟩ := sign_met (c := ')') (by decide) (tells_sign hsign)
              cases hnil
              have hlt : p < f.stop + 1 := hwithin.forward.trans (Nat.le_succ _)
              obtain ⟨hend, -, hat⟩ := rest_cons hclose
              refine ⟨?_, ?_⟩
              · have hfilled : Reads (.entry (blocked c)) (rest text (p + 1))
                    (some (rest text f.stop)) := hreads
                rw [hclose] at hfilled
                rw [hopen]
                exact .group hfilled
              · rintro _ ⟨⟩
                refine ⟨⟨hlt.le, hend, fun heq => absurd heq hlt.ne'⟩, ?_⟩
                exact (hsingle.weaken fun _ => rfl).enclosed (rest_cons hopen).2.2 hat
                  (by simp [Found.append, Found.nothing])

/-- An operation on the seed, or what stands in parentheses, or a number. -/
theorem alternatives_of_first (hget : c.seeds.get? (keyOf p) = some best)
    (h : First ((roles text).Tells c) [sum, parenthesized, number] p o) :
    Alternatives text (blocked c) (best.map Changes.stop) p o := by
  have honseed : ∀ {o}, (roles text).Tells c sum p o →
      OnSeed text (Single text p true) (best.map Changes.stop) o := by
    rintro o ⟨stop, hstop, honseed⟩
    rw [seedStop, hget] at hstop
    cases hstop
    exact honseed
  cases h with
  | @here _ _ f _ hsome => exact Or.inl ⟨f, rfl, honseed hsome⟩
  | next hnone hrest =>
      refine Or.inr ⟨honseed hnone, ?_⟩
      cases hrest with
      | @here _ _ f _ hsome =>
          have hgroup : Tells text (.group (blocked c)) p (some f) := hsome
          exact ⟨.atom_group hgroup.reads, hgroup.found⟩
      | next hnone hrest =>
          have hgroup : Tells text (.group (blocked c)) p none := hnone
          have hnumber : PegAt grouped text number p o := by
            cases hrest with
            | here _ hsome => exact hsome
            | next hnone hnil =>
                cases hnil
                exact hnone
          obtain ⟨hleft, hfound⟩ := isNumber_number.found hnumber
          refine ⟨hleft ▸ .atom_number hgroup.reads, ?_⟩
          intro f hf
          obtain ⟨hwithin, hnodes⟩ := hfound f hf
          exact ⟨hwithin, single_leaf hnodes rfl rfl⟩

/-- Where the items of an operation are asked for. -/
theorem asks_items (hp : p ≤ text.length) (horderly : Orderly text c p) :
    AskEach ((roles text).Tells c) ((roles text).Asks c) [boundary, sign '+', boundary] p := by
  refine ⟨⟨hp, horderly⟩, ?_⟩
  intro f hsome
  have hwithin := within_of_boundary hsome
  refine ⟨Roles.asks_plain rfl hwithin.stop, ?_⟩
  intro f' hsign
  obtain ⟨rfl, hplus⟩ := sign_met (c := '+') (by decide) (tells_sign hsign)
  have hlater : p ≤ f.stop + 1 := hwithin.forward.trans (Nat.le_succ _)
  exact ⟨⟨(rest_cons hplus).1, horderly.later hlater⟩, fun _ _ => trivial⟩

/-- Where the items in parentheses are asked for. -/
theorem asks_group (hp : p ≤ text.length) (horderly : Orderly text c p) :
    AskEach ((roles text).Tells c) ((roles text).Asks c) [sign '(', boundary, sign ')'] p := by
  refine ⟨Roles.asks_plain rfl hp, ?_⟩
  intro f hsign
  obtain ⟨rfl, hopen⟩ := sign_met (c := '(') (by decide) (tells_sign hsign)
  refine ⟨⟨(rest_cons hopen).1, horderly.later (Nat.le_succ p)⟩, ?_⟩
  intro f' hsome
  exact ⟨Roles.asks_plain rfl (within_of_boundary hsome).stop, fun _ _ => trivial⟩

/-- Two operands become one operation. -/
theorem onSeed_captured {stop : Option Nat} (h : OnSeed text (Operands text p) stop o) :
    OnSeed text (Single text p true) stop
      (o.map fun f => { f with nodes := (CaptureMode.node "+").close text p f }) := by
  cases stop with
  | none => exact congrArg (Option.map _) h
  | some q =>
      obtain ⟨hreads, hfound⟩ := h
      refine ⟨?_, ?_⟩
      · cases o <;> exact hreads
      · intro f hf
        obtain ⟨f', rfl, rfl⟩ := Option.map_eq_some_iff.mp hf
        obtain ⟨hfarther, hstop, f₁, f₂, r, hleft, hright, hnodes⟩ := hfound f' rfl
        refine ⟨hfarther, hstop, ?_⟩
        have hsingle := single_wrapped hleft hright f'.stop
        rwa [← hnodes] at hsingle

end Told

/-- The protocol.  What is memoized may be told in every scope that looks the same. -/
def protocol (text : Text) : Protocol :=
  (roles text).protocol (roles text).Kept

/-! ## Forms -/

section Forms

variable {text : Text} {call call' : Caller} {m : Machine} {id : ExprId}

/-- A boundary grows over its alternatives: what gets farther is a seed from which it goes on. -/
theorem growable {c : Scope} {p : Nat} (hcan : c.seeds.Canonical) (hp : p ≤ text.length)
    (horderly : Orderly text c p) :
    Growth.Growable (protocol text) (roles text).Asks ((below c p true).seeded (keyOf p))
      alternatives p text.length fun best => ∀ seed, best = some seed → Grows text p seed := by
  refine ⟨?_, ?_, ?_⟩
  · intro best hgrows
    refine ⟨hp, horderly.seeded get?_seeded ?_, best, ?_, fun _ => blocked_below hcan⟩
    · exact fun seed hseed => ⟨(hgrows seed hseed).within, (hgrows seed hseed).single⟩
    · rw [get?_seeded, if_pos rfl]
  · intro best f hgrows htell
    exact (alternatives_below hcan htell).bounds hgrows
  · intro best changes hgrows htell hfarther _
    rintro seed ⟨⟩
    exact (alternatives_below hcan htell).grows hgrows hfarther

/-- A free boundary grows, and a blocked one reads an atom. -/
theorem boundary_told (hcall : (protocol text).Serves (roles text).Asks call call')
    (hready : Ready grouped m) (hkeeps : (protocol text).Keeps m) (hp : m.state.stop ≤ text.length)
    (horderly : Orderly text m.state.scope m.state.stop) :
    Twins m (fun _ => True) (Growth.leftRecursive call text boundary alternatives true)
      (Growth.leftRecursive call' text boundary alternatives true)
      ((protocol text).Leaves (told text m.state.scope .boundary m.state.stop) m) := by
  have hkey : keyOf m.state.stop = { expr := boundary, position := m.state.stop } := rfl
  have hcan : m.state.scope.seeds.Canonical := hready.canonical.seeds
  -- without a seed, the boundary tells what it reads
  have hunseeded : ∀ {b o}, m.state.seeds.get? (keyOf m.state.stop) = none →
      blocked m.state.scope = b → Tells text (.entry b) m.state.stop o →
      told text m.state.scope .boundary m.state.stop o := by
    rintro _ o hnone rfl htells
    exact Or.inr ⟨congrArg (Option.map (Option.map Changes.stop)) hnone, htells⟩
  refine Growth.leftRecursive_told hcall le_rfl boundary alternatives true hready hkeeps hkey
    ?_ ?_ ?_
  · intro seed hseed
    refine ⟨fun _ _ => Or.inl trivial, Or.inl ⟨_, seedStop_eq hseed, ?_, ?_⟩⟩
    · cases seed <;> rfl
    · intro f hf
      obtain ⟨changes, rfl, rfl⟩ := Option.map_eq_some_iff.mp hf
      exact (horderly _ _ hseed).2 changes rfl
  · intro hnone hisBlocked
    have hget : (below m.state.scope m.state.stop false).seeds.get? (keyOf m.state.stop)
        = some none := by
      rw [get?_below, if_pos rfl]
    show (roles text).Asks (below m.state.scope m.state.stop false) alternatives m.state.stop ∧
      ∀ o, (roles text).Tells (below m.state.scope m.state.stop false) alternatives m.state.stop o →
        _
    refine ⟨⟨hp, horderly.seeded get?_below (by rintro _ ⟨⟩), none, hget, by rintro ⟨⟩⟩, ?_⟩
    intro o htell
    have halternatives := alternatives_of_tell htell hget
    rw [blocked_below hcan] at halternatives
    rcases halternatives with ⟨f, -, honseed⟩ | ⟨-, htells⟩
    · cases honseed
    · exact hunseeded hnone hisBlocked ⟨.blocked htells.reads, htells.found⟩
  · intro hnone hisBlocked
    refine ⟨_, growable hcan hp horderly, by rintro seed ⟨⟩, ?_⟩
    intro best o hgrows htell hends
    exact hunseeded hnone hisBlocked ((alternatives_below hcan htell).ended hgrows hends)

/-- The shape of a role finds what the role is to tell. -/
theorem role_told (config : Config) {r : Role} {s : Shape ExprId}
    (hcall : (protocol text).Serves (roles text).Asks call call') (hready : Ready grouped m)
    (hkeeps : (protocol text).Keeps m) (hs : grouped.shape? id = some s) (hid : role id = some r)
    (hp : m.state.stop ≤ text.length) (hasked : asked text m.state.scope r m.state.stop) :
    Twins m (fun _ => True) (dispatch ⟨grouped, text, config⟩ call id s)
      (dispatch ⟨grouped, text, config⟩ call' id s)
      ((protocol text).Leaves (told text m.state.scope r m.state.stop) m) := by
  obtain rfl := id_of_role hid
  cases r with
  | boundary =>
      cases hs
      exact Twins.state_bind (boundary_told hcall hready hkeeps hp hasked)
  | alternatives =>
      cases hs
      obtain ⟨horderly, best, hget, hblocked⟩ := hasked
      have hasks : ∀ item ∈ [sum, parenthesized, number],
          (roles text).Asks m.state.scope item m.state.stop := by
        simp only [List.forall_mem_cons]
        exact ⟨⟨hp, horderly, best, hget, hblocked⟩, ⟨hp, horderly⟩, Roles.asks_plain rfl hp,
          by rintro item ⟨⟩⟩
      refine Twins.state_bind ((Combinators.choice_told hcall _ hready hkeeps hasks).imp
        fun b m' hleaves => hleaves.imp ?_)
      intro o hfirst
      exact ⟨_, seedStop_eq hget, alternatives_of_first hget hfirst⟩
  | operation =>
      cases hs
      refine Twins.state_bind ((Combinators.capture_told hcall text items (.node "+") hready hkeeps
        ⟨hp, hasked⟩).imp fun b m' hleaves => hleaves.imp ?_)
      rintro o ⟨o', ⟨stop, hstop, honseed⟩, rfl⟩
      exact ⟨stop, hstop, onSeed_captured honseed⟩
  | items =>
      cases hs
      obtain ⟨horderly, best, hget, hblocked⟩ := hasked
      refine Twins.state_bind ((Combinators.sequence_told hcall _ hready hkeeps
        (asks_items hp horderly)).imp fun b m' hleaves => hleaves.imp ?_)
      intro o heach
      exact ⟨_, seedStop_eq hget, items_of_each horderly hget hblocked heach⟩
  | group =>
      cases hs
      refine Twins.state_bind ((Combinators.sequence_told hcall _ hready hkeeps
        (asks_group hp hasked)).imp fun b m' hleaves => hleaves.imp ?_)
      intro o heach
      exact group_of_each hasked heach

end Forms

/-! ## Parses -/

/-- Every match tells what its part reads. -/
theorem invoke_told (text : Text) (config : Config) (nesting : Nat) :
    (protocol text).Serves (roles text).Asks (invoke ⟨grouped, text, config⟩ nesting)
      (invoke ⟨grouped, text, config⟩ nesting) := by
  refine (roles text).serves_invoke config plain_grouped (fun id m hready => ?_) (role_told config)
    nesting
  have hcan : m.state.seeds.Canonical := hready.canonical.seeds
  refine Roles.admits_kept config hcan id fun c hc hdigest r o => told_congr ?_ ?_
  · have hsame : m.state.seeds.blocked = c.seeds.blocked :=
      Seeds.blocked_of_digest hcan hc hdigest.symm
    rw [blocked, blocked, Bool.eq_iff_iff, Seeds.isBlocked_iff, Seeds.isBlocked_iff, ← hsame]
    rfl
  · exact Seeds.get?_stop_of_digest hcan hc hdigest.symm _

/-- A parse shows what a free boundary reads at the start of the text. -/
theorem parseWith_tells {config : Config} {source : String} {r : ParseResult}
    (h : (parseWith grouped config source).outcome = .ok r) :
    ∃ o, Tells (.ofString source) (.entry false) 0 o ∧ r.Shows (.ofString source) o := by
  have hkeeps : (protocol (.ofString source)).Keeps (.initial config) :=
    Protocol.keeps_initial config trivial
  have hask : (roles (.ofString source)).Asks (Machine.initial config).state.scope boundary 0 := by
    refine ⟨Nat.zero_le _, ?_⟩
    intro key seed hseed
    cases hseed
  obtain ⟨o, htell, hshows⟩ := (invoke_told (.ofString source) config config.maxDepth).shows rfl
    hkeeps hask rfl h
  exact ⟨o, tells_of_boundary htell rfl, hshows⟩

/-- The whole text is matched where a free boundary reads all of it. -/
theorem matched_iff {source : String} {r : ParseResult} {o : Option Found}
    (htells : Tells (.ofString source) (.entry false) 0 o) (hshows : r.Shows (.ofString source) o) :
    r.matched = true ↔ Phrase (.entry false) source.toList := by
  have hall : left (.ofString source) o = some [] ↔
      o.map Found.stop = some (Text.ofString source).length := by
    cases o with
    | none => exact ⟨by rintro ⟨⟩, by rintro ⟨⟩⟩
    | some f =>
        have hend := (htells.found f rfl).1.stop
        have hlength := length_rest (.ofString source) f.stop
        simp only [left, Option.map_some, Option.some.injEq, ← List.length_eq_zero_iff]
        omega
  rw [hshows.matched, decide_eq_true_iff, ← hall, ← reads_all_iff]
  exact ⟨fun hleft => hleft ▸ htells.reads, fun hreads => htells.reads.unique hreads⟩

/-- Every operation in what a boundary found nests to the left. -/
theorem nested_tree {source : String} {r : ParseResult} {o : Option Found}
    (htells : Tells (.ofString source) (.entry false) 0 o) (hshows : r.Shows (.ofString source) o) :
    Nested (.ofString source) r.tree := by
  rw [hshows.tree]
  refine nested_of_children (by rintro ⟨⟩) ?_
  cases o with
  | none => rintro child ⟨⟩
  | some f =>
      obtain ⟨n, hnodes, hnested, -⟩ := (htells.found f rfl).2
      intro child hchild
      have hchild : child ∈ f.nodes := hchild
      rw [hnodes] at hchild
      exact List.mem_singleton.mp hchild ▸ hnested

/-- Whatever is memoized, the texts that are matched are the phrases of a free boundary.  They are
    sentences.  A sentence is among them if its parentheses all come right after a plus; a sum in
    `n` pairs of parentheses is among them if and only if `n` is even and the sum is.  Whether or
    not all of a text was matched, operations nest to the left: the right operand of one is no
    other unless it stands in parentheses. -/
theorem parseWith_sums {config : Config} {source : String} {r : ParseResult}
    (h : (parseWith Sample.ambiguousSum config source).outcome = .ok r) :
    (r.matched = true ↔ Phrase (.entry false) source.toList) ∧
      (r.matched = true → Sentence source.toList) ∧
      (Guarded none source.toList → (r.matched = true ↔ Sentence source.toList)) ∧
      (∀ n t u, Sentence t → Sentence u → source.toList = enclosed n (t ++ '+' :: u) →
        (r.matched = true ↔ Even n ∧ Phrase (.entry false) (t ++ '+' :: u))) ∧
      Nested (.ofString source) r.tree := by
  rw [ambiguousSum_eq] at h
  obtain ⟨o, htells, hshows⟩ := parseWith_tells h
  have hphrase := matched_iff htells hshows
  have hsound : r.matched = true → Sentence source.toList := fun hm => (hphrase.mp hm).sentence
  refine ⟨hphrase, hsound, fun hguarded => ⟨hsound, fun hsentence => ?_⟩, ?_,
    nested_tree htells hshows⟩
  · exact hphrase.mpr (hguarded.phrase hsentence)
  · intro n t u ht hu hsource
    rw [hphrase, hsource, phrase_enclosed_sum ht hu]

theorem parseWith_sums_guarded : ∃ r,
    (parseWith Sample.ambiguousSum { memoization := .all } "1+(2+3)+4").outcome = .ok r ∧
      r.matched = true ∧ Phrase (.entry false) "1+(2+3)+4".toList ∧
      Guarded none "1+(2+3)+4".toList ∧ Sentence "1+(2+3)+4".toList ∧
      Nested (.ofString "1+(2+3)+4") r.tree := by
  obtain ⟨r, h, hmatched⟩ := exists_of_toOption (f := ParseResult.matched) (b := true)
    (x := (parseWith grouped { memoization := .all } "1+(2+3)+4").outcome) (by decide +kernel)
  rw [← ambiguousSum_eq] at h
  obtain ⟨hphrase, -, hguarded, -, hnested⟩ := parseWith_sums h
  have hguard : Guarded none "1+(2+3)+4".toList := by simp [Guarded]
  exact ⟨r, h, hmatched, hphrase.mp hmatched, hguard, (hguarded hguard).mp hmatched, hnested⟩

/-- A sum in parentheses at the start of a text is a sentence that is lost. -/
theorem parseWith_sums_enclosed : Sentence "(1+2)".toList ∧
    ∃ r, (parseWith Sample.ambiguousSum {} "(1+2)").outcome = .ok r ∧ r.matched = false := by
  have hdigit : ∀ c, isDigit c = true → Sentence [c] := by
    intro c hc
    exact .number ⟨List.cons_ne_nil _ _, fun d hd => List.mem_singleton.mp hd ▸ hc⟩
  obtain ⟨r, h, hmatched⟩ := exists_of_toOption (f := ParseResult.matched) (b := false)
    (x := (parseWith grouped {} "(1+2)").outcome) (by decide +kernel)
  rw [← ambiguousSum_eq] at h
  refine ⟨?_, r, h, hmatched⟩
  have hsum : Sentence (['1'] ++ '+' :: ['2']) :=
    .sum (hdigit '1' (by decide)) (hdigit '2' (by decide))
  exact .group hsum

end Packrat.Sums
