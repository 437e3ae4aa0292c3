import Mathlib
import Packrat.Proofs.Peg.Roles
import Packrat.Proofs.Protocol.Outcomes
import Packrat.Proofs.Sums.Operands
import Packrat.Proofs.Transparency.Alike
import Packrat.Sample.Grammars

/-! # Sums with a left-recursive rule

    The boundary grows a seed: a number first, then round after round one more operation on the seed
    that was replayed (`Chain`).  What an expression below it tells depends on where the seed ends and
    on nothing else of the scope.  So whatever is memoized may be told again, under every seed that
    ends there.

    * **`Whole`** — a number and all the operations that follow.
    * **`parseWith_whole`** — a parse shows that, whatever is memoized. -/

namespace Packrat.Sums.Left

open Relation Matching Engine

/-! ## The grammar -/

/-- The grammar of sums with a left-recursive rule. -/
def leftSum : Grammar :=
  { nodes := #[.ofShape (.reference "E"), .ofShape (.literal "+"), .ofShape (.token 1),
      .ofShape (.range '0' '9'), .ofShape (.oneMore 3), .ofShape (.capture 4 (.text "num")),
      .ofShape (.token 5), .ofShape (.sequence [13, 2, 6]), .ofShape (.capture 7 (.node "+")),
      .ofShape (.range '0' '9'), .ofShape (.oneMore 9), .ofShape (.capture 10 (.text "num")),
      .ofShape (.token 11), { name := some "E", shape := .leftRecursive 14 false, flags := .rule },
      .ofShape (.choice [8, 12])]
    rules := [("E", 13)]
    root := some 13
    prepared := true }

set_option maxRecDepth 10000 in
theorem leftRecursiveSum_eq : Sample.leftRecursiveSum = leftSum := by
  cbv

/-- Nothing is nullable. -/
def leftNullability : Nullability :=
  ⟨Array.replicate 15 false⟩

set_option maxRecDepth 10000 in
theorem nullability_leftSum : leftSum.nullability = .ok leftNullability := by
  cbv

/-- The rule. -/
@[match_pattern] abbrev boundary : ExprId := 13

@[match_pattern] abbrev alternatives : ExprId := 14

/-- An operation on the seed. -/
@[match_pattern] abbrev sum : ExprId := 8

/-- The items of an operation. -/
@[match_pattern] abbrev items : ExprId := 7

abbrev plusSign : ExprId := 2

/-- The right operand of an operation. -/
abbrev operand : ExprId := 6

/-- The number of which the first seed is made. -/
abbrev number : ExprId := 12

theorem isSign_plus : IsSign leftSum plusSign '+' :=
  ⟨rfl, 1, "+", rfl, rfl, by decide⟩

theorem isNumber_operand : IsNumber leftSum operand :=
  ⟨rfl, 5, 4, 3, rfl, rfl, rfl, rfl⟩

theorem isNumber_number : IsNumber leftSum number :=
  ⟨rfl, 11, 10, 9, rfl, rfl, rfl, rfl⟩

/-- What an expression of the grammar is for, if it is no token and not below one. -/
inductive Role where
  | boundary
  | alternatives
  | operation
  | items
deriving DecidableEq

def role : ExprId → Option Role
  | boundary => some .boundary
  | alternatives => some .alternatives
  | sum => some .operation
  | items => some .items
  | _ => none

/-- The expression of a role. -/
def Role.expr : Role → ExprId
  | .boundary => Left.boundary
  | .alternatives => Left.alternatives
  | .operation => sum
  | .items => Left.items

theorem id_of_role {id : ExprId} {r : Role} (h : role id = some r) : id = r.expr := by
  unfold role at h
  split at h <;> cases h <;> rfl

/-- Tokens and what is below them follow the rules. -/
theorem plain_leftSum : Plain leftSum leftNullability fun id => role id = none :=
  plain_of_solid nullability_leftSum (by decide) (by rintro ws ⟨⟩)

/-! ## Chains of operations -/

section Told

variable {text : Text} {c c' : Scope} {id : ExprId} {p q : Nat} {o : Option Found} {f f' : Found}
variable {best : Option Changes} {changes : Changes} {stop : Option Nat}
variable {make : Found → Found → Found}

/-- A plus and a number at a position. -/
def Operand (text : Text) : Nat → Option Found → Prop :=
  Each (PegAt leftSum text) [plusSign, operand]

/-- One more operation on what was found. -/
def Next (text : Text) (p : Nat) (f f' : Found) : Prop :=
  ∃ v, Operand text f.stop (some v) ∧ f' = operation text p f v

/-- A number, and operations one on the other. -/
def Chain (text : Text) (p : Nat) (f : Found) : Prop :=
  ∃ first, PegAt leftSum text number p (some first) ∧ ReflTransGen (Next text p) first f

/-- A number, and all the operations that follow. -/
def Whole (text : Text) (p : Nat) (o : Option Found) : Prop :=
  o = none ∧ PegAt leftSum text number p none ∨
    ∃ f, o = some f ∧ Chain text p f ∧ Operand text f.stop none

/-- Something made of a seed that ends there and of what follows it. -/
def OnSeed (text : Text) (p : Nat) (make : Found → Found → Found) (stop : Option Nat)
    (o : Option Found) : Prop :=
  match stop with
  | none => o = none
  | some q => ∃ f o', Chain text p f ∧ f.stop = q ∧ Operand text q o' ∧ o = o'.map (make f)

/-- An operation on the seed, or else a number. -/
def Alternatives (text : Text) (p : Nat) (stop : Option Nat) (o : Option Found) : Prop :=
  (∃ f, o = some f ∧ OnSeed text p (operation text p) stop (some f)) ∨
    OnSeed text p (operation text p) stop none ∧ PegAt leftSum text number p o

theorem Next.moved (h : Next text p f f') : f.stop < f'.stop ∧ f'.stop ≤ text.length := by
  obtain ⟨v, hoperand, rfl⟩ := h
  have hwithin := operand_within isSign_plus isNumber_operand hoperand
  exact ⟨hwithin.moved, hwithin.stop⟩

/-- Operations move on inside the text. -/
theorem Chain.within (h : Chain text p f) : f.Within text p false := by
  obtain ⟨first, hfirst, hchain⟩ := h
  induction hchain with
  | refl => exact ((isNumber_number.found hfirst).2 _ rfl).1
  | tail _ hnext ih =>
      obtain ⟨hfarther, hstop⟩ := hnext.moved
      have hmoved : p < _ := ih.moved.trans hfarther
      exact ⟨hmoved.le, hstop, fun heq => absurd heq hmoved.ne'⟩

/-- An operation on a seed, made a node. -/
theorem OnSeed.captured (h : OnSeed text p Found.append stop o) :
    OnSeed text p (operation text p) stop
      (o.map fun f => { f with nodes := (CaptureMode.node "+").close text p f }) := by
  cases stop with
  | none => exact congrArg (Option.map _) h
  | some q =>
      obtain ⟨f, o', hchain, hstop, hoperand, rfl⟩ := h
      exact ⟨f, o', hchain, hstop, hoperand, Option.map_map ..⟩

/-- An operation on a seed gets farther than the seed. -/
theorem OnSeed.extends (h : OnSeed text p (operation text p) stop (some f)) :
    ∃ f₀, Chain text p f₀ ∧ stop = some f₀.stop ∧ Next text p f₀ f := by
  cases stop with
  | none => cases h
  | some q =>
      obtain ⟨f₀, o', hchain, rfl, hoperand, ho⟩ := h
      obtain ⟨v, rfl, rfl⟩ := Option.map_eq_some_iff.mp ho.symm
      exact ⟨f₀, hchain, rfl, v, hoperand, rfl⟩

/-- What an alternative finds is a chain again. -/
theorem Alternatives.chain (h : Alternatives text p stop (some f)) : Chain text p f := by
  rcases h with ⟨_, ⟨⟩, honseed⟩ | ⟨-, hnumber⟩
  · obtain ⟨f₀, ⟨first, hfirst, hchain⟩, -, hnext⟩ := honseed.extends
    exact ⟨first, hfirst, hchain.tail hnext⟩
  · exact ⟨f, hnumber, .refl⟩

/-- Where no alternative gets farther than the seed, the seed is the whole. -/
theorem Alternatives.ended (h : Alternatives text p (best.map Changes.stop) o)
    (hbest : ∀ changes, best = some changes → Chain text p changes.found)
    (hends : ¬ Growth.Surpasses best o) : Whole text p (best.map Changes.found) := by
  rcases h with ⟨f, rfl, honseed⟩ | ⟨hnone, hnumber⟩
  · obtain ⟨f₀, -, hstop, hnext⟩ := honseed.extends
    obtain ⟨seed, rfl, hseed⟩ := Option.map_eq_some_iff.mp hstop
    refine absurd ⟨f, rfl, decide_eq_true ?_⟩ hends
    rw [hseed]
    exact hnext.moved.1
  · cases best with
    | none =>
        cases o with
        | none => exact Or.inl ⟨rfl, hnumber⟩
        | some f => exact absurd ⟨f, rfl, rfl⟩ hends
    | some seed =>
        obtain ⟨f₀, o', -, -, hoperand, ho⟩ := hnone
        obtain rfl : o' = none := Option.map_eq_none_iff.mp ho.symm
        exact Or.inr ⟨seed.found, rfl, hbest seed rfl, hoperand⟩

/-! ## What is told -/

/-- The key of the boundary at a position. -/
def keyOf (p : Nat) : SeedKey :=
  { expr := boundary, position := p }

/-- Where the seed at a position ends. -/
def seedStop (c : Scope) (p : Nat) : Option (Option Nat) :=
  (c.seeds.get? (keyOf p)).map (Option.map Changes.stop)

/-- What is told by role: the boundary tells what its seed does or the whole, and the expressions
    below it what they make of the seed. -/
def told (text : Text) (c : Scope) (r : Role) (p : Nat) (o : Option Found) : Prop :=
  match r with
  | .boundary =>
      (∃ stop, seedStop c p = some stop ∧ o.map Found.stop = stop ∧
        ∀ f, o = some f → Chain text p f) ∨
      seedStop c p = none ∧ Whole text p o
  | .alternatives => ∃ stop, seedStop c p = some stop ∧ Alternatives text p stop o
  | .operation => ∃ stop, seedStop c p = some stop ∧ OnSeed text p (operation text p) stop o
  | .items => ∃ stop, seedStop c p = some stop ∧ OnSeed text p Found.append stop o

/-- The seed of the boundary at the position is a chain. -/
def Seeded (text : Text) (p : Nat) (best : Option Changes) : Prop :=
  ∀ changes, best = some changes → Chain text p changes.found

/-- What is asked for by role: what is below the boundary, where the boundary has a seed. -/
def asked (text : Text) (c : Scope) (r : Role) (p : Nat) : Prop :=
  match r with
  | .boundary => ∀ best, c.seeds.get? (keyOf p) = some best → Seeded text p best
  | .alternatives | .operation | .items =>
      ∃ best, c.seeds.get? (keyOf p) = some best ∧ Seeded text p best

/-- The roles in the grammar. -/
def roles (text : Text) : Roles Role where
  grammar := leftSum
  text := text
  role := role
  told := told text
  asked := asked text

/-- The end of the seed is all that is seen of a scope. -/
theorem told_congr {r : Role} (hstop : seedStop c p = seedStop c' p) (h : told text c r p o) :
    told text c' r p o := by
  unfold told at h ⊢
  rw [← hstop]
  exact h

theorem seedStop_eq (hget : c.seeds.get? (keyOf p) = some best) :
    seedStop c p = some (best.map Changes.stop) :=
  congrArg (Option.map _) hget

/-- What the alternatives tell over a seed. -/
theorem alternatives_of_tell (h : (roles text).Tells c alternatives p o)
    (hget : c.seeds.get? (keyOf p) = some best) :
    Alternatives text p (best.map Changes.stop) o := by
  obtain ⟨stop, hstop, halternatives⟩ := h
  cases (seedStop_eq hget).symm.trans hstop
  exact halternatives

/-- Where the boundary has a seed, it does what the seed does. -/
theorem seed_of_boundary (h : (roles text).Tells c boundary p o)
    (hget : c.seeds.get? (keyOf p) = some best) :
    o.map Found.stop = best.map Changes.stop ∧ ∀ f, o = some f → Chain text p f := by
  rcases h with ⟨stop, hstop, hends, hfound⟩ | ⟨hnone, -⟩
  · cases (seedStop_eq hget).symm.trans hstop
    exact ⟨hends, hfound⟩
  · cases (seedStop_eq hget).symm.trans hnone

/-- The seed, a plus and a number. -/
theorem items_of_each (hget : c.seeds.get? (keyOf p) = some best)
    (h : Each ((roles text).Tells c) [boundary, plusSign, operand] p o) :
    OnSeed text p Found.append (best.map Changes.stop) o := by
  cases h with
  | fail _ hnone =>
      rw [← (seed_of_boundary hnone hget).1]
      exact rfl
  | next hsome hrest =>
      obtain ⟨hends, hfound⟩ := seed_of_boundary hsome hget
      rw [← hends]
      refine ⟨_, _, hfound _ rfl, rfl, hrest.imp ?_, rfl⟩
      intro i hi q o' htell
      have hplain : role i = none := by
        rcases List.mem_pair.mp hi with rfl | rfl <;> rfl
      exact (Roles.tells_plain (R := roles text) hplain).mp htell

/-- An operation on the seed, or a number. -/
theorem alternatives_of_first (hget : c.seeds.get? (keyOf p) = some best)
    (h : First ((roles text).Tells c) [sum, number] p o) :
    Alternatives text p (best.map Changes.stop) o := by
  have honseed : ∀ {o}, (roles text).Tells c sum p o →
      OnSeed text p (operation text p) (best.map Changes.stop) o := by
    rintro o ⟨stop, hstop, honseed⟩
    cases (seedStop_eq hget).symm.trans hstop
    exact honseed
  cases h with
  | @here _ _ f _ hsome => exact Or.inl ⟨f, rfl, honseed hsome⟩
  | next hnone hrest =>
      refine Or.inr ⟨honseed hnone, ?_⟩
      cases hrest with
      | here _ hsome => exact hsome
      | next hnone hnil =>
          cases hnil
          exact hnone

/-- Where the items of an operation are asked for. -/
theorem asks_items (hp : p ≤ text.length) (hget : c.seeds.get? (keyOf p) = some best)
    (hseeded : Seeded text p best) :
    AskEach ((roles text).Tells c) ((roles text).Asks c) [boundary, plusSign, operand] p := by
  refine ⟨⟨hp, fun best' hget' => ?_⟩, ?_⟩
  · cases hget.symm.trans hget'
    exact hseeded
  · intro f hsome
    have hend := ((seed_of_boundary hsome hget).2 f rfl).within.stop
    refine ⟨Roles.asks_plain rfl hend, ?_⟩
    intro f' hsign
    obtain ⟨rfl, hplus⟩ := isSign_plus.met hsign
    exact ⟨Roles.asks_plain rfl (rest_cons hplus).1, fun _ _ => trivial⟩

end Told

/-- The protocol.  What is memoized may be told in every scope that looks the same. -/
def protocol (text : Text) : Protocol :=
  (roles text).protocol (roles text).Kept

/-! ## Forms -/

section Forms

variable {text : Text} {call call' : Caller} {m : Machine} {id : ExprId}

/-- The boundary replays its seed, or grows a chain until nothing follows. -/
theorem boundary_told (hcall : (protocol text).Serves (roles text).Asks call call')
    (hready : Ready leftSum m) (hkeeps : (protocol text).Keeps m) (hp : m.state.stop ≤ text.length)
    (hseeds : ∀ best, m.state.seeds.get? (keyOf m.state.stop) = some best →
      Seeded text m.state.stop best) :
    Twins m (fun _ => True) (Growth.leftRecursive call text boundary alternatives false)
      (Growth.leftRecursive call' text boundary alternatives false)
      ((protocol text).Leaves (told text m.state.scope .boundary m.state.stop) m) := by
  have hkey : keyOf m.state.stop = { expr := boundary, position := m.state.stop } := rfl
  -- the scope in which the alternatives are asked for while the boundary grows
  have hget : ∀ best, ((m.state.scope.seeded (keyOf m.state.stop) none).seeded
      (keyOf m.state.stop) best).seeds.get? (keyOf m.state.stop) = some best := by
    intro best
    rw [Scope.seeded, Seeds.get?_insert, if_pos rfl]
  refine Growth.leftRecursive_told hcall le_rfl boundary alternatives false hready hkeeps hkey
    ?_ ?_ ?_
  · intro seed hseed
    refine ⟨fun _ _ => Or.inl trivial, Or.inl ⟨_, seedStop_eq hseed, ?_, ?_⟩⟩
    · cases seed <;> rfl
    · intro f hf
      obtain ⟨changes, rfl, rfl⟩ := Option.map_eq_some_iff.mp hf
      exact hseeds _ hseed changes rfl
  · rintro - ⟨⟩
  · intro hnone _
    refine ⟨Seeded text m.state.stop, ⟨?_, ?_, ?_⟩, by rintro changes ⟨⟩, ?_⟩
    · intro best hseeded
      exact ⟨hp, best, hget best, hseeded⟩
    · intro best f _ htell
      have hwithin := (alternatives_of_tell htell (hget best)).chain.within
      exact ⟨hwithin.forward, hwithin.stop⟩
    · rintro best changes _ htell _ _ _ ⟨⟩
      exact (alternatives_of_tell htell (hget best)).chain
    · intro best o hseeded htell hends
      refine Or.inr ⟨?_, (alternatives_of_tell htell (hget best)).ended hseeded hends⟩
      exact congrArg (Option.map _) hnone

/-- The shape of a role finds what the role is to tell. -/
theorem role_told (config : Config) {r : Role} {s : Shape ExprId}
    (hcall : (protocol text).Serves (roles text).Asks call call') (hready : Ready leftSum m)
    (hkeeps : (protocol text).Keeps m) (hs : leftSum.shape? id = some s) (hid : role id = some r)
    (hp : m.state.stop ≤ text.length) (hasked : asked text m.state.scope r m.state.stop) :
    Twins m (fun _ => True) (dispatch ⟨leftSum, text, config⟩ call id s)
      (dispatch ⟨leftSum, text, config⟩ call' id s)
      ((protocol text).Leaves (told text m.state.scope r m.state.stop) m) := by
  obtain rfl := id_of_role hid
  cases r with
  | boundary =>
      cases hs
      exact Twins.state_bind (boundary_told hcall hready hkeeps hp hasked)
  | alternatives =>
      cases hs
      obtain ⟨best, hget, hseeded⟩ := hasked
      have hasks : ∀ item ∈ [sum, number], (roles text).Asks m.state.scope item m.state.stop :=
        List.forall_mem_cons.mpr ⟨⟨hp, best, hget, hseeded⟩,
          List.forall_mem_singleton.mpr (Roles.asks_plain rfl hp)⟩
      refine Twins.state_bind ((Combinators.choice_told hcall _ hready hkeeps hasks).imp
        fun b m' hleaves => hleaves.imp ?_)
      intro o hfirst
      exact ⟨_, seedStop_eq hget, alternatives_of_first hget hfirst⟩
  | operation =>
      cases hs
      refine Twins.state_bind ((Combinators.capture_told hcall text items (.node "+") hready hkeeps
        ⟨hp, hasked⟩).imp fun b m' hleaves => hleaves.imp ?_)
      rintro o ⟨o', ⟨stop, hstop, honseed⟩, rfl⟩
      exact ⟨stop, hstop, honseed.captured⟩
  | items =>
      cases hs
      obtain ⟨best, hget, hseeded⟩ := hasked
      refine Twins.state_bind ((Combinators.sequence_told hcall _ hready hkeeps
        (asks_items hp hget hseeded)).imp fun b m' hleaves => hleaves.imp ?_)
      intro o heach
      exact ⟨_, seedStop_eq hget, items_of_each hget heach⟩

end Forms

/-! ## Parses -/

/-- Every match tells what its expression is to tell. -/
theorem invoke_told (text : Text) (config : Config) (nesting : Nat) :
    (protocol text).Serves (roles text).Asks (invoke ⟨leftSum, text, config⟩ nesting)
      (invoke ⟨leftSum, text, config⟩ nesting) := by
  refine (roles text).serves_invoke config plain_leftSum (fun id m hready => ?_) (role_told config)
    nesting
  refine Roles.admits_kept config hready.canonical.seeds id fun c hc hdigest r o => ?_
  exact told_congr (Seeds.get?_stop_of_digest hready.canonical.seeds hc hdigest.symm _)

/-- A parse shows a number and all the operations that follow. -/
theorem parseWith_whole {config : Config} {source : String} {r : ParseResult}
    (h : (parseWith Sample.leftRecursiveSum config source).outcome = .ok r) :
    ∃ o, Whole (.ofString source) 0 o ∧ r.Shows (.ofString source) o := by
  rw [leftRecursiveSum_eq] at h
  have hkeeps : (protocol (.ofString source)).Keeps (.initial config) :=
    Protocol.keeps_initial config trivial
  have hask : (roles (.ofString source)).Asks (Machine.initial config).state.scope boundary 0 := by
    refine ⟨Nat.zero_le _, ?_⟩
    intro best hseed
    cases hseed
  obtain ⟨o, htell, hshows⟩ := (invoke_told (.ofString source) config config.maxDepth).shows rfl
    hkeeps hask rfl h
  refine ⟨o, ?_, hshows⟩
  rcases htell with ⟨stop, hstop, -⟩ | ⟨-, hwhole⟩
  · cases hstop
  · exact hwhole

end Packrat.Sums.Left
