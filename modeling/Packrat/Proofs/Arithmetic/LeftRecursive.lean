import Packrat.Proofs.Arithmetic.Grammars
import Packrat.Proofs.Arithmetic.Semantics
import Packrat.Proofs.Peg.Roles

/-! # Arithmetic with a left-recursive rule per tier

    In the grammar with a rule per tier, each rule is a boundary that grows by the operations of its
    tier.  A seed of a boundary is what has grown so far; a boundary without a seed finds what its
    tier does. -/

namespace Packrat.Arithmetic.LeftRecursive

open Relation Matching Engine

/-! ## The grammar -/

/-- What an expression of the grammar is for, if it is no token and not below one. -/
inductive Role where
  | boundary (t : Tier)
  | alternatives (t : Tier)
  | operation (t : Tier) (op : String)
  | items (t : Tier) (op : String)
  | atom
  | group
deriving DecidableEq

/-- The rule of sums. -/
@[match_pattern] abbrev sum : ExprId := 13

/-- The rule of products. -/
@[match_pattern] abbrev product : ExprId := 27

/-- The rule of atoms. -/
@[match_pattern] abbrev atom : ExprId := 38

/-- A sum in parentheses. -/
@[match_pattern] abbrev parenthesized : ExprId := 37

def role : ExprId → Option Role
  | sum => some (.boundary .sum)
  | product => some (.boundary .product)
  | 41 => some (.alternatives .sum)
  | 42 => some (.alternatives .product)
  | 5 => some (.operation .sum "+")
  | 11 => some (.operation .sum "-")
  | 19 => some (.operation .product "*")
  | 25 => some (.operation .product "/")
  | 4 => some (.items .sum "+")
  | 10 => some (.items .sum "-")
  | 18 => some (.items .product "*")
  | 24 => some (.items .product "/")
  | atom => some .atom
  | parenthesized => some .group
  | _ => none

/-- The boundary of a tier. -/
def boundary : Tier → ExprId
  | .sum => sum
  | .product => product

/-- The token of a lexeme. -/
def token : Lexeme → ExprId
  | .number => 31
  | .mark "(" => 33
  | .mark ")" => 36
  | .mark "+" => 2
  | .mark "-" => 8
  | .mark "*" => 16
  | .mark _ => 22

/-- What the tokens of the grammar find. -/
def lexer (text : Text) : Lexer := fun x => PegAt tiered text (token x)

/-- No token is matched in place. -/
theorem token_solid (x : Lexeme) : tieredNullability.isNullable (token x) = false := by
  unfold token
  split <;> decide

/-- The tokens of the grammar match within the text and move on. -/
theorem lexer_proper (text : Text) : (lexer text).Proper text := by
  refine ⟨fun h h' => h.unique h', ?_⟩
  intro x p f hp h
  rw [← token_solid x]
  exact h.bounds nullability_tiered hp

/-- Tokens and what is below them follow the rules. -/
theorem plain_tiered : Plain tiered tieredNullability fun id => role id = none := by
  refine plain_of_solid nullability_tiered (by decide) ?_
  rintro ws ⟨⟩
  exact ⟨_, skippable_set rfl rfl (by decide), .inl rfl⟩

/-! ## Shapes -/

section Shapes

variable {id : ExprId} {t : Tier} {op : String}

/-- The expression of the operands of a tier. -/
def operand : Tier → ExprId
  | .sum => product
  | .product => atom

/-- The alternatives of a tier. -/
def alternatives : Tier → ExprId
  | .sum => 41
  | .product => 42

/-- A tier is played by a boundary around its alternatives. -/
theorem of_boundary (h : role id = some (.boundary t)) : id = boundary t ∧
    tiered.shape? id = some (.leftRecursive (alternatives t) false) := by
  unfold role at h
  split at h <;> cases h <;> exact ⟨rfl, rfl⟩

/-- Its alternatives are its two operations and its operand. -/
theorem of_alternatives (h : role id = some (.alternatives t)) : ∃ i j,
    tiered.shape? id = some (.choice [i, j, operand t]) ∧ role i = some (.operation t t.first) ∧
      role j = some (.operation t t.second) := by
  unfold role at h
  split at h <;> cases h <;> exact ⟨_, _, rfl, rfl, rfl⟩

/-- An operation is captured under its name. -/
theorem of_operation (h : role id = some (.operation t op)) : ∃ i,
    tiered.shape? id = some (.capture i (.node op)) ∧ role i = some (.items t op) := by
  unfold role at h
  split at h <;> cases h <;> exact ⟨_, rfl, rfl⟩

/-- It has the tier itself on its left and its operand on its right. -/
theorem of_items (h : role id = some (.items t op)) :
    tiered.shape? id = some (.sequence [boundary t, token (.mark op), operand t]) := by
  unfold role at h
  split at h <;> cases h <;> rfl

/-- An atom is a number or what stands in parentheses. -/
theorem of_atom (h : role id = some .atom) :
    tiered.shape? id = some (.choice [token .number, parenthesized]) := by
  unfold role at h
  split at h <;> cases h
  rfl

/-- In parentheses there is a sum. -/
theorem of_group (h : role id = some .group) : tiered.shape? id
    = some (.sequence [token (.mark "("), boundary .sum, token (.mark ")")]) := by
  unfold role at h
  split at h <;> cases h
  rfl

theorem role_boundary (t : Tier) : role (boundary t) = some (.boundary t) := by
  cases t <;> rfl

theorem role_alternatives (t : Tier) : role (alternatives t) = some (.alternatives t) := by
  cases t <;> rfl

end Shapes

/-! ## The protocol -/

section Protocol

variable {text : Text} {c c' : Scope} {id : ExprId} {t : Tier} {op : String} {p q : Nat}
variable {o : Option Found} {f : Found} {best : Option Changes}

/-- The key of the seed of a tier. -/
def keyOf (t : Tier) (p : Nat) : SeedKey :=
  { expr := boundary t, position := p }

/-- What the alternatives of a tier find over a seed. -/
def Alternatives (text : Text) (t : Tier) (best : Option Changes) (p : Nat) (o : Option Found) :
    Prop :=
  (∃ f, Step (lexer text) text t best p (some f) ∧ o = some f) ∨
    Step (lexer text) text t best p none ∧ Arith (lexer text) text t.operand p o

/-- What is told by role: a boundary tells its seed, or what its tier finds. -/
def told (text : Text) (c : Scope) (r : Role) (p : Nat) (o : Option Found) : Prop :=
  match r with
  | .atom => Arith (lexer text) text .atom p o
  | .group => Arith (lexer text) text .parenthesized p o
  | .boundary t => (∃ seed, c.seeds.get? (keyOf t p) = some seed ∧ o = seed.map Changes.found) ∨
      c.seeds.get? (keyOf t p) = none ∧ Arith (lexer text) text (.tier t) p o
  | .alternatives t => ∃ best, c.seeds.get? (keyOf t p) = some best ∧ Alternatives text t best p o
  | .operation t op => ∃ best o', c.seeds.get? (keyOf t p) = some best ∧
      OnSeed (lexer text) text t best op p o' ∧ o = o'.map (wrapped text op p)
  | .items t op => ∃ best, c.seeds.get? (keyOf t p) = some best ∧
      OnSeed (lexer text) text t best op p o

/-- The operands of a tier have no seed. -/
def Fresh (c : Scope) : Tier → Nat → Prop
  | .sum, p => c.seeds.get? (keyOf .product p) = none
  | .product, _ => True

/-- A tier has a seed from which it may go on. -/
def Seeded (text : Text) (c : Scope) (t : Tier) (p : Nat) : Prop :=
  ∃ best, c.seeds.get? (keyOf t p) = some best ∧ Grows (lexer text) text t p best

/-- What is asked for by role: operations where their tier has a seed, and a tier before its
    operands. -/
def asked (text : Text) (c : Scope) (r : Role) (p : Nat) : Prop :=
  match r with
  | .boundary t => Behind text c p ∧ (c.seeds.get? (keyOf t p) = none → Fresh c t p)
  | .alternatives t => Behind text c p ∧ Seeded text c t p ∧ Fresh c t p
  | .operation t _ | .items t _ => Behind text c p ∧ Seeded text c t p
  | .atom | .group => Behind text c p

/-- The roles in the grammar. -/
def roles (text : Text) : Roles Role where
  grammar := tiered
  text := text
  role := role
  told := told text
  asked := asked text

/-- Tokens find what the lexer does. -/
theorem tokens (text : Text) : (roles text).Tokens token (lexer text) := by
  refine ⟨fun x => ?_, id⟩
  unfold token
  split <;> rfl

/-- Ahead, nothing has a seed. -/
theorem fresh_of_behind (h : Behind text c p) (hpq : p < q) (t : Tier) : Fresh c t q := by
  cases t with
  | sum => exact h.unseeded hpq
  | product => trivial

/-- A tier may be asked for where the seeds behind were found by the grammar: it has a seed here
    itself, or its operands have none. -/
theorem asks_boundary (hp : p ≤ text.length) (hbehind : Behind text c p)
    (hfresh : c.seeds.get? (keyOf t p) = none → Fresh c t p) :
    (roles text).Asks c (boundary t) p :=
  Roles.asks_role (role_boundary t) hp ⟨hbehind, hfresh⟩

/-- An operand may be asked for wherever its tier may be entered. -/
theorem asks_operand (hp : p ≤ text.length) (hbehind : Behind text c p) :
    (roles text).Asks c (operand t) p := by
  cases t with
  | sum => exact asks_boundary (t := .product) hp hbehind fun _ => trivial
  | product => exact ⟨hp, hbehind⟩

/-- A tier tells its seed while there is one, and what it finds otherwise. -/
theorem tells_boundary : (roles text).Tells c (boundary t) p o ↔
    (∃ seed, c.seeds.get? (keyOf t p) = some seed ∧ o = seed.map Changes.found) ∨
      c.seeds.get? (keyOf t p) = none ∧ Arith (lexer text) text (.tier t) p o :=
  Roles.tells_role (R := roles text) (role_boundary t)

/-- Where a tier has no seed, it tells what it finds. -/
theorem arith_of_boundary (h : (roles text).Tells c (boundary t) p o)
    (hnone : c.seeds.get? (keyOf t p) = none) : Arith (lexer text) text (.tier t) p o := by
  rcases tells_boundary.mp h with ⟨seed, hget, -⟩ | ⟨-, harith⟩
  · cases hget.symm.trans hnone
  · exact harith

/-- Where a tier has a seed, it tells the seed. -/
theorem seed_of_boundary (h : (roles text).Tells c (boundary t) p o)
    (hget : c.seeds.get? (keyOf t p) = some best) : o = best.map Changes.found := by
  rcases tells_boundary.mp h with ⟨seed, hget', rfl⟩ | ⟨hnone, -⟩
  · cases hget.symm.trans hget'
    rfl
  · cases hget.symm.trans hnone

/-- An operand that has no seed tells what it finds. -/
theorem tells_operand (hfresh : Fresh c t p) (h : (roles text).Tells c (operand t) p o) :
    Arith (lexer text) text t.operand p o := by
  cases t with
  | product => exact h
  | sum => exact arith_of_boundary (t := .product) h hfresh

end Protocol

/-- The protocol; nothing is memoized. -/
def protocol (text : Text) : Protocol :=
  (roles text).protocol fun _ _ => False

/-! ## Forms -/

section Forms

variable {text : Text} {call call' : Caller} {m : Machine} {id : ExprId} {t : Tier} {op : String}

/-- What the alternatives find lies within the text. -/
theorem Alternatives.bounds {p : Nat} {best : Option Changes} {f : Found} (hp : p ≤ text.length)
    (hgrows : Grows (lexer text) text t p best) (h : Alternatives text t best p (some f)) :
    p ≤ f.stop ∧ f.stop ≤ text.length := by
  have hlex := lexer_proper text
  rcases h with ⟨f', hstep, ho⟩ | ⟨-, hoperand⟩
  · cases ho
    obtain ⟨seed, rfl, hfarther, hstop⟩ := hstep.surpasses hlex hgrows rfl
    exact ⟨(hgrows.forward hlex hp rfl).1.trans hfarther.le, hstop⟩
  · exact ⟨(hoperand.operand_within hlex hp).forward, (hoperand.operand_within hlex hp).stop⟩

/-- An alternative that gets farther than the seed is one from which the tier may go on. -/
theorem Alternatives.grows {p : Nat} {best : Option Changes} {changes : Changes}
    (hp : p ≤ text.length) (hgrows : Grows (lexer text) text t p best)
    (h : Alternatives text t best p (some changes.found))
    (hfarther : Growth.advances changes.stop best = true) :
    Grows (lexer text) text t p (some changes) := by
  have hlex := lexer_proper text
  rcases h with ⟨f, hstep, ho⟩ | ⟨-, hoperand⟩
  · cases ho
    exact hgrows.step hlex hstep
  · cases best with
    | none => exact grows_operand hlex hp hoperand
    | some seed =>
        -- the operand alone gets no farther than a seed that has grown from it
        obtain ⟨⟨f, hfirst, hle⟩, -⟩ := hgrows seed rfl
        cases hfirst.unique hlex hoperand
        have hlt : seed.stop < changes.stop := of_decide_eq_true hfarther
        exact absurd hle hlt.not_ge

/-- Where no alternative gets farther than the seed, the seed is what the tier finds. -/
theorem Alternatives.tier {p : Nat} {best : Option Changes} {o : Option Found}
    (hgrows : Grows (lexer text) text t p best) (h : Alternatives text t best p o)
    (hends : ¬ Growth.Surpasses best o) :
    Arith (lexer text) text (.tier t) p (best.map Changes.found) := by
  have hlex := lexer_proper text
  rcases h with ⟨f, hstep, rfl⟩ | ⟨hstop, hoperand⟩
  · obtain ⟨seed, rfl, hfarther, -⟩ := hstep.surpasses hlex hgrows rfl
    exact absurd ⟨f, rfl, decide_eq_true hfarther⟩ hends
  · cases best with
    | some seed => exact hgrows.stop hstop
    | none =>
        cases o with
        | none => exact .tier_none hoperand
        | some f => exact absurd ⟨f, rfl, rfl⟩ hends

/-- A tier grows by its operations. -/
theorem boundary_told (hcall : (protocol text).Serves (roles text).Asks call call')
    (hready : Ready tiered m) (hkeeps : (protocol text).Keeps m)
    (hp : m.state.stop ≤ text.length) (hbehind : Behind text m.state.scope m.state.stop)
    (hfresh : m.state.seeds.get? (keyOf t m.state.stop) = none →
      Fresh m.state.scope t m.state.stop) :
    Twins m (fun _ => True)
      (Growth.leftRecursive call text (boundary t) (alternatives t) false)
      (Growth.leftRecursive call' text (boundary t) (alternatives t) false)
      ((protocol text).Leaves ((roles text).Tells m.state.scope (boundary t) m.state.stop) m) := by
  have hkey : keyOf t m.state.stop = { expr := boundary t, position := m.state.stop } := rfl
  refine Growth.leftRecursive_told hcall le_rfl (boundary t) (alternatives t) false hready hkeeps
    hkey ?_ ?_ ?_
  · intro seed hget
    exact ⟨fun _ _ => Or.inl trivial, tells_boundary.mpr (Or.inl ⟨seed, hget, rfl⟩)⟩
  · rintro - hblocked
    cases hblocked
  · intro hnone _
    dsimp only
    -- the scope differs from that of the boundary in the seed only
    generalize hscope : ({ m.state.scope with
      seeds := if false = true then _ else _ } : Scope) = c
    have hget : ∀ best key, (c.seeded (keyOf t m.state.stop) best).seeds.get? key =
        if key = keyOf t m.state.stop then some best else m.state.seeds.get? key := by
      intro best key
      rw [← hscope]
      simp only [Scope.seeded, Bool.false_eq_true, if_false, Seeds.get?_insert]
      split <;> rfl
    have htold : ∀ {best o}, (roles text).Tells (c.seeded (keyOf t m.state.stop) best)
        (alternatives t) m.state.stop o → Alternatives text t best m.state.stop o := by
      intro best o htell
      obtain ⟨best', hbest', halternatives⟩ := (Roles.tells_role (role_alternatives t)).mp htell
      rw [hget, if_pos rfl] at hbest'
      cases hbest'
      exact halternatives
    refine ⟨Grows (lexer text) text t m.state.stop, ⟨?_, ?_, ?_⟩, grows_none, ?_⟩
    · intro best hgrows
      refine Roles.asks_role (role_alternatives t) hp
        ⟨?_, ⟨best, (hget best _).trans (if_pos rfl), hgrows⟩, ?_⟩
      · have hkeyed : Behind text m.state.scope (keyOf t m.state.stop).position := hbehind
        exact hkeyed.seeded (lexer_proper text) hp hgrows (hget best)
      · have hfresh := hfresh hnone
        cases t with
        | product => trivial
        | sum =>
            refine (hget best _).trans ((if_neg ?_).trans hfresh)
            intro hsame
            cases congrArg SeedKey.expr hsame
    · intro best f hgrows htell
      exact (htold htell).bounds hp hgrows
    · intro best changes hgrows htell hfarther _
      exact (htold htell).grows hp hgrows hfarther
    · intro best o hgrows htell hends
      exact tells_boundary.mpr (Or.inr ⟨hnone, (htold htell).tier hgrows hends⟩)

/-- A sequence of the seed of a tier, an operator and an operand. -/
theorem items_told (hcall : (protocol text).Serves (roles text).Asks call call')
    (hready : Ready tiered m) (hkeeps : (protocol text).Keeps m) (hp : m.state.stop ≤ text.length)
    (hbehind : Behind text m.state.scope m.state.stop)
    (hseeded : Seeded text m.state.scope t m.state.stop) :
    Twins m (fun _ => True)
      (Combinators.sequence call [boundary t, token (.mark op), operand t])
      (Combinators.sequence call' [boundary t, token (.mark op), operand t])
      ((protocol text).Leaves (fun o => ∃ best,
        m.state.scope.seeds.get? (keyOf t m.state.stop) = some best ∧
          OnSeed (lexer text) text t best op m.state.stop o) m) := by
  obtain ⟨best, hget, hgrows⟩ := hseeded
  have hsome : m.state.scope.seeds.get? (keyOf t m.state.stop) ≠ none := by simp [hget]
  have hleft : ∀ o, (roles text).Tells m.state.scope (boundary t) m.state.stop o →
      o = best.map Changes.found :=
    fun o htell => seed_of_boundary htell hget
  refine (operation_told (lexer_proper text) hcall hready hkeeps hp hgrows
    ⟨asks_boundary hp hbehind fun hnone => absurd hnone hsome, hleft⟩ ?_ ?_ ?_).imp
    fun b m' hleaves => hleaves.imp fun o honseed => ⟨best, hget, honseed⟩
  · intro q hq
    exact (tokens text).served m.state.scope (.mark op) hq
  · intro q hpq hq
    exact asks_operand hq (hbehind.later hpq.le)
  · intro q o hpq
    exact tells_operand (fresh_of_behind hbehind hpq t)

/-- A sum in parentheses. -/
theorem group_told (hcall : (protocol text).Serves (roles text).Asks call call')
    (hready : Ready tiered m) (hkeeps : (protocol text).Keeps m) (hp : m.state.stop ≤ text.length)
    (hbehind : Behind text m.state.scope m.state.stop) :
    Twins m (fun _ => True)
      (Combinators.sequence call [token (.mark "("), boundary .sum, token (.mark ")")])
      (Combinators.sequence call' [token (.mark "("), boundary .sum, token (.mark ")")])
      ((protocol text).Leaves (Arith (lexer text) text .parenthesized m.state.stop) m) := by
  refine parenthesized_told (lexer_proper text) hcall hready hkeeps hp
    ((tokens text).served m.state.scope (.mark "(") hp) ?_ ?_
  · intro q hpq hq
    refine ⟨asks_boundary hq (hbehind.later hpq.le) fun _ => fresh_of_behind hbehind hpq .sum, ?_⟩
    exact fun o htell => arith_of_boundary (t := .sum) htell (hbehind.unseeded hpq)
  · intro q hq
    exact (tokens text).served m.state.scope (.mark ")") hq

/-- The alternatives of a tier over a seed. -/
theorem alternatives_of_first {c : Scope} {i j : ExprId} {p : Nat} {o : Option Found}
    {best : Option Changes} (hget : c.seeds.get? (keyOf t p) = some best) (hfresh : Fresh c t p)
    (hi : role i = some (.operation t t.first)) (hj : role j = some (.operation t t.second))
    (h : First ((roles text).Tells c) [i, j, operand t] p o) : Alternatives text t best p o := by
  have htold : ∀ {i op o}, role i = some (.operation t op) → (roles text).Tells c i p o →
      ∃ o', OnSeed (lexer text) text t best op p o' ∧ o = o'.map (wrapped text op p) := by
    intro i op o hi htell
    obtain ⟨best', o', hget', honseed, ho⟩ := (Roles.tells_role hi).mp htell
    cases hget.symm.trans hget'
    exact ⟨o', honseed, ho⟩
  cases h with
  | here _ hfound =>
      obtain ⟨o', honseed, ho⟩ := htold hi hfound
      obtain ⟨f, rfl, rfl⟩ := Option.map_eq_some_iff.mp ho.symm
      exact Or.inl ⟨_, .first honseed, rfl⟩
  | next hnone hrest =>
      obtain ⟨o', honseed, ho⟩ := htold hi hnone
      obtain rfl : o' = none := Option.map_eq_none_iff.mp ho.symm
      cases hrest with
      | here _ hfound =>
          obtain ⟨o', honseed', ho'⟩ := htold hj hfound
          obtain ⟨f, rfl, rfl⟩ := Option.map_eq_some_iff.mp ho'.symm
          exact Or.inl ⟨_, .second honseed honseed', rfl⟩
      | next hnone' hrest' =>
          obtain ⟨o', honseed', ho'⟩ := htold hj hnone'
          obtain rfl : o' = none := Option.map_eq_none_iff.mp ho'.symm
          refine Or.inr ⟨.stop honseed honseed', ?_⟩
          cases hrest' with
          | here _ hfound => exact tells_operand hfresh hfound
          | next hnone'' hrest'' =>
              cases hrest''
              exact tells_operand hfresh hnone''

/-- The shape of a role finds what the role is to tell. -/
theorem role_told (config : Config) {r : Role} {s : Shape ExprId}
    (hcall : (protocol text).Serves (roles text).Asks call call') (hready : Ready tiered m)
    (hkeeps : (protocol text).Keeps m) (hs : tiered.shape? id = some s) (hid : role id = some r)
    (hp : m.state.stop ≤ text.length) (hasked : asked text m.state.scope r m.state.stop) :
    Twins m (fun _ => True) (dispatch ⟨tiered, text, config⟩ call id s)
      (dispatch ⟨tiered, text, config⟩ call' id s)
      ((protocol text).Leaves (told text m.state.scope r m.state.stop) m) := by
  -- the shape that belongs to a role
  have hshape : ∀ {s' : Shape ExprId}, tiered.shape? id = some s' → s = s' :=
    fun hs' => Option.some.inj (hs.symm.trans hs')
  cases r with
  | boundary t =>
      obtain ⟨rfl, hs'⟩ := of_boundary hid
      rw [hshape hs']
      refine Twins.state_bind ((boundary_told hcall hready hkeeps hp hasked.1 hasked.2).imp
        fun b m' hleaves => hleaves.imp ?_)
      exact fun o => tells_boundary.mp
  | alternatives t =>
      obtain ⟨hbehind, ⟨best, hget, hgrows⟩, hfresh⟩ := hasked
      obtain ⟨i, j, hs', hi, hj⟩ := of_alternatives hid
      rw [hshape hs']
      have hoperation : ∀ {i op}, role i = some (.operation t op) →
          (roles text).Asks m.state.scope i m.state.stop :=
        fun hi => Roles.asks_role hi hp ⟨hbehind, best, hget, hgrows⟩
      have hasks : ∀ item ∈ [i, j, operand t],
          (roles text).Asks m.state.scope item m.state.stop := by
        simp only [List.forall_mem_cons]
        exact ⟨hoperation hi, hoperation hj, asks_operand hp hbehind, by rintro item ⟨⟩⟩
      refine Twins.state_bind ((Combinators.choice_told hcall _ hready hkeeps hasks).imp
        fun b m' hleaves => hleaves.imp ?_)
      intro o hfirst
      exact ⟨best, hget, alternatives_of_first hget hfresh hi hj hfirst⟩
  | operation t op =>
      obtain ⟨i, hs', hi⟩ := of_operation hid
      rw [hshape hs']
      refine Twins.state_bind ((Combinators.capture_told hcall text i (.node op) hready hkeeps
        (Roles.asks_role hi hp hasked)).imp fun b m' hleaves => hleaves.imp ?_)
      rintro o ⟨o', htell, rfl⟩
      obtain ⟨best, hget, honseed⟩ := (Roles.tells_role hi).mp htell
      exact ⟨best, o', hget, honseed, rfl⟩
  | items t op =>
      rw [hshape (of_items hid)]
      exact Twins.state_bind (items_told hcall hready hkeeps hp hasked.1 hasked.2)
  | atom =>
      rw [hshape (of_atom hid)]
      obtain ⟨haskNumber, hnumber⟩ := (tokens text).served m.state.scope .number hp
      have hasks : ∀ item ∈ [token .number, parenthesized],
          (roles text).Asks m.state.scope item m.state.stop :=
        List.forall_mem_cons.mpr ⟨haskNumber, List.forall_mem_singleton.mpr ⟨hp, hasked⟩⟩
      refine Twins.state_bind ((Combinators.choice_told hcall _ hready hkeeps hasks).imp
        fun b m' hleaves => hleaves.imp ?_)
      exact fun o hfirst => atom_of_first hfirst hnumber fun o htell => htell
  | group =>
      rw [hshape (of_group hid)]
      exact Twins.state_bind (group_told hcall hready hkeeps hp hasked)

end Forms

/-! ## Parses -/

/-- Every invocation keeps to the protocol, which dispatches by role. -/
theorem invoke_told (text : Text) {config : Config} (hconfig : config.memoization = .none)
    (nesting : Nat) :
    (protocol text).Serves (roles text).Asks (invoke ⟨tiered, text, config⟩ nesting)
      (invoke ⟨tiered, text, config⟩ nesting) := by
  refine (roles text).serves_invoke config plain_tiered (fun id m _ => ?_) (role_told config)
    nesting
  exact Protocol.admits_of_none rfl trivial hconfig (fun _ _ => not_false) (fun _ => trivial) _ _

/-- A parse shows what a sum at the start of the text finds. -/
theorem parseWith_arith {config : Config} (hconfig : config.memoization = .none) {source : String}
    {r : ParseResult} (h : (parseWith tiered config source).outcome = .ok r) :
    ∃ o, Arith (lexer (.ofString source)) (.ofString source) (.tier .sum) 0 o ∧
      r.Shows (.ofString source) o := by
  have hkeeps : (protocol (.ofString source)).Keeps (.initial config) :=
    Protocol.keeps_initial config trivial
  have hask : (roles (.ofString source)).Asks (Machine.initial config).state.scope sum 0 := by
    refine asks_boundary (t := .sum) (Nat.zero_le _) ?_ fun _ => rfl
    intro key seed hseed
    cases hseed
  obtain ⟨o, htell, hshows⟩ := (invoke_told (.ofString source) hconfig config.maxDepth).shows rfl
    hkeeps hask rfl h
  exact ⟨o, arith_of_boundary (t := .sum) htell rfl, hshows⟩

end Packrat.Arithmetic.LeftRecursive
