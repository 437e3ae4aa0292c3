import Packrat.Proofs.Arithmetic.LeftRecursive
import Packrat.Proofs.Peg.Renaming

/-! # Arithmetic with one cluster

    In the grammar with a cluster, the floor of the cluster says which part of arithmetic it finds:
    all of a sum, a product, or an atom alone.  While a group runs, the floor is that of the operands
    of its tier, and the seed is what has grown so far; groups hand the seed on from tier to tier. -/

namespace Packrat.Arithmetic.Cluster

open Relation Matching Engine
open LeftRecursive (lexer lexer_proper)

/-! ## Expressions -/

/-- What an expression of the grammar is for, if it is no token and not below one. -/
inductive Role where
  | cluster
  | operation (t : Tier) (op : String)
  | items (t : Tier) (op : String)
  | group
  | reset
deriving DecidableEq

/-- The rule. -/
@[match_pattern] abbrev cluster : ExprId := 35

/-- The rule at the lowest precedence. -/
@[match_pattern] abbrev reset : ExprId := 7

/-- A sum in parentheses. -/
@[match_pattern] abbrev parenthesized : ExprId := 10

@[match_pattern] abbrev product : ExprId := 16

@[match_pattern] abbrev quotient : ExprId := 22

@[match_pattern] abbrev sum : ExprId := 28

@[match_pattern] abbrev difference : ExprId := 34

def role : ExprId → Option Role
  | cluster => some .cluster
  | product => some (.operation .product "*")
  | quotient => some (.operation .product "/")
  | sum => some (.operation .sum "+")
  | difference => some (.operation .sum "-")
  | 15 => some (.items .product "*")
  | 21 => some (.items .product "/")
  | 27 => some (.items .sum "+")
  | 33 => some (.items .sum "-")
  | parenthesized => some .group
  | reset => some .reset
  | _ => none

/-- The token of a lexeme. -/
def token : Lexeme → ExprId
  | .number => 3
  | .mark "(" => 5
  | .mark ")" => 9
  | .mark "+" => 25
  | .mark "-" => 31
  | .mark "*" => 13
  | .mark _ => 19

/-- The expressions of tokens and blanks, as they are numbered in the grammar with a rule per tier. -/
def inTiered : ExprId → ExprId
  | 0 => 28
  | 1 => 29
  | 2 => 30
  | 3 => 31
  | 4 => 32
  | 5 => 33
  | 8 => 35
  | 9 => 36
  | 12 => 15
  | 13 => 16
  | 18 => 21
  | 19 => 22
  | 24 => 1
  | 25 => 2
  | 30 => 7
  | 31 => 8
  | 36 => 39
  | _ => 40

/-- The expressions of tokens and blanks. -/
def lexical : List ExprId :=
  [0, 1, 2, 3, 4, 5, 8, 9, 12, 13, 18, 19, 24, 25, 30, 31, 36, 37]

/-- The tokens and blanks of this grammar are those of the tiers under other ids. -/
theorem climbing_renames : climbing.Renames tiered inTiered (· ∈ lexical) := by
  have hshape : ∀ id ∈ lexical,
      tiered.shape? (inTiered id) = (climbing.shape? id).map (Shape.map inTiered) := by
    simp only [lexical, List.forall_mem_cons]
    refine ⟨rfl, rfl, rfl, rfl, rfl, rfl, rfl, rfl, rfl, rfl, rfl, rfl, rfl, rfl, rfl, rfl, rfl, rfl,
      by rintro id ⟨⟩⟩
  have hchildren : ∀ id ∈ lexical, ∀ s ∈ climbing.shape? id, ∀ child ∈ s.children,
      child ∈ lexical := by
    decide
  refine ⟨?_, fun id s hid hs => hchildren id hid s hs, rfl, ?_⟩
  · intro id s hid hs
    rw [hshape id hid, hs]
    rfl
  · rintro ws ⟨⟩
    decide

theorem token_lexical (x : Lexeme) : token x ∈ lexical := by
  unfold token
  split <;> decide

/-- A token is renamed to the token of the same lexeme. -/
theorem inTiered_token (x : Lexeme) : inTiered (token x) = LeftRecursive.token x := by
  unfold token
  split <;> first | rfl | skip
  rename_i op h1 h2 h3 h4 h5
  unfold LeftRecursive.token
  split <;> simp_all [inTiered]

/-- Tokens find the same in both grammars. -/
theorem lexer_of_pegAt {text : Text} {p : Nat} {o : Option Found} (x : Lexeme)
    (h : PegAt climbing text (token x) p o) : lexer text x p o := by
  have hpeg := h.rename climbing_renames (token_lexical x)
  rw [inTiered_token] at hpeg
  exact hpeg

/-- Tokens and what is below them follow the rules. -/
theorem plain_climbing : Plain climbing climbingNullability fun id => role id = none := by
  refine plain_of_solid nullability_climbing (by decide) ?_
  rintro ws ⟨⟩
  exact ⟨_, skippable_set rfl rfl (by decide), .inl rfl⟩

/-! ## Groups -/

/-- Atoms, which do not grow. -/
def atoms : Group ExprId :=
  { precedence := 3, kind := .once, alternatives := [token .number, parenthesized] }

/-- The operations of a tier. -/
def operations : Tier → Group ExprId
  | .product => { precedence := 2, kind := .leftAssociative, alternatives := [product, quotient] }
  | .sum => { precedence := 1, kind := .leftAssociative, alternatives := [sum, difference] }

/-- What the cluster finds under a floor. -/
def partAt (floor : Precedence) : Part :=
  if floor ≤ 1 then .tier .sum else if floor ≤ 2 then .tier .product else .atom

/-- The floors there are: that of a reset, and those of operands. -/
def floors : List Precedence :=
  [0, 2, 3]

/-- The groups that make up a part the cluster finds. -/
def groups : Part → List (Group ExprId)
  | .atom => [atoms]
  | .tier .product => [atoms, operations .product]
  | .tier .sum => [atoms, operations .product, operations .sum]
  | .parenthesized | .operation _ _ _ | .grown _ _ => []

/-- A floor admits the operations of its part of the grammar, which are a prefix of the groups. -/
theorem admitted (floor : Precedence) (h : floor ∈ floors) :
    ((groups (.tier .sum)).takeWhile fun group => floor ≤ group.precedence)
      = groups (partAt floor) := by
  simp only [floors, List.mem_cons, List.not_mem_nil, or_false] at h
  rcases h with rfl | rfl | rfl <;> rfl

/-- Operations have operands of their tier. -/
theorem partAt_levelFloor (t : Tier) : partAt (Growth.levelFloor (operations t)) = t.operand := by
  cases t <;> rfl

/-- The floor of each operation is one of those that come up. -/
theorem levelFloor_mem (t : Tier) : Growth.levelFloor (operations t) ∈ floors := by
  cases t <;> decide

/-! ## Shapes -/

section Shapes

variable {id : ExprId} {t : Tier} {op : String}

/-- The cluster holds the operations of both tiers. -/
theorem of_cluster (h : role id = some .cluster) : id = cluster ∧
    climbing.shape? id = some (.cluster (groups (.tier .sum))) := by
  unfold role at h
  split at h <;> cases h
  exact ⟨rfl, rfl⟩

/-- An operation is captured under its name. -/
theorem of_operation (h : role id = some (.operation t op)) : ∃ i,
    climbing.shape? id = some (.capture i (.node op)) ∧ role i = some (.items t op) := by
  unfold role at h
  split at h <;> cases h <;> exact ⟨_, rfl, rfl⟩

/-- Both its operands are the cluster again, and floors tell them apart. -/
theorem of_items (h : role id = some (.items t op)) :
    climbing.shape? id = some (.sequence [cluster, token (.mark op), cluster]) := by
  unfold role at h
  split at h <;> cases h <;> rfl

/-- In parentheses the cluster is reset. -/
theorem of_group (h : role id = some .group) :
    climbing.shape? id = some (.sequence [token (.mark "("), reset, token (.mark ")")]) := by
  unfold role at h
  split at h <;> cases h
  rfl

/-- A reset admits everything. -/
theorem of_reset (h : role id = some .reset) :
    climbing.shape? id = some (.minPrecedence cluster 0) := by
  unfold role at h
  split at h <;> cases h
  rfl

/-- A tier has two operations, its first and its second. -/
theorem of_operations (t : Tier) : ∃ i j, (operations t).alternatives = [i, j] ∧
    role i = some (.operation t t.first) ∧ role j = some (.operation t t.second) := by
  cases t <;> exact ⟨_, _, rfl, rfl, rfl⟩

end Shapes

/-! ## The protocol -/

section Protocol

variable {text : Text} {c : Scope} {id : ExprId} {t : Tier} {op : String} {p q : Nat}
variable {o : Option Found} {f : Found} {best : Option Changes}

/-- The key of the seed of the cluster. -/
def keyOf (p : Nat) : SeedKey :=
  { expr := cluster, position := p }

/-- What is told where a seed answers, if there is one. -/
def Replays (text : Text) (c : Scope) (part : Part) (p : Nat) (o : Option Found) : Prop :=
  (∃ seed, c.seeds.get? (keyOf p) = some seed ∧ o = seed.map Changes.found) ∨
    c.seeds.get? (keyOf p) = none ∧ Arith (lexer text) text part p o

/-- What is told by role: the cluster tells its seed, or what its floor admits. -/
def told (text : Text) (c : Scope) (r : Role) (p : Nat) (o : Option Found) : Prop :=
  match r with
  | .group => Arith (lexer text) text .parenthesized p o
  | .cluster => Replays text c (partAt (c.floors.floor cluster)) p o
  | .reset => Replays text c (.tier .sum) p o
  | .operation t op => ∃ best o', c.seeds.get? (keyOf p) = some best ∧
      OnSeed (lexer text) text t best op p o' ∧ o = o'.map (wrapped text op p)
  | .items t op => ∃ best, c.seeds.get? (keyOf p) = some best ∧
      OnSeed (lexer text) text t best op p o

/-- The group of a tier is running: there is a seed from which it may go on, and the cluster finds
    operands. -/
def Running (text : Text) (c : Scope) (t : Tier) (p : Nat) : Prop :=
  c.floors.floor cluster = Growth.levelFloor (operations t) ∧
    ∃ best, c.seeds.get? (keyOf p) = some best ∧ Grows (lexer text) text t p best

/-- What is asked for by role: operations while their group runs. -/
def asked (text : Text) (c : Scope) (r : Role) (p : Nat) : Prop :=
  match r with
  | .cluster => Behind text c p ∧ c.floors.floor cluster ∈ floors
  | .operation t _ | .items t _ => Behind text c p ∧ Running text c t p
  | .group | .reset => Behind text c p

/-- The roles in the grammar. -/
def roles (text : Text) : Roles Role where
  grammar := climbing
  text := text
  role := role
  told := told text
  asked := asked text

/-- Tokens find what the lexer does. -/
theorem tokens (text : Text) : (roles text).Tokens token (lexer text) := by
  refine ⟨fun x => ?_, lexer_of_pegAt _⟩
  unfold token
  split <;> rfl

/-- Where there is no seed, none answers. -/
theorem Replays.unseeded {part : Part} (h : Replays text c part p o)
    (hnone : c.seeds.get? (keyOf p) = none) : Arith (lexer text) text part p o := by
  rcases h with ⟨seed, hget, -⟩ | ⟨-, harith⟩
  · cases hget.symm.trans hnone
  · exact harith

/-- Where there is a seed, it answers. -/
theorem Replays.seeded {part : Part} (h : Replays text c part p o)
    (hget : c.seeds.get? (keyOf p) = some best) : o = best.map Changes.found := by
  rcases h with ⟨seed, hget', rfl⟩ | ⟨hnone, -⟩
  · cases hget.symm.trans hget'
    rfl
  · cases hget.symm.trans hnone

/-! ## Scopes of groups -/

/-- The scope while a group runs over a seed. -/
def during (c : Scope) (group : Group ExprId) (p : Nat) (best : Option Changes) : Scope :=
  (c.atLevel cluster (Growth.levelFloor group)).seeded (keyOf p) best

variable {group : Group ExprId}

/-- While a group runs, the best seed so far is the one at hand. -/
theorem get?_during (key : SeedKey) : (during c group p best).seeds.get? key =
    if key = keyOf p then some best else c.seeds.get? key := by
  simp only [during, Scope.seeded, Scope.atLevel, Seeds.get?_insert]

/-- While a group runs, only what binds as tightly is admitted to its right. -/
theorem floor_during : (during c group p best).floors.floor cluster = Growth.levelFloor group := by
  simp only [during, Scope.seeded, Scope.atLevel, Floors.floor, Floors.explicit?_set, if_true,
    Option.getD_some]

/-- The seed that is grown is one the grammar finds, so what is asked for during a group may rely on
    it. -/
theorem behind_during (hbehind : Behind text c p) (hp : p ≤ text.length)
    (hgrows : Grows (lexer text) text t p best) : Behind text (during c group p best) p := by
  have hkeyed : Behind text c (keyOf p).position := hbehind
  exact hkeyed.seeded (lexer_proper text) hp hgrows get?_during

end Protocol

/-- The protocol; nothing is memoized. -/
def protocol (text : Text) : Protocol :=
  (roles text).protocol fun _ _ => False

/-! ## Forms -/

section Forms

variable {text : Text} {call call' : Caller} {m : Machine} {id : ExprId} {t : Tier} {op : String}
variable {c : Scope} {p : Nat}

/-- Atoms are found first, where nothing has been found. -/
theorem atoms_climbable (hp : p ≤ text.length) (hbehind : Behind text c p) :
    Growth.Climbable (protocol text) (roles text).Asks (during c atoms p) atoms p text.length
      (· = none) fun best => Arith (lexer text) text .atom p (best.map Changes.found) := by
  have hlex := lexer_proper text
  obtain ⟨haskNumber, hnumber⟩ := (tokens text).served (during c atoms p none) .number hp
  have hatom : ∀ {o}, Growth.Climbs (fun i => (roles text).Tells (during c atoms p none) i p) none
      atoms.alternatives o → Arith (lexer text) text .atom p o := fun hclimbs =>
    atom_of_first (first_of_climbs (p := p) hclimbs) hnumber fun o htell => htell
  refine ⟨?_, ?_, ?_, ?_, ?_⟩
  · rintro seed ⟨⟩
  · rintro _ rfl
    have hgroup : (roles text).Asks (during c atoms p none) parenthesized p :=
      ⟨hp, behind_during (t := .product) hbehind hp grows_none⟩
    exact List.forall_mem_cons.mpr ⟨haskNumber, List.forall_mem_singleton.mpr hgroup⟩
  · rintro _ i f rfl hi htell
    have hmem : i = token .number ∨ i = parenthesized := by simpa [atoms] using hi
    have harith : f.Within text p false := by
      rcases hmem with rfl | rfl
      · exact hlex.within hp (hnumber _ htell)
      · exact Arith.bounds hlex htell hp rfl
    exact ⟨harith.forward, harith.stop⟩
  · rintro _ changes rfl hclimbs -
    exact hatom hclimbs
  · rintro _ rfl hclimbs
    exact hatom hclimbs

/-- Operations go on from what has been found. -/
theorem operations_climbable (hp : p ≤ text.length) (hbehind : Behind text c p) :
    Growth.Climbable (protocol text) (roles text).Asks (during c (operations t) p) (operations t) p
      text.length (Tops (lexer text) text t p)
      fun best => Arith (lexer text) text (.tier t) p (best.map Changes.found) := by
  have hlex := lexer_proper text
  obtain ⟨i, j, halternatives, hi, hj⟩ := of_operations t
  have htold : ∀ {k op best o}, role k = some (.operation t op) →
      (roles text).Tells (during c (operations t) p best) k p o →
      ∃ o', OnSeed (lexer text) text t best op p o' ∧ o = o'.map (wrapped text op p) := by
    intro k op best o hk htell
    obtain ⟨best', o', hget, honseed, ho⟩ := (Roles.tells_role (R := roles text) hk).mp htell
    rw [get?_during, if_pos rfl] at hget
    cases hget
    exact ⟨o', honseed, ho⟩
  have hstep : ∀ {best o}, Tops (lexer text) text t p best →
      Growth.Climbs (fun i => (roles text).Tells (during c (operations t) p best) i p) best
        (operations t).alternatives o → Step (lexer text) text t best p o := by
    intro best o htops hclimbs
    rw [halternatives] at hclimbs
    exact step_of_climbs hlex htops.1 hclimbs (fun o => htold hi) fun o => htold hj
  have halternative : ∀ k ∈ (operations t).alternatives, ∃ op, role k = some (.operation t op) := by
    rw [halternatives]
    exact List.forall_mem_cons.mpr ⟨⟨_, hi⟩, List.forall_mem_singleton.mpr ⟨_, hj⟩⟩
  refine ⟨?_, ?_, ?_, ?_, ?_⟩
  · intro seed htops
    exact (htops.1.forward hlex hp rfl).1
  · intro best htops k hk
    obtain ⟨op, hrole⟩ := halternative k hk
    exact Roles.asks_role hrole hp ⟨behind_during hbehind hp htops.1, floor_during, best,
      get?_during _ |>.trans (if_pos rfl), htops.1⟩
  · intro best k f htops hk htell
    obtain ⟨op, hrole⟩ := halternative k hk
    obtain ⟨o', honseed, ho⟩ := htold hrole htell
    obtain ⟨f', rfl, rfl⟩ := Option.map_eq_some_iff.mp ho.symm
    obtain ⟨seed, rfl, hfarther, hstop⟩ := honseed.surpasses hlex htops.1
    exact ⟨(htops.1.forward hlex hp rfl).1.trans hfarther.le, hstop⟩
  · intro best changes htops hclimbs _
    have hgrows : (operations t).kind.grows = true := by cases t <;> rfl
    rw [hgrows]
    exact htops.step hlex (hstep htops hclimbs)
  · intro best htops hclimbs
    exact htops.stop (hstep htops hclimbs)

/-- What is known of the seed before a group runs, and when all have. -/
def Stage (text : Text) (target : Part) (p : Nat) : List (Group ExprId) → Option Changes → Prop
  | [], best => Arith (lexer text) text target p (best.map Changes.found)
  | group :: _, best =>
      if group.precedence = 3 then best = none
      else if group.precedence = 2 then Tops (lexer text) text .product p best
      else Tops (lexer text) text .sum p best

/-- Before the first group nothing has been found. -/
theorem stage_none {floor : Precedence} (h : floor ∈ floors) :
    Stage text (partAt floor) p (groups (partAt floor)) none := by
  simp only [floors, List.mem_cons, List.not_mem_nil, or_false] at h
  rcases h with rfl | rfl | rfl <;> exact rfl

/-- The groups of a part hand the seed on from tier to tier. -/
theorem stage_climbable (hp : p ≤ text.length) (hbehind : Behind text c p) (target : Part)
    {group : Group ExprId} {rest : List (Group ExprId)} (hsuffix : group :: rest <:+ groups target) :
    Growth.Climbable (protocol text) (roles text).Asks (during c group p) group p text.length
      (Stage text target p (group :: rest)) (Stage text target p rest) := by
  have hlex := lexer_proper text
  have hatoms := atoms_climbable hp hbehind
  have hoperations := fun t => operations_climbable (t := t) hp hbehind
  have htops : ∀ {t : Tier} {best : Option Changes},
      Arith (lexer text) text t.operand p (best.map Changes.found) →
        Tops (lexer text) text t p best :=
    tops_of_operand hlex hp
  unfold groups at hsuffix
  split at hsuffix <;>
    simp only [List.suffix_cons_iff, List.cons.injEq, List.suffix_nil, reduceCtorEq, or_false]
      at hsuffix
  · obtain ⟨rfl, rfl⟩ := hsuffix
    exact hatoms
  · rcases hsuffix with ⟨rfl, rfl⟩ | ⟨rfl, rfl⟩
    · exact hatoms.imp fun best => htops (t := .product)
    · exact hoperations .product
  · rcases hsuffix with ⟨rfl, rfl⟩ | ⟨rfl, rfl⟩ | ⟨rfl, rfl⟩
    · exact hatoms.imp fun best => htops (t := .product)
    · exact (hoperations .product).imp fun best => htops (t := .sum)
    · exact hoperations .sum

/-- The cluster finds what its floor admits. -/
theorem cluster_told (hcall : (protocol text).Serves (roles text).Asks call call')
    (hready : Ready climbing m) (hkeeps : (protocol text).Keeps m)
    (hp : m.state.stop ≤ text.length) (hbehind : Behind text m.state.scope m.state.stop)
    (hfloor : m.state.scope.floors.floor cluster ∈ floors) :
    Twins m (fun _ => True) (Growth.cluster call text cluster (groups (.tier .sum)))
      (Growth.cluster call' text cluster (groups (.tier .sum)))
      ((protocol text).Leaves (told text m.state.scope .cluster m.state.stop) m) := by
  refine Growth.cluster_told hcall le_rfl cluster (groups (.tier .sum)) hready hkeeps rfl ?_ ?_
  · intro seed hget
    exact ⟨fun _ _ => Or.inl trivial, Or.inl ⟨seed, hget, rfl⟩⟩
  · intro hnone
    dsimp only
    have hadmitted := admitted _ hfloor
    rw [show m.state.floors = m.state.scope.floors from rfl, hadmitted]
    exact ⟨Stage text (partAt (m.state.scope.floors.floor cluster)) m.state.stop,
      fun group rest hsuffix => stage_climbable hp hbehind _ hsuffix, stage_none hfloor,
      fun best hbest => Or.inr ⟨hnone, hbest⟩⟩

/-- A sequence of the seed of the cluster, an operator and an operand. -/
theorem items_told (hcall : (protocol text).Serves (roles text).Asks call call')
    (hready : Ready climbing m) (hkeeps : (protocol text).Keeps m) (hp : m.state.stop ≤ text.length)
    (hbehind : Behind text m.state.scope m.state.stop)
    (hrunning : Running text m.state.scope t m.state.stop) :
    Twins m (fun _ => True)
      (Combinators.sequence call [cluster, token (.mark op), cluster])
      (Combinators.sequence call' [cluster, token (.mark op), cluster])
      ((protocol text).Leaves (fun o => ∃ best,
        m.state.scope.seeds.get? (keyOf m.state.stop) = some best ∧
          OnSeed (lexer text) text t best op m.state.stop o) m) := by
  obtain ⟨hfloor, best, hget, hgrows⟩ := hrunning
  have hfloors : m.state.scope.floors.floor cluster ∈ floors := hfloor ▸ levelFloor_mem t
  have hasks : ∀ {q}, q ≤ text.length → m.state.stop ≤ q →
      (roles text).Asks m.state.scope cluster q :=
    fun hq hpq => ⟨hq, hbehind.later hpq, hfloors⟩
  have hleft : ∀ o, (roles text).Tells m.state.scope cluster m.state.stop o →
      o = best.map Changes.found :=
    fun o htell => Replays.seeded htell hget
  refine (operation_told (lexer_proper text) hcall hready hkeeps hp hgrows
    ⟨hasks hp le_rfl, hleft⟩ ?_ ?_ ?_).imp
    fun b m' hleaves => hleaves.imp fun o honseed => ⟨best, hget, honseed⟩
  · intro q hq
    exact (tokens text).served m.state.scope (.mark op) hq
  · intro q hpq hq
    exact hasks hq hpq.le
  · intro q o hpq htell
    rw [← partAt_levelFloor t, ← hfloor]
    exact Replays.unseeded htell (hbehind.unseeded hpq)

/-- A sum in parentheses. -/
theorem group_told (hcall : (protocol text).Serves (roles text).Asks call call')
    (hready : Ready climbing m) (hkeeps : (protocol text).Keeps m) (hp : m.state.stop ≤ text.length)
    (hbehind : Behind text m.state.scope m.state.stop) :
    Twins m (fun _ => True)
      (Combinators.sequence call [token (.mark "("), reset, token (.mark ")")])
      (Combinators.sequence call' [token (.mark "("), reset, token (.mark ")")])
      ((protocol text).Leaves (Arith (lexer text) text .parenthesized m.state.stop) m) := by
  refine parenthesized_told (lexer_proper text) hcall hready hkeeps hp
    ((tokens text).served m.state.scope (.mark "(") hp) ?_ ?_
  · intro q hpq hq
    exact ⟨⟨hq, hbehind.later hpq.le⟩,
      fun o htell => Replays.unseeded htell (hbehind.unseeded hpq)⟩
  · intro q hq
    exact (tokens text).served m.state.scope (.mark ")") hq

/-- The shape of a role finds what the role is to tell. -/
theorem role_told (config : Config) {r : Role} {s : Shape ExprId}
    (hcall : (protocol text).Serves (roles text).Asks call call') (hready : Ready climbing m)
    (hkeeps : (protocol text).Keeps m) (hs : climbing.shape? id = some s) (hid : role id = some r)
    (hp : m.state.stop ≤ text.length) (hasked : asked text m.state.scope r m.state.stop) :
    Twins m (fun _ => True) (dispatch ⟨climbing, text, config⟩ call id s)
      (dispatch ⟨climbing, text, config⟩ call' id s)
      ((protocol text).Leaves (told text m.state.scope r m.state.stop) m) := by
  -- the shape that belongs to a role
  have hshape : ∀ {s' : Shape ExprId}, climbing.shape? id = some s' → s = s' :=
    fun hs' => Option.some.inj (hs.symm.trans hs')
  cases r with
  | cluster =>
      obtain ⟨rfl, hs'⟩ := of_cluster hid
      rw [hshape hs']
      exact Twins.state_bind (cluster_told hcall hready hkeeps hp hasked.1 hasked.2)
  | operation t op =>
      obtain ⟨i, hs', hi⟩ := of_operation hid
      rw [hshape hs']
      refine Twins.state_bind ((Combinators.capture_told hcall text i (.node op) hready hkeeps
        (Roles.asks_role hi hp hasked)).imp fun b m' hleaves => hleaves.imp ?_)
      rintro o ⟨o', htell, rfl⟩
      obtain ⟨best, hget, honseed⟩ := (Roles.tells_role (R := roles text) hi).mp htell
      exact ⟨best, o', hget, honseed, rfl⟩
  | items t op =>
      rw [hshape (of_items hid)]
      exact Twins.state_bind (items_told hcall hready hkeeps hp hasked.1 hasked.2)
  | group =>
      rw [hshape (of_group hid)]
      exact Twins.state_bind (group_told hcall hready hkeeps hp hasked)
  | reset =>
      rw [hshape (of_reset hid)]
      -- the reset leaves the seeds, and no floor is above the lowest
      have hasks : (roles text).Asks { m.state.scope with
          seeds := m.state.seeds.unblockAll, floors := .uniform 0 } cluster m.state.stop :=
        ⟨hp, hasked, List.mem_cons_self ..⟩
      refine Twins.state_bind ((Growth.minPrecedence_told hcall cluster 0 hready hkeeps hasks).imp
        fun b m' hleaves => hleaves.imp ?_)
      exact fun o htell => htell

end Forms

/-! ## Parses -/

/-- Every invocation keeps to the protocol, which dispatches by role. -/
theorem invoke_told (text : Text) {config : Config} (hconfig : config.memoization = .none)
    (nesting : Nat) :
    (protocol text).Serves (roles text).Asks (invoke ⟨climbing, text, config⟩ nesting)
      (invoke ⟨climbing, text, config⟩ nesting) := by
  refine (roles text).serves_invoke config plain_climbing (fun id m _ => ?_) (role_told config)
    nesting
  exact Protocol.admits_of_none rfl trivial hconfig (fun _ _ => not_false) (fun _ => trivial) _ _

/-- A parse shows what a sum at the start of the text finds. -/
theorem parseWith_arith {config : Config} (hconfig : config.memoization = .none) {source : String}
    {r : ParseResult} (h : (parseWith climbing config source).outcome = .ok r) :
    ∃ o, Arith (lexer (.ofString source)) (.ofString source) (.tier .sum) 0 o ∧
      r.Shows (.ofString source) o := by
  have hkeeps : (protocol (.ofString source)).Keeps (.initial config) :=
    Protocol.keeps_initial config trivial
  have hask : (roles (.ofString source)).Asks (Machine.initial config).state.scope cluster 0 := by
    refine ⟨Nat.zero_le _, ?_, List.mem_cons_self ..⟩
    intro key seed hseed
    cases hseed
  obtain ⟨o, htell, hshows⟩ := (invoke_told (.ofString source) hconfig config.maxDepth).shows rfl
    hkeeps hask rfl h
  exact ⟨o, Replays.unseeded htell rfl, hshows⟩

end Packrat.Arithmetic.Cluster
