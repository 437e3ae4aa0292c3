import Packrat.Proofs.Protocol.Growth
import Packrat.Proofs.Protocol.Positions

/-! # What arithmetic means

    An atom is a number or a sum in parentheses, a product is an atom that grows by `*` and `/`, and a
    sum is a product that grows by `+` and `-`.  Whatever has grown becomes the left operand of the
    next operation, so operations nest to the left.  This is stated over tokens, apart from any
    grammar; it leaves no choice (`Arith.unique`).

    A boundary grows the same way, only that what has grown is a seed (`Step`, `Grows`). -/

namespace Packrat.Arithmetic

/-- What a token stands for. -/
inductive Lexeme where
  | number
  | mark (text : String)

/-- What tokens find. -/
abbrev Lexer := Lexeme → Nat → Option Found → Prop

/-- A token is found at most once, and it consumes something. -/
structure Lexer.Proper (lex : Lexer) (text : Text) : Prop where
  unique : ∀ {x p o o'}, lex x p o → lex x p o' → o = o'
  within : ∀ {x p f}, p ≤ text.length → lex x p (some f) → f.Within text p false

/-- What grows by operations. -/
inductive Tier where
  | sum
  | product
deriving DecidableEq

/-- The operator that is tried first. -/
def Tier.first : Tier → String
  | .sum => "+"
  | .product => "*"

/-- The operator that is tried second. -/
def Tier.second : Tier → String
  | .sum => "-"
  | .product => "/"

/-- What is matched. -/
inductive Part where
  | atom
  | parenthesized
  | tier (t : Tier)
  /-- An operation on what was found before. -/
  | operation (t : Tier) (left : Found) (op : String)
  /-- All operations on what was found before. -/
  | grown (t : Tier) (left : Found)

/-- Operands of a tier. -/
def Tier.operand : Tier → Part
  | .sum => .tier .product
  | .product => .atom

/-- An operation as a node named after its operator. -/
def wrapped (text : Text) (op : String) (p : Nat) (f : Found) : Found :=
  { f with nodes := (CaptureMode.node op).close text p f }

/-- What a part finds that begins at a position. -/
inductive Arith (lex : Lexer) (text : Text) : Part → Nat → Option Found → Prop where
  | number {p : Nat} {f : Found} : lex .number p (some f) → Arith lex text .atom p (some f)
  | atom {p : Nat} {o : Option Found} : lex .number p none →
      Arith lex text .parenthesized p o → Arith lex text .atom p o
  | not_opened {p : Nat} : lex (.mark "(") p none → Arith lex text .parenthesized p none
  | not_filled {p : Nat} {f : Found} : lex (.mark "(") p (some f) →
      Arith lex text (.tier .sum) f.stop none → Arith lex text .parenthesized p none
  | not_closed {p : Nat} {f f' : Found} : lex (.mark "(") p (some f) →
      Arith lex text (.tier .sum) f.stop (some f') → lex (.mark ")") f'.stop none →
      Arith lex text .parenthesized p none
  | parenthesized {p : Nat} {f f' f'' : Found} : lex (.mark "(") p (some f) →
      Arith lex text (.tier .sum) f.stop (some f') → lex (.mark ")") f'.stop (some f'') →
      Arith lex text .parenthesized p
        (some (f.append (f'.append (f''.append (.nothing f''.stop)))))
  | no_operator {t : Tier} {f : Found} {op : String} {p : Nat} : lex (.mark op) f.stop none →
      Arith lex text (.operation t f op) p none
  | no_operand {t : Tier} {f f' : Found} {op : String} {p : Nat} :
      lex (.mark op) f.stop (some f') → Arith lex text t.operand f'.stop none →
      Arith lex text (.operation t f op) p none
  | operation {t : Tier} {f f' f'' : Found} {op : String} {p : Nat} :
      lex (.mark op) f.stop (some f') → Arith lex text t.operand f'.stop (some f'') →
      Arith lex text (.operation t f op) p
        (some (f.append (f'.append (f''.append (.nothing f''.stop)))))
  | tier_none {t : Tier} {p : Nat} : Arith lex text t.operand p none →
      Arith lex text (.tier t) p none
  | tier {t : Tier} {p : Nat} {f : Found} {o : Option Found} :
      Arith lex text t.operand p (some f) → Arith lex text (.grown t f) p o →
      Arith lex text (.tier t) p o
  | grown_first {t : Tier} {p : Nat} {f f' : Found} {o : Option Found} :
      Arith lex text (.operation t f t.first) p (some f') →
      Arith lex text (.grown t (wrapped text t.first p f')) p o → Arith lex text (.grown t f) p o
  | grown_second {t : Tier} {p : Nat} {f f' : Found} {o : Option Found} :
      Arith lex text (.operation t f t.first) p none →
      Arith lex text (.operation t f t.second) p (some f') →
      Arith lex text (.grown t (wrapped text t.second p f')) p o → Arith lex text (.grown t f) p o
  | grown {t : Tier} {p : Nat} {f : Found} :
      Arith lex text (.operation t f t.first) p none →
      Arith lex text (.operation t f t.second) p none → Arith lex text (.grown t f) p (some f)

variable {lex : Lexer} {text : Text} {part : Part} {t : Tier} {p : Nat} {o o' : Option Found}
variable {f f' : Found} {op : String}

/-! ## One outcome -/

theorem Arith.unique (hlex : lex.Proper text) (h : Arith lex text part p o)
    (h' : Arith lex text part p o') : o = o' := by
  induction h generalizing o' with
  | number hnumber =>
      cases h' with
      | number hnumber' => exact hlex.unique hnumber hnumber'
      | atom hnumber' _ => cases hlex.unique hnumber hnumber'
  | atom hnumber _ ih =>
      cases h' with
      | number hnumber' => cases hlex.unique hnumber hnumber'
      | atom _ h' => exact ih h'
  | not_opened hopen =>
      cases h' with
      | not_opened | not_filled | not_closed => rfl
      | parenthesized hopen' _ _ => cases hlex.unique hopen hopen'
  | not_filled hopen _ ih =>
      cases h' with
      | not_opened | not_filled | not_closed => rfl
      | parenthesized hopen' h' _ =>
          cases hlex.unique hopen hopen'
          cases ih h'
  | not_closed hopen _ hclose ih =>
      cases h' with
      | not_opened | not_filled | not_closed => rfl
      | parenthesized hopen' h' hclose' =>
          cases hlex.unique hopen hopen'
          cases ih h'
          cases hlex.unique hclose hclose'
  | parenthesized hopen _ hclose ih =>
      cases h' with
      | not_opened hopen' => cases hlex.unique hopen hopen'
      | not_filled hopen' h' =>
          cases hlex.unique hopen hopen'
          cases ih h'
      | not_closed hopen' h' hclose' =>
          cases hlex.unique hopen hopen'
          cases ih h'
          cases hlex.unique hclose hclose'
      | parenthesized hopen' h' hclose' =>
          cases hlex.unique hopen hopen'
          cases ih h'
          cases hlex.unique hclose hclose'
          rfl
  | no_operator hop =>
      cases h' with
      | no_operator | no_operand => rfl
      | operation hop' _ => cases hlex.unique hop hop'
  | no_operand hop _ ih =>
      cases h' with
      | no_operator | no_operand => rfl
      | operation hop' h' =>
          cases hlex.unique hop hop'
          cases ih h'
  | operation hop _ ih =>
      cases h' with
      | no_operator hop' => cases hlex.unique hop hop'
      | no_operand hop' h' =>
          cases hlex.unique hop hop'
          cases ih h'
      | operation hop' h' =>
          cases hlex.unique hop hop'
          cases ih h'
          rfl
  | tier_none _ ih =>
      cases h' with
      | tier_none => rfl
      | tier h' _ => cases ih h'
  | tier _ _ ih ihgrown =>
      cases h' with
      | tier_none h' => cases ih h'
      | tier h' hgrown' =>
          cases ih h'
          exact ihgrown hgrown'
  | grown_first _ _ ih ihgrown =>
      cases h' with
      | grown_first h' hgrown' =>
          cases ih h'
          exact ihgrown hgrown'
      | grown_second h' _ _ => cases ih h'
      | grown h' _ => cases ih h'
  | grown_second _ _ _ ih ih₂ ihgrown =>
      cases h' with
      | grown_first h' _ => cases ih h'
      | grown_second _ h₂' hgrown' =>
          cases ih₂ h₂'
          exact ihgrown hgrown'
      | grown _ h₂' => cases ih₂ h₂'
  | grown _ _ ih ih₂ =>
      cases h' with
      | grown_first h' _ => cases ih h'
      | grown_second _ h₂' _ => cases ih₂ h₂'
      | grown => rfl

/-! ## Positions -/

/-- Where a part that begins at a position has got so far. -/
def Part.reached (p : Nat) : Part → Nat
  | .operation _ left _ | .grown _ left => left.stop
  | .atom | .parenthesized | .tier _ => p

/-- Whether a part may add nothing. -/
def Part.stays : Part → Bool
  | .grown _ _ => true
  | .atom | .parenthesized | .tier _ | .operation _ _ _ => false

theorem Tier.operand_reached (t : Tier) (p : Nat) :
    t.operand.reached p = p ∧ t.operand.stays = false := by
  cases t <;> exact ⟨rfl, rfl⟩

/-- Tokens one after the other around a part that is not empty. -/
theorem within_triple {f f' f'' : Found} {b : Bool} (h : f.Within text p b)
    (h' : f'.Within text f.stop false) (h'' : f''.Within text f'.stop false) :
    (f.append (f'.append (f''.append (.nothing f''.stop)))).Within text p false := by
  refine (h.append (h'.append (h''.append (.nothing h''.stop)))).imp ?_
  rw [Bool.false_and, Bool.and_false]
  exact id

theorem Arith.bounds (hlex : lex.Proper text) (h : Arith lex text part p o)
    (hp : part.reached p ≤ text.length) (ho : o = some f) :
    f.Within text (part.reached p) part.stays := by
  -- what operands find begins where they do
  have hoperand : ∀ {t : Tier} {q : Nat} {f : Found},
      f.Within text (t.operand.reached q) t.operand.stays → f.Within text q false := by
    intro t q f hfound
    rw [(t.operand_reached q).1, (t.operand_reached q).2] at hfound
    exact hfound
  induction h generalizing f with
  | not_opened | not_filled | not_closed | no_operator | no_operand | tier_none => cases ho
  | number hnumber =>
      cases ho
      exact hlex.within hp hnumber
  | atom _ _ ih => exact ih hp ho
  | parenthesized hopen _ hclose ih =>
      cases ho
      have hfirst := hlex.within hp hopen
      have hsum := ih hfirst.stop rfl
      exact within_triple hfirst hsum (hlex.within hsum.stop hclose)
  | @operation t f f' f'' op p hop _ ih =>
      cases ho
      have hsign := hlex.within hp hop
      have hright := ih ((t.operand_reached _).1 ▸ hsign.stop) rfl
      have hleft : f.Within text f.stop true := ⟨le_rfl, hp, fun _ => rfl⟩
      exact within_triple hleft hsign (hoperand hright)
  | @tier t p f' o _ _ ih ihgrown =>
      have hfirst := hoperand (ih ((t.operand_reached _).1 ▸ hp) rfl)
      have hrest := ihgrown hfirst.stop ho
      have hforward := hfirst.forward
      have hforward' := hrest.forward
      refine ⟨hforward.trans hforward', hrest.stop, fun heq => hfirst.nullable ?_⟩
      exact Nat.le_antisymm (hforward'.trans heq.le) hforward
  | grown_first _ _ ih ihgrown =>
      have hstep := ih hp rfl
      exact ⟨hstep.forward.trans (ihgrown hstep.stop ho).forward, (ihgrown hstep.stop ho).stop,
        fun _ => rfl⟩
  | grown_second _ _ _ _ ih ihgrown =>
      have hstep := ih hp rfl
      exact ⟨hstep.forward.trans (ihgrown hstep.stop ho).forward, (ihgrown hstep.stop ho).stop,
        fun _ => rfl⟩
  | grown _ _ _ _ =>
      cases ho
      exact ⟨le_rfl, hp, fun _ => rfl⟩

/-- An operand begins where it is matched, and is not empty. -/
theorem Arith.operand_within (hlex : lex.Proper text) (hp : p ≤ text.length)
    (h : Arith lex text t.operand p (some f)) : f.Within text p false := by
  obtain ⟨hreached, hstays⟩ := t.operand_reached p
  have hstart : t.operand.reached p ≤ text.length := hreached.le.trans hp
  have hbounds := h.bounds hlex hstart rfl
  rwa [hreached, hstays] at hbounds

/-! ## Growing from seed to seed -/

/-- An operation on a seed; on a failing seed it fails. -/
def OnSeed (lex : Lexer) (text : Text) (t : Tier) (best : Option Changes) (op : String) (p : Nat)
    (o : Option Found) : Prop :=
  match best with
  | none => o = none
  | some seed => Arith lex text (.operation t seed.found op) p o

/-- The operation of the tier that goes on from a seed, if any does. -/
inductive Step (lex : Lexer) (text : Text) (t : Tier) (best : Option Changes) (p : Nat) :
    Option Found → Prop where
  | first {f : Found} : OnSeed lex text t best t.first p (some f) →
      Step lex text t best p (some (wrapped text t.first p f))
  | second {f : Found} : OnSeed lex text t best t.first p none →
      OnSeed lex text t best t.second p (some f) →
      Step lex text t best p (some (wrapped text t.second p f))
  | stop : OnSeed lex text t best t.first p none → OnSeed lex text t best t.second p none →
      Step lex text t best p none

/-- A seed from which a tier may go on: all operations on it make up the tier. -/
def Grows (lex : Lexer) (text : Text) (t : Tier) (p : Nat) (best : Option Changes) : Prop :=
  ∀ seed, best = some seed → (∃ f, Arith lex text t.operand p (some f) ∧ f.stop ≤ seed.stop) ∧
    seed.stop ≤ text.length ∧
    ∀ o, Arith lex text (.grown t seed.found) p o → Arith lex text (.tier t) p o

variable {best : Option Changes} {changes : Changes}

theorem grows_none : Grows lex text t p none := by
  rintro seed ⟨⟩

/-- The first seed is an operand. -/
theorem grows_operand (hlex : lex.Proper text) (hp : p ≤ text.length)
    (h : Arith lex text t.operand p (some changes.found)) : Grows lex text t p (some changes) := by
  rintro _ ⟨⟩
  exact ⟨⟨_, h, le_rfl⟩, (h.operand_within hlex hp).stop, fun o hgrown => .tier h hgrown⟩

theorem Grows.forward (hlex : lex.Proper text) (h : Grows lex text t p best) (hp : p ≤ text.length)
    {seed : Changes} (hseed : best = some seed) : p ≤ seed.stop ∧ seed.stop ≤ text.length := by
  obtain ⟨⟨f, hoperand, hle⟩, hstop, -⟩ := h seed hseed
  exact ⟨(hoperand.operand_within hlex hp).forward.trans hle, hstop⟩

/-- An operation gets farther than its seed. -/
theorem OnSeed.surpasses (hlex : lex.Proper text) (h : OnSeed lex text t best op p (some f))
    (hgrows : Grows lex text t p best) :
    ∃ seed, best = some seed ∧ seed.stop < f.stop ∧ f.stop ≤ text.length := by
  cases best with
  | none => cases h
  | some seed =>
      have hbounds := Arith.bounds hlex h (hgrows seed rfl).2.1 rfl
      exact ⟨seed, rfl, hbounds.moved, hbounds.stop⟩

/-- A step gets farther than the seed. -/
theorem Step.surpasses (hlex : lex.Proper text) (h : Step lex text t best p o)
    (hgrows : Grows lex text t p best) (ho : o = some f) :
    ∃ seed, best = some seed ∧ seed.stop < f.stop ∧ f.stop ≤ text.length := by
  cases h with
  | first honseed =>
      cases ho
      have hfarther := honseed.surpasses hlex hgrows
      exact hfarther
  | second _ honseed =>
      cases ho
      have hfarther := honseed.surpasses hlex hgrows
      exact hfarther
  | stop => cases ho

/-- After a step, the tier may go on from the new seed. -/
theorem Grows.step (hlex : lex.Proper text) (h : Grows lex text t p best)
    (hstep : Step lex text t best p (some changes.found)) : Grows lex text t p (some changes) := by
  obtain ⟨seed, rfl, hfarther, hstop⟩ := hstep.surpasses hlex h rfl
  obtain ⟨⟨f, hoperand, hle⟩, -, hgrown⟩ := h seed rfl
  rintro _ ⟨⟩
  refine ⟨⟨f, hoperand, hle.trans hfarther.le⟩, hstop, ?_⟩
  intro o ho
  refine hgrown o ?_
  generalize hnew : some changes.found = new at hstep
  cases hstep with
  | first honseed =>
      rw [Option.some.inj hnew] at ho
      exact .grown_first honseed ho
  | second hnone honseed =>
      rw [Option.some.inj hnew] at ho
      exact .grown_second hnone honseed ho
  | stop => cases hnew

/-- Where no step goes on, the seed is what the tier finds. -/
theorem Grows.stop {seed : Changes} (h : Grows lex text t p (some seed))
    (hstep : Step lex text t (some seed) p none) :
    Arith lex text (.tier t) p (some seed.found) := by
  generalize hnone : none = o at hstep
  cases hstep with
  | first | second => cases hnone
  | stop hfirst hsecond => exact (h seed rfl).2.2 _ (.grown hfirst hsecond)

/-- What is known of the seed when all tighter tiers are done. -/
def Tops (lex : Lexer) (text : Text) (t : Tier) (p : Nat) (best : Option Changes) : Prop :=
  Grows lex text t p best ∧ (best = none → Arith lex text t.operand p none)

theorem tops_of_operand (hlex : lex.Proper text) (hp : p ≤ text.length)
    (h : Arith lex text t.operand p (best.map Changes.found)) : Tops lex text t p best := by
  cases best with
  | none => exact ⟨grows_none, fun _ => h⟩
  | some changes => exact ⟨grows_operand hlex hp h, by rintro ⟨⟩⟩

theorem Tops.step (hlex : lex.Proper text) (h : Tops lex text t p best)
    (hstep : Step lex text t best p (some changes.found)) : Tops lex text t p (some changes) :=
  ⟨h.1.step hlex hstep, by rintro ⟨⟩⟩

theorem Tops.stop (h : Tops lex text t p best) (hstep : Step lex text t best p none) :
    Arith lex text (.tier t) p (best.map Changes.found) := by
  cases best with
  | none => exact .tier_none (h.2 rfl)
  | some seed => exact h.1.stop hstep

/-! ## Seeds of a scope -/

/-- Seeds are behind, and reach no farther than the text. -/
def Behind (text : Text) (c : Scope) (p : Nat) : Prop :=
  ∀ key seed, c.seeds.get? key = some seed → key.position ≤ p ∧
    ∀ changes, seed = some changes → key.position ≤ changes.stop ∧ changes.stop ≤ text.length

variable {c c' : Scope} {q : Nat} {key : SeedKey}

theorem Behind.later (h : Behind text c p) (hpq : p ≤ q) : Behind text c q :=
  fun key seed hget => ⟨(h key seed hget).1.trans hpq, (h key seed hget).2⟩

/-- Nothing ahead has a seed. -/
theorem Behind.unseeded (h : Behind text c p) (hpq : p < key.position) :
    c.seeds.get? key = none := by
  cases hget : c.seeds.get? key with
  | none => rfl
  | some seed => exact absurd (h _ seed hget).1 hpq.not_ge

/-- A tier leaves a seed where it is. -/
theorem Behind.seeded (hlex : lex.Proper text) (h : Behind text c key.position)
    (hp : key.position ≤ text.length) (hgrows : Grows lex text t key.position best)
    (hget : ∀ j, c'.seeds.get? j = if j = key then some best else c.seeds.get? j) :
    Behind text c' key.position := by
  intro j seed hseed
  rw [hget] at hseed
  split at hseed
  · rename_i hsame
    cases hseed
    rw [hsame]
    exact ⟨le_rfl, fun changes hchanges => hgrows.forward hlex hp hchanges⟩
  · exact h j seed hseed

/-! ## Lists of items -/

variable {R : ExprId → Nat → Option Found → Prop}

/-- An operator between a seed and an operand. -/
theorem onSeed_of_each (hlex : lex.Proper text) {left sign right : ExprId}
    (h : Each R [left, sign, right] p o) (hleft : ∀ o, R left p o → o = best.map Changes.found)
    (hbest : ∀ seed, best = some seed → p ≤ seed.stop ∧ seed.stop ≤ text.length)
    (hsign : ∀ q o, q ≤ text.length → R sign q o → lex (.mark op) q o)
    (hright : ∀ q o, p < q → R right q o → Arith lex text t.operand q o) :
    OnSeed lex text t best op p o := by
  cases h with
  | fail _ h =>
      cases best with
      | none => rfl
      | some seed => cases hleft _ h
  | next h hrest =>
      cases best with
      | none => cases hleft _ h
      | some seed =>
          cases hleft _ h
          obtain ⟨hforward, hstop⟩ := hbest seed rfl
          cases hrest with
          | fail _ h' => exact .no_operator (hsign _ _ hstop h')
          | next h' hrest' =>
              have hfound := hlex.within hstop (hsign _ _ hstop h')
              have hbeyond : p < _ := hforward.trans_lt hfound.moved
              cases hrest' with
              | fail _ h'' => exact .no_operand (hsign _ _ hstop h') (hright _ _ hbeyond h'')
              | next h'' hrest'' =>
                  cases hrest''
                  exact .operation (hsign _ _ hstop h') (hright _ _ hbeyond h'')

/-- A sum between parentheses. -/
theorem parenthesized_of_each (hlex : lex.Proper text) (hp : p ≤ text.length)
    {opening inner closing : ExprId} (h : Each R [opening, inner, closing] p o)
    (hopening : ∀ o, R opening p o → lex (.mark "(") p o)
    (hinner : ∀ q o, p < q → q ≤ text.length → R inner q o → Arith lex text (.tier .sum) q o)
    (hclosing : ∀ q o, q ≤ text.length → R closing q o → lex (.mark ")") q o) :
    Arith lex text .parenthesized p o := by
  cases h with
  | fail _ h => exact .not_opened (hopening _ h)
  | next h hrest =>
      have hfound := hlex.within hp (hopening _ h)
      cases hrest with
      | fail _ h' => exact .not_filled (hopening _ h) (hinner _ _ hfound.moved hfound.stop h')
      | next h' hrest' =>
          have hsum := hinner _ _ hfound.moved hfound.stop h'
          have hstop := (hsum.bounds hlex hfound.stop rfl).stop
          cases hrest' with
          | fail _ h'' => exact .not_closed (hopening _ h) hsum (hclosing _ _ hstop h'')
          | next h'' hrest'' =>
              cases hrest''
              exact .parenthesized (hopening _ h) hsum (hclosing _ _ hstop h'')

/-- A number, or a sum in parentheses. -/
theorem atom_of_first {number group : ExprId} (h : First R [number, group] p o)
    (hnumber : ∀ o, R number p o → lex .number p o)
    (hgroup : ∀ o, R group p o → Arith lex text .parenthesized p o) :
    Arith lex text .atom p o := by
  cases h with
  | here _ h => exact .number (hnumber _ h)
  | next h hrest =>
      cases hrest with
      | here _ h' => exact .atom (hnumber _ h) (hgroup _ h')
      | next h' hrest' =>
          cases hrest'
          exact .atom (hnumber _ h) (hgroup _ h')

/-- Where nothing has been found, alternatives that climb are tried in order. -/
theorem first_of_climbs {R : ExprId → Option Found → Prop} {alternatives : List ExprId}
    (h : Growth.Climbs R none alternatives o) : First (fun i _ => R i) alternatives p o := by
  induction h with
  | nil => exact .nil _
  | here rest h hsurpasses =>
      obtain ⟨f, rfl, -⟩ := hsurpasses
      exact .here rest h
  | @next alternative rest o o' h hends _ ih =>
      cases o with
      | none => exact .next h ih
      | some f => exact absurd ⟨f, rfl, rfl⟩ hends

/-- Operations that climb from a seed. -/
theorem step_of_climbs (hlex : lex.Proper text) {R : ExprId → Option Found → Prop} {i j : ExprId}
    (hgrows : Grows lex text t p best) (h : Growth.Climbs R best [i, j] o)
    (hi : ∀ o, R i o → ∃ o', OnSeed lex text t best t.first p o' ∧
      o = o'.map (wrapped text t.first p))
    (hj : ∀ o, R j o → ∃ o', OnSeed lex text t best t.second p o' ∧
      o = o'.map (wrapped text t.second p)) :
    Step lex text t best p o := by
  -- an operation that does not surpass the seed has failed
  have hfails : ∀ {op o'}, OnSeed lex text t best op p o' →
      ¬ Growth.Surpasses best (o'.map (wrapped text op p)) → o' = none := by
    intro op o' honseed hends
    cases o' with
    | none => rfl
    | some f =>
        obtain ⟨seed, rfl, hfarther, -⟩ := honseed.surpasses hlex hgrows
        exact absurd ⟨_, rfl, decide_eq_true hfarther⟩ hends
  cases h with
  | here _ h hsurpasses =>
      obtain ⟨o', honseed, rfl⟩ := hi _ h
      obtain ⟨f, hf, -⟩ := hsurpasses
      obtain ⟨f', rfl, -⟩ := Option.map_eq_some_iff.mp hf
      exact .first honseed
  | next h hends hrest =>
      obtain ⟨o', honseed, rfl⟩ := hi _ h
      obtain rfl := hfails honseed hends
      cases hrest with
      | here _ h' hsurpasses =>
          obtain ⟨o'', honseed', rfl⟩ := hj _ h'
          obtain ⟨f, hf, -⟩ := hsurpasses
          obtain ⟨f', rfl, -⟩ := Option.map_eq_some_iff.mp hf
          exact .second honseed honseed'
      | next h' hends' hrest' =>
          obtain ⟨o'', honseed', rfl⟩ := hj _ h'
          obtain rfl := hfails honseed' hends'
          cases hrest'
          exact .stop honseed honseed'

/-! ## Forms -/

section Forms

open Matching

variable {π : Protocol} {ask : Scope → ExprId → Nat → Prop} {call call' : Caller} {m : Machine}

/-- A sequence of a seed, an operator and an operand. -/
theorem operation_told (hlex : lex.Proper text) (hcall : π.Serves ask call call')
    {left sign right : ExprId} (hready : Ready π.grammar m) (hkeeps : π.Keeps m)
    (hp : m.state.stop ≤ text.length) (hgrows : Grows lex text t m.state.stop best)
    (hleft : ask m.state.scope left m.state.stop ∧
      ∀ o, π.tell m.state.scope left m.state.stop o → o = best.map Changes.found)
    (hsign : ∀ q, q ≤ text.length → ask m.state.scope sign q ∧
      ∀ o, π.tell m.state.scope sign q o → lex (.mark op) q o)
    (hright : ∀ q, m.state.stop < q → q ≤ text.length → ask m.state.scope right q)
    (hoperand : ∀ q o, m.state.stop < q → π.tell m.state.scope right q o →
      Arith lex text t.operand q o) :
    Twins m (fun _ => π.faults) (Combinators.sequence call [left, sign, right])
      (Combinators.sequence call' [left, sign, right])
      (π.Leaves (OnSeed lex text t best op m.state.stop) m) := by
  have hask : AskEach (π.tell m.state.scope) (ask m.state.scope) [left, sign, right]
      m.state.stop := by
    refine ⟨hleft.1, ?_⟩
    intro f hf
    obtain ⟨seed, hseed, rfl⟩ := Option.map_eq_some_iff.mp (hleft.2 _ hf).symm
    obtain ⟨hforward, hstop⟩ := hgrows.forward hlex hp hseed
    refine ⟨(hsign _ hstop).1, ?_⟩
    intro f' hf'
    have hfound := hlex.within hstop ((hsign _ hstop).2 _ hf')
    exact ⟨hright _ (hforward.trans_lt hfound.moved) hfound.stop, fun _ _ => trivial⟩
  refine (Combinators.sequence_told hcall _ hready hkeeps hask).imp fun b m' hleaves =>
    hleaves.imp ?_
  intro o heach
  exact onSeed_of_each hlex heach hleft.2 (fun seed hseed => hgrows.forward hlex hp hseed)
    (fun q o hq => (hsign q hq).2 o) hoperand

/-- A sum between parentheses. -/
theorem parenthesized_told (hlex : lex.Proper text) (hcall : π.Serves ask call call')
    {opening inner closing : ExprId} (hready : Ready π.grammar m) (hkeeps : π.Keeps m)
    (hp : m.state.stop ≤ text.length)
    (hopening : ask m.state.scope opening m.state.stop ∧
      ∀ o, π.tell m.state.scope opening m.state.stop o → lex (.mark "(") m.state.stop o)
    (hinner : ∀ q, m.state.stop < q → q ≤ text.length → ask m.state.scope inner q ∧
      ∀ o, π.tell m.state.scope inner q o → Arith lex text (.tier .sum) q o)
    (hclosing : ∀ q, q ≤ text.length → ask m.state.scope closing q ∧
      ∀ o, π.tell m.state.scope closing q o → lex (.mark ")") q o) :
    Twins m (fun _ => π.faults) (Combinators.sequence call [opening, inner, closing])
      (Combinators.sequence call' [opening, inner, closing])
      (π.Leaves (Arith lex text .parenthesized m.state.stop) m) := by
  have hask : AskEach (π.tell m.state.scope) (ask m.state.scope) [opening, inner, closing]
      m.state.stop := by
    refine ⟨hopening.1, ?_⟩
    intro f hf
    have hfound := hlex.within hp (hopening.2 _ hf)
    obtain ⟨hsum, htell⟩ := hinner _ hfound.moved hfound.stop
    refine ⟨hsum, ?_⟩
    intro f' hf'
    have hsum := (htell _ hf').bounds hlex hfound.stop rfl
    exact ⟨(hclosing _ hsum.stop).1, fun _ _ => trivial⟩
  refine (Combinators.sequence_told hcall _ hready hkeeps hask).imp fun b m' hleaves =>
    hleaves.imp ?_
  intro o heach
  exact parenthesized_of_each hlex hp heach hopening.2 (fun q o hpq hq => (hinner q hpq hq).2 o)
    fun q o hq => (hclosing q hq).2 o

end Forms

end Packrat.Arithmetic
