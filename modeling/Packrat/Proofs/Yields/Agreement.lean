import Packrat.Proofs.Yields.Rules

/-! # Yields that agree

    Two grammars are compared shape by shape.  If their expressions agree wherever a shape may ask
    for them, then what the shape yields over the one is what it yields over the other.  So what a
    shape yields depends on the outcomes of its children ALONE.

    The scopes need not be the same on both sides.  It is enough that they answer alike for the
    boundary that is matched, and stay alike when it changes them (`Scope.Likeness`).  Seeds count as
    the same if the same is found when they are replayed. -/

namespace Packrat

open Relation Matching Engine

/-! ## Runs in step -/

/-- Two runs whose steps correspond end together, if neither goes on where the other is done. -/
theorem ReflTransGen.corresponds {α β : Type} {r : α → α → Prop} {r' : β → β → Prop}
    (done : α → Prop) (done' : β → Prop) (sim : α → β → Prop)
    (hstep : ∀ a a' b b', sim a a' → r a b → r' a' b' → sim b b')
    (hleft : ∀ a a' b, sim a a' → r a b → ¬ done' a')
    (hright : ∀ a a' b', sim a a' → r' a' b' → ¬ done a) {a b : α} {a' b' : β}
    (h : ReflTransGen r a b) (hdone : done b) (h' : ReflTransGen r' a' b') (hdone' : done' b')
    (hsim : sim a a') : sim b b' := by
  induction h using ReflTransGen.head_induction_on generalizing a' with
  | refl =>
      rcases ReflTransGen.cases_head h' with rfl | ⟨a₁', hfirst', -⟩
      · exact hsim
      · exact absurd hdone (hright _ _ _ hsim hfirst')
  | head hfirst _ ih =>
      rcases ReflTransGen.cases_head h' with rfl | ⟨a₁', hfirst', hrest'⟩
      · exact absurd hdone' (hleft _ _ _ hsim hfirst)
      · exact ih hrest' (hstep _ _ _ _ hsim hfirst hfirst')

/-! ## Lists of items -/

section Items

variable {R R' : ExprId → Nat → Option Found → Prop} {ask : ExprId → Nat → Prop}
variable {items : List ExprId} {operand : ExprId} {p : Nat} {o o' : Option Found}

/-- What is asked for yields the same on both sides. -/
def Agree (R R' : ExprId → Nat → Option Found → Prop) (ask : ExprId → Nat → Prop) : Prop :=
  ∀ i q o o', ask i q → R i q o → R' i q o' → o' = o

theorem AskEach.imp (hR : ∀ i q f, R i q (some f) → R' i q (some f)) (h : AskEach R' ask items p) :
    AskEach R ask items p := by
  induction items generalizing p with
  | nil => trivial
  | cons item rest ih => exact ⟨h.1, fun f hf => ih (h.2 f (hR item p f hf))⟩

theorem Each.agree (hagree : Agree R R' ask) (hask : AskEach R ask items p) (h : Each R items p o)
    (h' : Each R' items p o') : o' = o := by
  induction h generalizing o' with
  | nil p =>
      cases h'
      rfl
  | fail rest hfail =>
      cases h' with
      | fail => rfl
      | next hfirst => cases hagree _ _ _ _ hask.1 hfail hfirst
  | next hfirst _ ih =>
      cases h' with
      | fail _ hfail => cases hagree _ _ _ _ hask.1 hfirst hfail
      | next hfirst' hrest' =>
          cases hagree _ _ _ _ hask.1 hfirst hfirst'
          rw [ih (hask.2 _ hfirst) hrest']

theorem First.agree (hagree : Agree R R' ask) (hask : ∀ i ∈ items, ask i p) (h : First R items p o)
    (h' : First R' items p o') : o' = o := by
  induction h generalizing o' with
  | nil p =>
      cases h'
      rfl
  | here rest hfirst =>
      cases h' with
      | here _ hfirst' => exact hagree _ _ _ _ (hask _ (List.mem_cons_self ..)) hfirst hfirst'
      | next hfail => cases hagree _ _ _ _ (hask _ (List.mem_cons_self ..)) hfirst hfail
  | next hfail _ ih =>
      cases h' with
      | here _ hfirst => cases hagree _ _ _ _ (hask _ (List.mem_cons_self ..)) hfail hfirst
      | next _ hrest => exact ih (fun i hi => hask i (List.mem_cons_of_mem _ hi)) hrest

/-- A repetition agrees on the number of matches, too. -/
theorem Many.agree (hagree : Agree R R' ask) {last : Nat}
    (hask : ∀ q, p ≤ q → q ≤ last → ask operand q)
    (hbounds : ∀ q f, R operand q (some f) → q ≤ f.stop ∧ f.stop ≤ last) (hp : p ≤ last)
    {count count' : Nat} {f f' : Found} (h : Many R operand p count f)
    (h' : Many R' operand p count' f') : count' = count ∧ f' = f := by
  induction h generalizing count' f' with
  | fail hfail =>
      have hasked := hask _ le_rfl hp
      cases h' with
      | fail => exact ⟨rfl, rfl⟩
      | stay hstay => cases hagree _ _ _ _ hasked hfail hstay
      | next hmoved => cases hagree _ _ _ _ hasked hfail hmoved
  | stay hstay hstop =>
      have hasked := hask _ le_rfl hp
      cases h' with
      | fail => exact ⟨rfl, rfl⟩
      | stay => exact ⟨rfl, rfl⟩
      | next hmoved hne =>
          cases hagree _ _ _ _ hasked hstay hmoved
          exact absurd hstop hne
  | next hmoved hne _ ih =>
      have hasked := hask _ le_rfl hp
      cases h' with
      | fail hfail => cases hagree _ _ _ _ hasked hmoved hfail
      | stay hstay hstop =>
          cases hagree _ _ _ _ hasked hmoved hstay
          exact absurd hstop hne
      | next hmoved' _ hrest' =>
          cases hagree _ _ _ _ hasked hmoved hmoved'
          obtain ⟨hforward, hlast⟩ := hbounds _ _ hmoved
          obtain ⟨rfl, rfl⟩ := ih (fun q hq => hask q (hforward.trans hq)) hlast hrest'
          exact ⟨rfl, rfl⟩

end Items

/-! ## Plain shapes -/

section Plain

variable {R R' : Scope → ExprId → Nat → Option Found → Prop} {g g' : Grammar} {n : Nullability}
variable {text : Text} {ask : Scope → ExprId → Nat → Prop} {c c' : Scope} {p : Nat}
variable {s : Shape ExprId} {o o' : Option Found}

/-- A plain shape yields the same if its children do, in all the scopes that it matches them in. -/
theorem Shape.Finds.agree (hp : p ≤ text.length)
    (hwithin : ∀ c i q f, R c i q (some f) → f.Within text q (n.isNullable i))
    (hask : (Protocol.ending g n text True).Asks ask g text c p s)
    (hagree : Agree (R c) (R' c') (ask c))
    (hquiet : Agree (R c.quiet) (R' c'.quiet) (ask c.quiet))
    (hreset : ∀ floor, Agree (R (c.reset floor)) (R' (c'.reset floor)) (ask (c.reset floor)))
    (hskip : ∀ f o o', Combinators.Skips g text f o → Combinators.Skips g' text f o' → o' = o)
    (h : s.Finds R g text c p o) (h' : s.Finds R' g' text c' p o') : o' = o := by
  have hmany : ∀ {e count count' f f'},
      Combinators.Repeats (.ending g n text True) ask c e p text.length →
      Many (R c) e p count f → Many (R' c') e p count' f' → count' = count ∧ f' = f :=
    fun hrepeats hmany hmany' => hmany.agree hagree hrepeats.asked
      (fun q f hf => ⟨(hwithin _ _ q f hf).forward, (hwithin _ _ q f hf).stop⟩) hp hmany'
  cases s with
  | literal | any | range | set => exact h'.trans h.symm
  | sequence items =>
      refine Each.agree hagree (AskEach.imp ?_ hask) h h'
      rintro i q f hf _ ⟨⟩
      exact hwithin c i q f hf
  | choice items => exact First.agree hagree hask h h'
  | optional e =>
      obtain ⟨o₁, hfinds, rfl⟩ := h
      obtain ⟨o₁', hfinds', rfl⟩ := h'
      rw [hagree e p _ _ hask hfinds hfinds']
  | zeroMore e =>
      obtain ⟨count, f, hfinds, rfl⟩ := h
      obtain ⟨count', f', hfinds', rfl⟩ := h'
      rw [(hmany hask hfinds hfinds').2]
  | oneMore e =>
      obtain ⟨count, f, hfinds, rfl⟩ := h
      obtain ⟨count', f', hfinds', rfl⟩ := h'
      obtain ⟨rfl, rfl⟩ := hmany hask hfinds hfinds'
      rfl
  | lookahead e =>
      obtain ⟨o₁, hfinds, rfl⟩ := h
      obtain ⟨o₁', hfinds', rfl⟩ := h'
      rw [hagree e p _ _ hask hfinds hfinds']
  | not e =>
      obtain ⟨o₁, hfinds, rfl⟩ := h
      obtain ⟨o₁', hfinds', rfl⟩ := h'
      rw [hquiet e p _ _ hask hfinds hfinds']
  | token e =>
      rcases h with ⟨hfails, rfl⟩ | ⟨f, hfinds, hskips⟩
      · rcases h' with ⟨-, rfl⟩ | ⟨f', hfinds', -⟩
        · rfl
        · cases hagree e p _ _ hask.1 hfails hfinds'
      · rcases h' with ⟨hfails, -⟩ | ⟨f', hfinds', hskips'⟩
        · cases hagree e p _ _ hask.1 hfinds hfails
        · cases hagree e p _ _ hask.1 hfinds hfinds'
          exact hskip f o o' hskips hskips'
  | capture e mode =>
      obtain ⟨o₁, hfinds, rfl⟩ := h
      obtain ⟨o₁', hfinds', rfl⟩ := h'
      rw [hagree e p _ _ hask hfinds hfinds']
  | minPrecedence e floor => exact hreset floor e p _ _ hask h h'
  | reference | leftRecursive | cluster | custom => exact h.elim

end Plain

/-! ## Boundaries -/

/-- Scopes in a relation that answer alike for a boundary, and that stay in it when the boundary
    changes them.  The boundary may have different names on the two sides. -/
structure Scope.Likeness (M : Scope → Scope → Prop) (id id' : ExprId) : Prop where
  seed {c c' : Scope} {p : Nat} : M c c' →
    (c'.seeds.get? { expr := id', position := p }).map (Option.map Changes.found) =
      (c.seeds.get? { expr := id, position := p }).map (Option.map Changes.found)
  blocked {c c' : Scope} : M c c' → c'.seeds.isBlocked id' = c.seeds.isBlocked id
  floor {c c' : Scope} : M c c' → c'.floors.floor id' = c.floors.floor id
  seeded {c c' : Scope} {p : Nat} {best best' : Option Changes} : M c c' →
    best'.map Changes.found = best.map Changes.found →
    M (c.seeded { expr := id, position := p } best) (c'.seeded { expr := id', position := p } best')
  blocking {c c' : Scope} {blocked : Bool} : M c c' →
    M (c.blocking id blocked) (c'.blocking id' blocked)
  atLevel {c c' : Scope} {level : Precedence} : M c c' →
    M (c.atLevel id level) (c'.atLevel id' level)

section Boundaries

variable {M : Scope → Scope → Prop} {R R' : Scope → ExprId → Nat → Option Found → Prop}
variable {n : Nullability} {text : Text} {c c' : Scope} {id id' operand : ExprId} {p : Nat}
variable {best best' : Option Changes} {o o' : Option Found} {leftAssociative : Bool}
variable {groups : List (Group ExprId)}

theorem Scope.Likeness.growing (hM : Scope.Likeness M id id') (hc : M c c') :
    M (c.growing { expr := id, position := p } leftAssociative)
      (c'.growing { expr := id', position := p } leftAssociative) := by
  cases leftAssociative with
  | true => exact hM.blocking (hM.seeded hc rfl)
  | false => exact hM.seeded hc rfl

namespace Growth

theorem advances_of_found (h : best'.map Changes.found = best.map Changes.found) (stop : Nat) :
    advances stop best' = advances stop best := by
  cases best with
  | none =>
      cases best' with
      | none => rfl
      | some changes' => cases h
  | some changes =>
      cases best' with
      | none => cases h
      | some changes' =>
          have hstop : changes'.stop = changes.stop := congrArg Found.stop (Option.some.inj h)
          rw [advances, advances, hstop]

theorem surpasses_iff (h : best'.map Changes.found = best.map Changes.found) :
    Surpasses best' o ↔ Surpasses best o := by
  simp only [Surpasses, advances_of_found h]

/-- What is needed of an operand of a boundary: it agrees in all scopes that are like one another and
    hold what `c` holds, but for a seed of the boundary. -/
def AgreesSeeded (M : Scope → Scope → Prop) (R R' : Scope → ExprId → Nat → Option Found → Prop)
    (n : Nullability) (text : Text) (c : Scope) (id : ExprId) (p : Nat) (i : ExprId) : Prop :=
  ∀ d d' seed o o', M d d' → Calm n text True id p seed →
    (∀ j, d.seeds.get? j = if j = { expr := id, position := p } then some seed else c.seeds.get? j) →
    R d i p o → R' d' i p o' → o' = o

/-- Seeds that grow until they are not surpassed are the same in the end. -/
theorem grown_agree (hM : Scope.Likeness M id id') (hc : M c c')
    (hwithin : ∀ c f, R c operand p (some f) → f.Within text p (n.isNullable id))
    (hagree : AgreesSeeded M R R' n text c id p operand)
    (hgrows : Grown R c ⟨id, p⟩ operand leftAssociative best)
    (hdone : Stalls R (c.growing ⟨id, p⟩ leftAssociative) ⟨id, p⟩ operand best)
    (hgrows' : Grown R' c' ⟨id', p⟩ operand leftAssociative best')
    (hdone' : Stalls R' (c'.growing ⟨id', p⟩ leftAssociative) ⟨id', p⟩ operand best') :
    best'.map Changes.found = best.map Changes.found := by
  have hruns : ∀ {best best' o o'},
      Grown R c ⟨id, p⟩ operand leftAssociative best →
      best'.map Changes.found = best.map Changes.found →
      R ((c.growing ⟨id, p⟩ leftAssociative).seeded ⟨id, p⟩ best) operand p o →
      R' ((c'.growing ⟨id', p⟩ leftAssociative).seeded ⟨id', p⟩ best') operand p o' → o' = o :=
    fun hgrows hsame => hagree _ _ _ _ _ (hM.seeded (hM.growing hc) hsame)
      (calm_of_grows hwithin hgrows) fun _ => Scope.get?_growing
  refine (ReflTransGen.corresponds _ _ (fun best best' =>
    Grown R c ⟨id, p⟩ operand leftAssociative best ∧
      best'.map Changes.found = best.map Changes.found) ?_ ?_ ?_ hgrows hdone hgrows' hdone'
      ⟨.refl, rfl⟩).2
  · rintro best best' _ _ ⟨hgrows, hsame⟩ ⟨changes, rfl, hfound, hadvances⟩
      ⟨changes', rfl, hfound', -⟩
    exact ⟨hgrows.tail ⟨changes, rfl, hfound, hadvances⟩, hruns hgrows hsame hfound hfound'⟩
  · rintro best best' _ ⟨hgrows, hsame⟩ ⟨changes, rfl, hfound, hadvances⟩ ⟨o', ho', hstalls'⟩
    rw [hruns hgrows hsame hfound ho', surpasses_iff hsame] at hstalls'
    exact hstalls' ⟨_, rfl, hadvances⟩
  · rintro best best' _ ⟨hgrows, hsame⟩ ⟨changes', rfl, hfound', hadvances'⟩ ⟨o, ho, hstalls⟩
    rw [← hruns hgrows hsame ho hfound', ← surpasses_iff hsame] at hstalls
    exact hstalls ⟨_, rfl, hadvances'⟩

/-- A left-recursive boundary yields the same if its operand does. -/
theorem Recurs.agree (hM : Scope.Likeness M id id') (hc : M c c')
    (hwithin : ∀ c f, R c operand p (some f) → f.Within text p (n.isNullable id))
    (hagree : c.seeds.get? ⟨id, p⟩ = none → AgreesSeeded M R R' n text c id p operand)
    (h : Recurs R c ⟨id, p⟩ operand leftAssociative o)
    (h' : Recurs R' c' ⟨id', p⟩ operand leftAssociative o') : o' = o := by
  have hseed := hM.seed (p := p) hc
  have hblocked := hM.blocked hc
  cases h with
  | @replayed seed hget =>
      rw [hget] at hseed
      cases h' with
      | replayed hget' =>
          rw [hget'] at hseed
          exact Option.some.inj hseed
      | single hnone | grown hnone =>
          rw [hnone] at hseed
          cases hseed
  | single hget hsingle ho =>
      rw [hget] at hseed
      cases h' with
      | replayed hget' =>
          rw [hget'] at hseed
          cases hseed
      | single _ _ ho' =>
          refine hagree hget _ _ none _ _ (hM.blocking (hM.seeded hc rfl)) calm_none ?_ ho ho'
          intro j
          rw [Scope.get?_blocking, Scope.get?_seeded]
      | grown _ hgrows =>
          rw [hblocked, hsingle] at hgrows
          cases hgrows
  | grown hget hgrows hchain hstalls =>
      rw [hget] at hseed
      cases h' with
      | replayed hget' =>
          rw [hget'] at hseed
          cases hseed
      | single _ hsingle =>
          rw [hblocked, hgrows] at hsingle
          cases hsingle
      | grown _ _ hchain' hstalls' =>
          exact grown_agree hM hc hwithin (hagree hget) hchain hstalls hchain' hstalls'

/-- The alternatives of a group agree on which of them becomes the seed. -/
theorem Climbs.agree {R R' : ExprId → Option Found → Prop} {alternatives : List ExprId}
    (hbest : best'.map Changes.found = best.map Changes.found)
    (hagree : ∀ i ∈ alternatives, ∀ o o', R i o → R' i o' → o' = o)
    (h : Climbs R best alternatives o) (h' : Climbs R' best' alternatives o') : o' = o := by
  induction h with
  | nil =>
      cases h'
      rfl
  | here rest hfirst hfar =>
      cases h' with
      | here _ hfirst' => exact hagree _ (List.mem_cons_self ..) _ _ hfirst hfirst'
      | next hfirst' hstalls =>
          cases hagree _ (List.mem_cons_self ..) _ _ hfirst hfirst'
          exact absurd ((surpasses_iff hbest).mpr hfar) hstalls
  | next hfirst hstalls _ ih =>
      cases h' with
      | here _ hfirst' hfar =>
          cases hagree _ (List.mem_cons_self ..) _ _ hfirst hfirst'
          exact absurd ((surpasses_iff hbest).mp hfar) hstalls
      | next _ _ hrest => exact ih (fun i hi => hagree i (List.mem_cons_of_mem _ hi)) hrest

/-- Seeds that climb through the groups are the same in the end. -/
theorem climbed_agree (hM : Scope.Likeness M id id') (hc : M c c')
    (hwithin : ∀ c i f, (∃ group ∈ groups, i ∈ group.alternatives) →
      R c i p (some f) → f.Within text p (n.isNullable id))
    (hagree : ∀ group ∈ groups, ∀ i ∈ group.alternatives, AgreesSeeded M R R' n text c id p i)
    (hturns : ReflTransGen (Turn R c ⟨id, p⟩) (groups, none) ([], best))
    (hturns' : ReflTransGen (Turn R' c' ⟨id', p⟩) (groups, none) ([], best')) :
    best'.map Changes.found = best.map Changes.found := by
  have hclimbs : ∀ {group rest best best' o o'},
      ReflTransGen (Turn R c ⟨id, p⟩) (groups, none) (group :: rest, best) →
      best'.map Changes.found = best.map Changes.found →
      Climbs (fun i => R ((c.atLevel id (levelFloor group)).seeded ⟨id, p⟩ best) i p) best
        group.alternatives o →
      Climbs (fun i => R' ((c'.atLevel id' (levelFloor group)).seeded ⟨id', p⟩ best') i p) best'
        group.alternatives o' → o' = o := by
    intro group rest best best' o o' hturns hsame
    obtain ⟨hsuffix, hcalm⟩ := calm_of_turns hwithin hturns
    refine Climbs.agree hsame fun i hi o o' => ?_
    exact hagree group (hsuffix.subset (List.mem_cons_self ..)) i hi _ _ _ _ _
      (hM.seeded (hM.atLevel hc) hsame) hcalm fun _ => Scope.get?_seeded
  refine (ReflTransGen.corresponds (fun state => state.1 = []) (fun state => state.1 = [])
    (fun state state' => ReflTransGen (Turn R c ⟨id, p⟩) (groups, none) state ∧
      state'.1 = state.1 ∧ state'.2.map Changes.found = state.2.map Changes.found)
    ?_ ?_ ?_ hturns rfl hturns' rfl ⟨.refl, rfl, rfl⟩).2.2
  · rintro ⟨left, best⟩ ⟨left', best'⟩ _ _ ⟨hturns, hleft, hsame⟩ hturn hturn'
    obtain rfl : left' = left := hleft
    refine ⟨hturns.tail hturn, ?_⟩
    cases hturn with
    | grown hfound =>
        cases hturn' with
        | grown hfound' => exact ⟨rfl, hclimbs hturns hsame hfound hfound'⟩
        | done hfound' => cases hclimbs hturns hsame hfound hfound'
    | done hfound =>
        cases hturn' with
        | grown hfound' => cases hclimbs hturns hsame hfound hfound'
        | done => exact ⟨rfl, hsame⟩
  · rintro _ _ _ ⟨-, hgroups, -⟩ hturn hdone
    cases hturn <;> cases hgroups.symm.trans hdone
  · rintro _ _ _ ⟨-, hgroups, -⟩ hturn' hdone
    cases hturn' <;> cases hgroups.trans hdone

/-- A cluster yields the same if its alternatives do. -/
theorem Scales.agree (hM : Scope.Likeness M id id') (hc : M c c')
    (hwithin : ∀ d i f, (∃ group ∈ admitted c ⟨id, p⟩ groups, i ∈ group.alternatives) →
      R d i p (some f) → f.Within text p (n.isNullable id))
    (hagree : c.seeds.get? ⟨id, p⟩ = none → ∀ group ∈ admitted c ⟨id, p⟩ groups,
      ∀ i ∈ group.alternatives, AgreesSeeded M R R' n text c id p i)
    (h : Scales R c ⟨id, p⟩ groups o) (h' : Scales R' c' ⟨id', p⟩ groups o') : o' = o := by
  have hseed := hM.seed (p := p) hc
  cases h with
  | @replayed seed hget =>
      rw [hget] at hseed
      cases h' with
      | replayed hget' =>
          rw [hget'] at hseed
          exact Option.some.inj hseed
      | climbed hnone =>
          rw [hnone] at hseed
          cases hseed
  | climbed hget hturns =>
      rw [hget] at hseed
      cases h' with
      | replayed hget' =>
          rw [hget'] at hseed
          cases hseed
      | climbed _ hturns' =>
          have hadmitted : admitted c' ⟨id', p⟩ groups = admitted c ⟨id, p⟩ groups := by
            simp only [admitted, hM.floor hc]
          rw [hadmitted] at hturns'
          exact climbed_agree hM hc hwithin (hagree hget) hturns hturns'

/-- A boundary with no seed yields what its operand does, if that is the same for all seeds.  Nothing
    is grown but what the first run found. -/
theorem Recurs.eq_of_operand (hnone : c.seeds.get? ⟨id, p⟩ = none)
    (hsingle : ∀ o', R ((c.seeded ⟨id, p⟩ none).blocking id false) operand p o' → o' = o)
    (hgrowing : ∀ best o', R ((c.growing ⟨id, p⟩ leftAssociative).seeded ⟨id, p⟩ best) operand p o' →
      o' = o)
    (h : Recurs R c ⟨id, p⟩ operand leftAssociative o') : o' = o := by
  cases h with
  | replayed hget => cases hnone.symm.trans hget
  | single _ _ ho => exact hsingle _ ho
  | grown _ _ hgrows hstalls =>
      rcases ReflTransGen.cases_tail hgrows with rfl | ⟨best, -, changes, rfl, hfound, -⟩
      · obtain ⟨o₁, ho₁, hfar⟩ := hstalls
        obtain rfl := hgrowing _ _ ho₁
        cases o₁ with
        | none => rfl
        | some f => exact absurd ⟨f, rfl, rfl⟩ hfar
      · exact hgrowing _ _ hfound

end Growth

end Boundaries

/-! ## All shapes -/

/-- A shape yields the same for like scopes, if whatever it may ask for does. -/
theorem Shape.Yields.agree {M : Scope → Scope → Prop}
    {R R' : Scope → ExprId → Nat → Option Found → Prop} {g g' : Grammar} {n : Nullability}
    {text : Text} {ask : Scope → ExprId → Nat → Prop} {c c' : Scope} {id id' : ExprId} {p : Nat}
    {s : Shape ExprId} {o o' : Option Found} (hM : Scope.Likeness M id id')
    (hquiet : ∀ {d d'}, M d d' → M d.quiet d'.quiet)
    (hreset : ∀ {d d'} floor, M d d' → M (d.reset floor) (d'.reset floor)) (hc : M c c')
    (hwithin : ∀ c i q f, R c i q (some f) → f.Within text q (n.isNullable i))
    (hpermits : g.Permits n text True ask c id p s)
    (hskip : ∀ f o o', Combinators.Skips g text f o → Combinators.Skips g' text f o' → o' = o)
    (hagree : ∀ d d', M d d' → Agree (R d) (R' d') (ask d))
    (h : s.Yields R g text c id p o) (h' : s.Yields R' g' text c' id' p o') : o' = o := by
  have hseeded : s.isBoundary = true → c.seeds.get? ⟨id, p⟩ = none → ∀ i ∈ s.children,
      Growth.AgreesSeeded M R R' n text c id p i :=
    fun hboundary hnone i hi d d' seed o o' hd hcalm hget =>
      hagree d d' hd i p o o' (hpermits.seeded hboundary hnone i hi seed d hcalm hget)
  have hplain : s.isPlain = true → o' = o := by
    intro hplain
    exact Shape.Finds.agree hpermits.position hwithin (hpermits.asks hplain) (hagree c c' hc)
      (hagree _ _ (hquiet hc)) (fun floor => hagree _ _ (hreset floor hc)) hskip
      ((Shape.yields_iff_finds hplain).mp h) ((Shape.yields_iff_finds hplain).mp h')
  cases s with
  | leftRecursive operand leftAssociative =>
      have hnullable : n.isNullable id = n.isNullable operand :=
        Grammar.nullability_holds hpermits.nullability hpermits.shape
      refine Growth.Recurs.agree hM hc (fun d f hf => hnullable ▸ hwithin d operand p f hf) ?_ h h'
      exact fun hnone => hseeded rfl hnone operand (List.mem_singleton_self operand)
  | cluster groups =>
      have hbounds : ∀ d i f, (∃ group ∈ Growth.admitted c ⟨id, p⟩ groups, i ∈ group.alternatives) →
          R d i p (some f) → f.Within text p (n.isNullable id) :=
        fun d i f hi hf => (hwithin d i p f hf).imp (Grammar.nullable_of_alternative
          hpermits.nullability hpermits.shape (Growth.mem_children_of_admitted _ _ hi))
      refine Growth.Scales.agree hM hc hbounds ?_ h h'
      exact fun hnone group hgroup i hi =>
        hseeded rfl hnone i (Growth.mem_children_of_admitted _ _ ⟨group, hgroup, hi⟩)
  | custom spec children => exact absurd rfl (hpermits.custom spec children)
  | _ => exact hplain rfl

end Packrat
