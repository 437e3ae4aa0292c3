import Packrat.Proofs.Coverage

/-! # What expressions yield

    Without memoization and without custom expressions, what a match finds is decided by the grammar,
    the text, the scope and the position alone.  The plain shapes have their rules already
    (`Shape.Finds`).  Here are those of the boundaries: a seed that is there is replayed, a blocked
    boundary runs its operand once, and all others grow a seed STEP BY STEP until it is not surpassed
    (`Growth.Recurs`, `Growth.Scales`).

    An expression yields with a nesting what its shape does with one less (`Grammar.Yields`), and a
    match that answers found what its expression yields (`Parser.run_yields`).  Whatever two grammars
    yield can then be compared without a machine. -/

namespace Packrat

open Relation Matching Engine

/-! ## Rules of the boundaries -/

namespace Scope

/-- The scope with a boundary blocked or unblocked. -/
def blocking (c : Scope) (id : ExprId) (blocked : Bool) : Scope :=
  { c with seeds := c.seeds.setBlocked id blocked }

/-- The scope in which a left-recursive boundary begins to grow. -/
def growing (c : Scope) (key : SeedKey) (leftAssociative : Bool) : Scope :=
  if leftAssociative then (c.seeded key none).blocking key.expr true else c.seeded key none

variable {c : Scope} {key j : SeedKey} {best : Option Changes}

theorem get?_seeded :
    (c.seeded key best).seeds.get? j = if j = key then some best else c.seeds.get? j :=
  Seeds.get?_insert ..

theorem get?_blocking {id : ExprId} {blocked : Bool} :
    (c.blocking id blocked).seeds.get? j = c.seeds.get? j :=
  Seeds.get?_setBlocked ..

theorem get?_growing {leftAssociative : Bool} :
    ((c.growing key leftAssociative).seeded key best).seeds.get? j =
      if j = key then some best else c.seeds.get? j := by
  rw [get?_seeded, growing]
  cases leftAssociative with
  | true =>
      rw [if_pos rfl, get?_blocking, get?_seeded]
      split <;> rfl
  | false =>
      rw [if_neg Bool.false_ne_true, get?_seeded]
      split <;> rfl

end Scope

namespace Growth

section Rules

variable (R : Scope → ExprId → Nat → Option Found → Prop) (c : Scope) (key : SeedKey)

/-- The operand gets farther than the seed, and what it finds is the next seed. -/
def Grows (operand : ExprId) (best next : Option Changes) : Prop :=
  ∃ changes, next = some changes ∧
    R (c.seeded key best) operand key.position (some changes.found) ∧
    advances changes.stop best = true

/-- The operand does not get farther than the seed. -/
def Stalls (operand : ExprId) (best : Option Changes) : Prop :=
  ∃ o, R (c.seeded key best) operand key.position o ∧ ¬ Surpasses best o

/-- A seed that a left-recursive boundary gets to. -/
def Grown (operand : ExprId) (leftAssociative : Bool) : Option Changes → Prop :=
  ReflTransGen (Grows R (c.growing key leftAssociative) key operand) none

/-- What a left-recursive boundary yields, if its operand yields what `R` says. -/
inductive Recurs (operand : ExprId) (leftAssociative : Bool) : Option Found → Prop where
  | replayed {seed : Option Changes} :
      c.seeds.get? key = some seed → Recurs operand leftAssociative (seed.map Changes.found)
  | single {o : Option Found} :
      c.seeds.get? key = none → (leftAssociative && c.seeds.isBlocked key.expr) = true →
      R ((c.seeded key none).blocking key.expr false) operand key.position o →
      Recurs operand leftAssociative o
  | grown {best : Option Changes} :
      c.seeds.get? key = none → (leftAssociative && c.seeds.isBlocked key.expr) = false →
      Grown R c key operand leftAssociative best →
      Stalls R (c.growing key leftAssociative) key operand best →
      Recurs operand leftAssociative (best.map Changes.found)

/-- A turn of the first group.  If an alternative gets farther than the seed, the group runs again
    or is done; if none does, it is done. -/
inductive Turn : List (Group ExprId) × Option Changes → List (Group ExprId) × Option Changes → Prop
    where
  | grown {group : Group ExprId} {rest : List (Group ExprId)} {best : Option Changes}
      {changes : Changes} :
      Climbs (fun i => R ((c.atLevel key.expr (levelFloor group)).seeded key best) i key.position)
        best group.alternatives (some changes.found) →
      Turn (group :: rest, best) (if group.kind.grows then group :: rest else rest, some changes)
  | done {group : Group ExprId} {rest : List (Group ExprId)} {best : Option Changes} :
      Climbs (fun i => R ((c.atLevel key.expr (levelFloor group)).seeded key best) i key.position)
        best group.alternatives none →
      Turn (group :: rest, best) (rest, best)

/-- The groups of a cluster that its floor admits. -/
def admitted (groups : List (Group ExprId)) : List (Group ExprId) :=
  groups.takeWhile fun group => c.floors.floor key.expr ≤ group.precedence

/-- What a cluster yields, if its alternatives yield what `R` says. -/
inductive Scales (groups : List (Group ExprId)) : Option Found → Prop where
  | replayed {seed : Option Changes} :
      c.seeds.get? key = some seed → Scales groups (seed.map Changes.found)
  | climbed {best : Option Changes} :
      c.seeds.get? key = none →
      ReflTransGen (Turn R c key) (admitted c key groups, none) ([], best) →
      Scales groups (best.map Changes.found)

end Rules

/-- An alternative of an admitted group is a child of the cluster. -/
theorem mem_children_of_admitted (c : Scope) (key : SeedKey) {groups : List (Group ExprId)}
    {i : ExprId} (h : ∃ group ∈ admitted c key groups, i ∈ group.alternatives) :
    i ∈ (Shape.cluster groups).children := by
  obtain ⟨group, hgroup, hi⟩ := h
  exact List.mem_flatMap.mpr ⟨group, List.takeWhile_subset _ hgroup, hi⟩

end Growth

/-! ## Rules of all shapes -/

/-- What a shape yields at `p` in the scope `c` for the expression `id`, if its children yield what
    `R` says. -/
def Shape.Yields (R : Scope → ExprId → Nat → Option Found → Prop) (g : Grammar) (text : Text)
    (c : Scope) (id : ExprId) (p : Nat) : Shape ExprId → Option Found → Prop
  | .leftRecursive operand leftAssociative, o =>
      Growth.Recurs R c ⟨id, p⟩ operand leftAssociative o
  | .cluster groups, o => Growth.Scales R c ⟨id, p⟩ groups o
  | s, o => s.Finds R g text c p o

theorem Shape.yields_iff_finds {R : Scope → ExprId → Nat → Option Found → Prop} {g : Grammar}
    {text : Text} {c : Scope} {id : ExprId} {p : Nat} {s : Shape ExprId} {o : Option Found}
    (h : s.isPlain = true) : s.Yields R g text c id p o ↔ s.Finds R g text c p o := by
  cases s with
  | leftRecursive | cluster | custom => cases h
  | _ => rfl

/-- What an expression yields with a nesting.  What is found lies in the text, and farther on unless
    the expression is nullable. -/
def Grammar.Yields (g : Grammar) (n : Nullability) (text : Text) :
    Nat → Scope → ExprId → Nat → Option Found → Prop
  | 0, _, _, _, _ => False
  | nesting + 1, c, id, p, o =>
      (∃ s, g.shape? id = some s ∧ s.Yields (g.Yields n text nesting) g text c id p o) ∧
        ∀ f, o = some f → f.Within text p (n.isNullable id)

variable {g : Grammar} {n : Nullability} {text : Text} {nesting : Nat} {c : Scope} {id : ExprId}
variable {p : Nat} {o : Option Found} {f : Found} {m : Machine} {call call' : Caller}

theorem Grammar.Yields.within (h : g.Yields n text nesting c id p (some f)) :
    f.Within text p (n.isNullable id) := by
  cases nesting with
  | zero => exact h.elim
  | succ nesting => exact h.2 f rfl

/-- A cluster is nullable if one of its alternatives is. -/
theorem Grammar.nullable_of_alternative (hn : g.nullability = .ok n) {groups : List (Group ExprId)}
    (hs : g.shape? id = some (.cluster groups)) {i : ExprId}
    (hi : i ∈ (Shape.cluster groups).children) (h : n.isNullable i = true) :
    n.isNullable id = true := by
  rw [Grammar.nullability_holds hn hs]
  exact List.any_eq_true.mpr ⟨i, hi, h⟩

/-! ## Seeds stay in the text -/

section Calm

variable {R : Scope → ExprId → Nat → Option Found → Prop} {key : SeedKey} {operand : ExprId}
variable {best next : Option Changes} {groups : List (Group ExprId)}

theorem Growth.Grows.calm
    (hR : ∀ c f, R c operand key.position (some f) →
      f.Within text key.position (n.isNullable key.expr))
    (h : Grows R c key operand best next) : Calm n text True key.expr key.position next := by
  obtain ⟨changes, rfl, hfound, -⟩ := h
  rintro _ ⟨⟩
  exact ⟨hR _ _ hfound, Or.inl trivial⟩

/-- Every seed on the way of a left-recursive boundary lies in the text. -/
theorem Growth.calm_of_grows
    (hR : ∀ c f, R c operand key.position (some f) →
      f.Within text key.position (n.isNullable key.expr))
    (h : ReflTransGen (Grows R c key operand) none best) :
    Calm n text True key.expr key.position best := by
  rcases ReflTransGen.cases_tail h with rfl | ⟨_, -, hlast⟩
  · exact calm_none
  · exact hlast.calm hR

/-- Every seed on the way of a cluster lies in the text, and the groups that are left are some of the
    first. -/
theorem Growth.calm_of_turns {state : List (Group ExprId) × Option Changes}
    (hR : ∀ c i f, (∃ group ∈ groups, i ∈ group.alternatives) → R c i key.position (some f) →
      f.Within text key.position (n.isNullable key.expr))
    (h : ReflTransGen (Turn R c key) (groups, none) state) :
    state.1 <:+ groups ∧ Calm n text True key.expr key.position state.2 := by
  induction h with
  | refl => exact ⟨List.suffix_rfl, calm_none⟩
  | tail _ hturn ih =>
      obtain ⟨hsuffix, hcalm⟩ := ih
      cases hturn with
      | @grown group rest best changes hclimbs =>
          obtain ⟨⟨i, hi, hfound⟩, -⟩ := hclimbs.surpasses
          have hgroup : group ∈ groups := hsuffix.subset (List.mem_cons_self ..)
          refine ⟨?_, ?_⟩
          · dsimp only
            split
            · exact hsuffix
            · exact (List.suffix_cons group rest).trans hsuffix
          · rintro _ ⟨⟩
            exact ⟨hR _ i _ ⟨group, hgroup, hi⟩ hfound, Or.inl trivial⟩
      | @done group rest best =>
          exact ⟨(List.suffix_cons group rest).trans hsuffix, hcalm⟩

end Calm

/-! ## The engine follows the rules -/

/-- Matches tell what their expressions yield with a nesting. -/
def Protocol.yielding (g : Grammar) (n : Nullability) (text : Text) (nesting : Nat) : Protocol where
  grammar := g
  faults := True
  entry _ _ := False
  recorded f := ∀ id ∈ f.ids, id < g.size
  tell := g.Yields n text nesting

/-- Nothing but what they tell is different for another nesting. -/
theorem Protocol.Keeps.yielding (h : (Protocol.yielding g n text nesting).Keeps m) (nesting' : Nat) :
    (Protocol.yielding g n text nesting').Keeps m :=
  ⟨h.blank, h.memo, h.recorded⟩

theorem Protocol.Keeps.ending (h : (Protocol.yielding g n text nesting).Keeps m) :
    (Protocol.ending g n text True).Keeps m :=
  ⟨h.blank, fun key o hheld => (h.memo key o hheld).elim, h.recorded⟩

section Engine

variable (hn : g.nullability = .ok n)
include hn

theorem leftRecursive_yields {operand : ExprId} {leftAssociative : Bool}
    (hs : g.shape? id = some (.leftRecursive operand leftAssociative))
    (hcall : (Protocol.yielding g n text nesting).Serves (Visited g n text) call call')
    (hready : Ready g m) (hkeeps : (Protocol.yielding g n text nesting).Keeps m)
    (hvisited : Visited g n text m.state.scope id m.state.stop) :
    Twins m (fun _ => True) (Growth.leftRecursive call text id operand leftAssociative)
      (Growth.leftRecursive call' text id operand leftAssociative)
      ((Protocol.yielding g n text nesting).Leaves
        (Growth.Recurs (g.Yields n text nesting) m.state.scope
          ⟨id, m.state.stop⟩ operand leftAssociative) m) := by
  have hnullable : n.isNullable operand = n.isNullable id := (Grammar.nullability_holds hn hs).symm
  have hwithin : ∀ c f, g.Yields n text nesting c operand m.state.stop (some f) →
      f.Within text m.state.stop (n.isNullable id) :=
    fun c f hfound => hnullable ▸ hfound.within
  have hchild := List.mem_singleton_self operand
  refine Growth.leftRecursive_told hcall le_rfl id operand leftAssociative hready hkeeps rfl ?_ ?_ ?_
  · intro seed hseed
    exact ⟨fun _ _ => Or.inl trivial, .replayed hseed⟩
  · intro hnone hblocked
    refine ⟨hvisited.seeded hn hs hchild calm_none fun key => ?_, fun o ho =>
      .single hnone hblocked ho⟩
    rw [Seeds.get?_setBlocked, Seeds.get?_insert]
    rfl
  · intro hnone hblocked
    have hgrowing : ({ m.state.scope with
        seeds := if leftAssociative
          then (m.state.seeds.insert ⟨id, m.state.stop⟩ none).setBlocked id true
          else m.state.seeds.insert ⟨id, m.state.stop⟩ none } : Scope) =
        m.state.scope.growing ⟨id, m.state.stop⟩ leftAssociative := by
      cases leftAssociative <;> rfl
    dsimp only
    rw [hgrowing]
    refine ⟨Growth.Grown (g.Yields n text nesting) m.state.scope ⟨id, m.state.stop⟩ operand
      leftAssociative, ⟨?_, ?_, ?_⟩, .refl, ?_⟩
    · intro best hgrows
      exact hvisited.seeded hn hs hchild (Growth.calm_of_grows hwithin hgrows) fun _ =>
        Scope.get?_growing
    · intro best f _ hfound
      exact ⟨(hwithin _ f hfound).forward, (hwithin _ f hfound).stop⟩
    · intro best changes hgrows hfound hadvances _
      exact hgrows.tail ⟨changes, rfl, hfound, hadvances⟩
    · intro best o hgrows ho hstalls
      exact .grown hnone hblocked hgrows ⟨o, ho, hstalls⟩

theorem cluster_yields {groups : List (Group ExprId)}
    (hs : g.shape? id = some (.cluster groups))
    (hcall : (Protocol.yielding g n text nesting).Serves (Visited g n text) call call')
    (hready : Ready g m) (hkeeps : (Protocol.yielding g n text nesting).Keeps m)
    (hvisited : Visited g n text m.state.scope id m.state.stop) :
    Twins m (fun _ => True) (Growth.cluster call text id groups)
      (Growth.cluster call' text id groups)
      ((Protocol.yielding g n text nesting).Leaves
        (Growth.Scales (g.Yields n text nesting) m.state.scope ⟨id, m.state.stop⟩ groups) m) := by
  refine Growth.cluster_told hcall le_rfl id groups hready hkeeps rfl ?_ ?_
  · intro seed hseed
    exact ⟨fun _ _ => Or.inl trivial, .replayed hseed⟩
  · intro hnone
    dsimp only
    generalize hadmitted : (groups.takeWhile fun group =>
      m.state.floors.floor id ≤ group.precedence) = admitted
    have hchildren : ∀ i, (∃ group ∈ admitted, i ∈ group.alternatives) →
        i ∈ (Shape.cluster groups).children := by
      subst hadmitted
      exact fun i hi => Growth.mem_children_of_admitted m.state.scope ⟨id, m.state.stop⟩ hi
    have hwithin : ∀ c i f, (∃ group ∈ admitted, i ∈ group.alternatives) →
        g.Yields n text nesting c i m.state.stop (some f) →
        f.Within text m.state.stop (n.isNullable id) :=
      fun c i f hi hfound =>
        hfound.within.imp (Grammar.nullable_of_alternative hn hs (hchildren i hi))
    refine ⟨fun rest best => ReflTransGen (Growth.Turn (g.Yields n text nesting) m.state.scope
      ⟨id, m.state.stop⟩) (admitted, none) (rest, best), ?_, .refl, ?_⟩
    swap
    · subst hadmitted
      exact fun best hturns => .climbed hnone hturns
    intro group rest hsuffix
    have hgroup : group ∈ admitted := hsuffix.subset (List.mem_cons_self ..)
    refine ⟨?_, ?_, ?_, ?_, ?_⟩
    · intro seed hturns
      exact ((Growth.calm_of_turns hwithin hturns).2 seed rfl).1.forward
    · intro best hturns i hi
      exact hvisited.seeded hn hs (hchildren i ⟨group, hgroup, hi⟩)
        (Growth.calm_of_turns hwithin hturns).2 fun _ => Scope.get?_seeded
    · intro best i f _ hi hfound
      have hwithin := hwithin _ i f ⟨group, hgroup, hi⟩ hfound
      exact ⟨hwithin.forward, hwithin.stop⟩
    · intro best changes hturns hclimbs _
      have hgrown := hturns.tail (.grown hclimbs)
      split at hgrown
      · rwa [if_pos ‹_›]
      · rwa [if_neg ‹_›]
    · intro best hturns hclimbs
      exact hturns.tail (.done hclimbs)

/-- What a plain shape yields is what its children yield with the same nesting. -/
theorem plain_yields (config : Config) {s : Shape ExprId} (hs : g.shape? id = some s)
    (hplain : s.isPlain = true)
    (hcall : (Protocol.yielding g n text nesting).Serves (Visited g n text) call call')
    (hready : Ready g m) (hkeeps : (Protocol.yielding g n text nesting).Keeps m)
    (hvisited : Visited g n text m.state.scope id m.state.stop) :
    Twins m (fun _ => True) (dispatch ⟨g, text, config⟩ call id s)
      (dispatch ⟨g, text, config⟩ call' id s)
      ((Protocol.yielding g n text nesting).Leaves
        (s.Yields (g.Yields n text nesting) g text m.state.scope id m.state.stop) m) := by
  have hasks : (Protocol.yielding g n text nesting).Asks (Visited g n text) g text m.state.scope
      m.state.stop s := by
    refine Protocol.asks_of_forall trivial hvisited.position ?_ ?_ ?_ ?_
    · exact fun i q hi _ hle => hvisited.unseeded hn hs hi hle fun _ => rfl
    · rintro e rfl
      exact hvisited.unseeded hn hs (List.mem_singleton_self e) hvisited.position fun _ => rfl
    · rintro e floor rfl
      exact hvisited.unseeded hn hs (List.mem_singleton_self e) hvisited.position fun _ => rfl
    · intro i q f _ _ _ hfound
      exact ⟨hfound.within.forward, hfound.within.stop⟩
  exact (dispatch_told ⟨g, text, config⟩ hcall hready hkeeps hvisited.position id hplain hasks).imp
    fun b m' hleaves => hleaves.imp fun o => (Shape.yields_iff_finds hplain).mpr

variable (hcustom : ∀ i spec children, g.shape? i ≠ some (.custom spec children))
include hcustom

/-- What a shape yields is what its children yield with the same nesting. -/
theorem dispatch_yields (config : Config) {s : Shape ExprId} (hs : g.shape? id = some s)
    (hcall : (Protocol.yielding g n text nesting).Serves (Visited g n text) call call')
    (hready : Ready g m) (hkeeps : (Protocol.yielding g n text nesting).Keeps m)
    (hvisited : Visited g n text m.state.scope id m.state.stop) :
    Twins m (fun _ => True) (dispatch ⟨g, text, config⟩ call id s)
      (dispatch ⟨g, text, config⟩ call' id s)
      ((Protocol.yielding g n text nesting).Leaves
        (s.Yields (g.Yields n text nesting) g text m.state.scope id m.state.stop) m) := by
  cases s with
  | leftRecursive operand leftAssociative =>
      exact Twins.state_bind (leftRecursive_yields hn hs hcall hready hkeeps hvisited)
  | cluster groups => exact Twins.state_bind (cluster_yields hn hs hcall hready hkeeps hvisited)
  | custom spec children => exact absurd hs (hcustom id spec children)
  | _ => exact plain_yields hn config hs rfl hcall hready hkeeps hvisited

omit hn hcustom in
theorem yielding_admits {config : Config} (hconfig : config.memoization = .none)
    (hinside : id < g.size) (s : ParseState) :
    (Protocol.yielding g n text nesting).Admits ⟨g, text, config⟩ s id where
  grammar := rfl
  steps := Or.inl trivial
  node := Or.inl trivial
  held := fun o hentry => hentry.elim
  store := by
    intro expr o hmemoizes
    rw [memoizes, hconfig] at hmemoizes
    cases hmemoizes
  record := fun f position => Failures.forall_ids_record hinside

/-- A match that answers found what its expression yields with the nesting that it was given. -/
theorem invoke_yields {config : Config} (hconfig : config.memoization = .none) (nesting : Nat) :
    (Protocol.yielding g n text nesting).Serves (Visited g n text)
      (invoke ⟨g, text, config⟩ nesting) (invoke ⟨g, text, config⟩ nesting) := by
  induction nesting with
  | zero =>
      refine ⟨invoke_obeys ⟨g, text, config⟩ 0, fun id m _ _ _ => ?_⟩
      refine ((countStep_standing m).settle (Or.inl trivial)).bind ?_
      rintro ⟨⟩ m₁ -
      exact Twins.state_bind (Twins.throw trivial)
  | succ nesting ih =>
      refine ⟨invoke_obeys ⟨g, text, config⟩ (nesting + 1), fun id m hready hkeeps hvisited => ?_⟩
      refine Protocol.attempt_told ih.obeys (yielding_admits hconfig hvisited.inside m.state) hready
        hkeeps ?_
      intro expr m₁ hnode hstate hready₁ hkeeps₁
      have hs := Grammar.shape?_of_node? hnode
      rw [← hstate] at hvisited
      -- what the shape yields, and where that lies
      have hyields := dispatch_yields hn hcustom config hs ih hready₁ (hkeeps₁.yielding nesting)
        hvisited
      have hserves : (Protocol.ending g n text True).Serves
          (fun c i q => Visited g n text c i q ∧ ¬ False) (invoke ⟨g, text, config⟩ nesting)
          (invoke ⟨g, text, config⟩ nesting) :=
        (invoke_visited hn hcustom text config nesting).narrow fun _ _ _ hask => hask.1
      have hends := dispatch_ending config hserves hready₁ hkeeps₁.ending
        (hvisited.permits hn hcustom hs (fun _ _ => not_false) fun _ _ _ => not_false)
      refine (hyields.and hends).imp ?_
      rintro b m' ⟨hleaves, hwithin⟩
      exact ⟨hleaves.keeps.yielding _, ⟨_, hs, hleaves.outcome⟩, hwithin.outcome⟩

end Engine

/-! ## Whole runs -/

/-- The scope of a parse at its start. -/
def Scope.initial : Scope :=
  { seeds := Seeds.empty, floors := {}, recording := true }

theorem Scope.canonical_initial : Scope.initial.Canonical :=
  ⟨Seeds.canonical_empty, Floors.canonical_uniform 0⟩

theorem visited_initial (hinside : id < g.size) : Visited g n text Scope.initial id 0 :=
  ⟨hinside, Nat.zero_le _, fun _ _ _ hseed => by cases hseed⟩

/-- A run that answered is made of what its root yields. -/
theorem Parser.run_yields (parser : Parser) (hn : parser.grammar.nullability = .ok n)
    (hcustom : ∀ i spec children, parser.grammar.shape? i ≠ some (.custom spec children))
    (hconfig : parser.config.memoization = .none) {b : Bool} (hrun : parser.run text = .ok b m) :
    parser.root < parser.grammar.size ∧
      ∃ o, parser.grammar.Yields n text parser.config.maxDepth .initial parser.root 0 o ∧
        b = o.isSome ∧ m.state.stop = (o.map Found.stop).getD 0 ∧
        m.state.captures.nodes = (o.map Found.nodes).getD [] := by
  have hinside : parser.root < parser.grammar.size := inside_of_answers hrun
  have hends : (Protocol.ending parser.grammar n text True).Keeps (.initial parser.config) :=
    Protocol.ending_initial parser.config
  have hkeeps : (Protocol.yielding parser.grammar n text parser.config.maxDepth).Keeps
      (.initial parser.config) :=
    Protocol.keeps_initial parser.config hends.recorded
  obtain ⟨⟨-, hyields⟩, -, hanswer⟩ := ((invoke_yields hn hcustom hconfig _).asked
    (ready_initial parser.grammar parser.config) hkeeps (visited_initial hinside)).answer hrun
  refine ⟨hinside, _, hyields, ?_⟩
  cases b with
  | true => exact ⟨rfl, rfl, rfl⟩
  | false =>
      have hstate : m.state = .initial parser.config.slots := hanswer
      rw [hstate]
      exact ⟨rfl, rfl, rfl⟩

end Packrat
