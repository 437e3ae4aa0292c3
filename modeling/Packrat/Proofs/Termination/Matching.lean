import Packrat.Proofs.Protocol.Invocation
import Packrat.Proofs.Protocol.Shapes

/-! # Matching ends

    The protocol says where matches end, and that seeds and kept outcomes end there too.  It asks for
    an expression with a nesting still allowed that exceeds the effort of the match, unless faults are
    of no concern; each form then has enough left for its children.  Every loop of a form ends by
    itself: with rounds for any longer text it would do the same (`loop_told`). -/

namespace Packrat

open Relation Matching Engine Finset

/-! ## The protocol -/

/-- An outcome of a match at a place: it ends in the text, and it adds nothing to slots unless faults
    are of no concern. -/
def Calm (n : Nullability) (text : Text) (faults : Prop) (id : ExprId) (p : Nat)
    (o : Option Changes) : Prop :=
  ∀ changes, o = some changes →
    changes.found.Within text p (n.isNullable id) ∧ (faults ∨ changes.Bare)

/-- The expressions in the record. -/
def Failures.ids : Failures → List ExprId
  | .farthest failures => failures.failed
  | .first (some (id, _)) => [id]
  | .first none | .silent => []

/-- Matches tell where they end; so does whatever is kept of them, and failures are those of
    expressions of the grammar. -/
def Protocol.ending (g : Grammar) (n : Nullability) (text : Text) (faults : Prop) : Protocol where
  grammar := g
  faults := faults
  entry key o := Calm n text faults key.expr key.position o
  recorded f := ∀ id ∈ f.ids, id < g.size
  tell _ id p o := ∀ f, o = some f → f.Within text p (n.isNullable id)

/-- An analysed grammar from whose root no reference and no custom expression can be reached, and
    whose whitespace is skipped to an end.  Unless nesting is of no concern, every cycle of first
    positions goes through a boundary. -/
structure Grammar.Sheltered (g : Grammar) (n : Nullability) (root : ExprId) (free : Prop) : Prop where
  nullability : g.nullability = .ok n
  inside : root < g.size
  resolved : ∀ id name, ReflTransGen g.Child root id → g.shape? id ≠ some (.reference name)
  custom : ∀ id spec children, ReflTransGen g.Child root id →
    g.shape? id ≠ some (.custom spec children)
  acyclic : free ∨ ∀ v, ¬ TransGen (g.BareEdge n) v v
  skips : ∀ {text : Text} {ws : ExprId} {p : Nat}, g.whitespace = some ws → p ≤ text.length →
    SkipEnds text n (g.skip text) ws p

theorem Grammar.Guarded.sheltered {g : Grammar} {n : Nullability} {root : ExprId} {free : Prop}
    (h : g.Guarded n root) : g.Sheltered n root free where
  nullability := h.nullability
  inside := h.inside
  resolved := h.resolved
  custom := h.custom
  acyclic := Or.inr (Grammar.cycles_broken_iff.mp h.cycles)
  skips := fun hws hp =>
    Grammar.skip_ends h.nullability (h.whitespace _ hws) (h.acyclic_whitespace hws) hp

/-- A match of `id` at `p` in the scope `c` may ask for its children: for those in first position
    where it begins, for all of them farther on, and once it has left a seed for all of them where it
    begins. -/
structure Grammar.Permits (g : Grammar) (n : Nullability) (text : Text) (faults : Prop)
    (ask : Scope → ExprId → Nat → Prop) (c : Scope) (id : ExprId) (p : Nat) (s : Shape ExprId) :
    Prop where
  nullability : g.nullability = .ok n
  shape : g.shape? id = some s
  resolved : faults ∨ ∀ name, s ≠ .reference name
  custom : ∀ spec children, s ≠ .custom spec children
  skips : faults ∨ ∀ ws q, g.whitespace = some ws → q ≤ text.length →
    ∃ stop, g.skip text ws q = .ok stop
  position : p ≤ text.length
  held : ∀ seed, c.seeds.get? { expr := id, position := p } = some seed →
    Calm n text faults id p seed
  first : s.isBoundary = false → ∀ child ∈ s.firsts n.isNullable, ∀ c' : Scope,
    (∀ key, c'.seeds.get? key = c.seeds.get? key) → ask c' child p
  later : ∀ child ∈ s.children, ∀ q, p < q → q ≤ text.length → ask c child q
  seeded : s.isBoundary = true → c.seeds.get? { expr := id, position := p } = none →
    ∀ child ∈ s.children, ∀ (seed : Option Changes) (c' : Scope), Calm n text faults id p seed →
      (∀ key, c'.seeds.get? key =
        if key = { expr := id, position := p } then some seed else c.seeds.get? key) →
      ask c' child p

/-- Where an expression may be asked for, with a nesting still allowed. -/
structure Asked (g : Grammar) (n : Nullability) (text : Text) (faults free : Prop)
    (root : ExprId) (nesting : Nat) (c : Scope) (id : ExprId) (p : Nat) : Prop where
  reach : ReflTransGen g.Child root id
  inside : id < g.size
  position : p ≤ text.length
  seeds : ∀ i q seed, c.seeds.get? { expr := i, position := q } = some seed →
    Calm n text faults i q seed
  depth : free ∨ g.effort n text.length c.seeds id p < nesting

namespace Asked

variable {g : Grammar} {n : Nullability} {text : Text} {faults free : Prop} {root : ExprId}
variable {nesting : Nat} {c c' : Scope} {id child : ExprId} {p q : Nat} {s : Shape ExprId}

/-- Seeds are all that a scope matters for. -/
theorem of_get?_eq (h : Asked g n text faults free root nesting c id p)
    (hget : ∀ key, c'.seeds.get? key = c.seeds.get? key) :
    Asked g n text faults free root nesting c' id p := by
  have hunseeded : g.unseeded c'.seeds p = g.unseeded c.seeds p := by
    simp only [Grammar.unseeded, hget]
  refine ⟨h.reach, h.inside, h.position, ?_, ?_⟩
  · intro i q seed hseed
    exact h.seeds i q seed (hget _ ▸ hseed)
  · rw [Grammar.effort, hunseeded]
    exact h.depth

/-- What needs less than the parent has enough with one nesting less. -/
theorem deeper (hshelter : g.Sheltered n root free)
    (h : Asked g n text faults free root (nesting + 1) c id p)
    (hless : (∀ v, ¬ TransGen (g.BareEdge n) v v) →
      g.effort n text.length c'.seeds child q < g.effort n text.length c.seeds id p) :
    free ∨ g.effort n text.length c'.seeds child q < nesting := by
  rcases h.depth with hfree | hdepth
  · exact Or.inl hfree
  · exact hshelter.acyclic.imp_right fun hacyclic =>
      Nat.lt_of_lt_of_le (hless hacyclic) (Nat.le_of_lt_succ hdepth)

/-- A child in first position, where its parent began. -/
theorem first (hshelter : g.Sheltered n root free) (h : Asked g n text faults free root (nesting + 1) c id p)
    (hs : g.shape? id = some s) (hboundary : s.isBoundary = false)
    (hchild : child ∈ s.firsts n.isNullable) : Asked g n text faults free root nesting c child p := by
  have hmem := Shape.mem_children_of_firsts hchild
  have hinside := Grammar.child_lt_size hshelter.nullability hs hmem
  refine ⟨h.reach.tail ⟨s, hs, hmem⟩, hinside, h.position, h.seeds, h.deeper hshelter ?_⟩
  intro hacyclic
  exact Grammar.effort_first hacyclic hinside (Grammar.bareEdge_of_firsts hs hboundary hchild)

/-- A child farther on. -/
theorem later (hshelter : g.Sheltered n root free) (h : Asked g n text faults free root (nesting + 1) c id p)
    (hs : g.shape? id = some s) (hchild : child ∈ s.children) (hpq : p < q)
    (hq : q ≤ text.length) : Asked g n text faults free root nesting c child q := by
  have hinside := Grammar.child_lt_size hshelter.nullability hs hchild
  refine ⟨h.reach.tail ⟨s, hs, hchild⟩, hinside, hq, h.seeds, h.deeper hshelter ?_⟩
  exact fun hacyclic => Grammar.effort_later hacyclic hinside hpq hq

/-- A child where a boundary began, which has left a seed. -/
theorem seeded (hshelter : g.Sheltered n root free) (h : Asked g n text faults free root (nesting + 1) c id p)
    (hs : g.shape? id = some s) (hboundary : s.isBoundary = true) (hchild : child ∈ s.children)
    (hnone : c.seeds.get? { expr := id, position := p } = none) {seed : Option Changes}
    (hseed : Calm n text faults id p seed)
    (hget : ∀ key, c'.seeds.get? key =
      if key = { expr := id, position := p } then some seed else c.seeds.get? key) :
    Asked g n text faults free root nesting c' child p := by
  have hinside := Grammar.child_lt_size hshelter.nullability hs hchild
  refine ⟨h.reach.tail ⟨s, hs, hchild⟩, hinside, h.position, ?_, h.deeper hshelter ?_⟩
  · intro i q seed' hseed'
    rw [hget] at hseed'
    split at hseed'
    · rename_i hkey
      cases hkey
      cases hseed'
      exact hseed
    · exact h.seeds i q seed' hseed'
  · intro hacyclic
    have hmem : id ∈ g.boundaries := by
      refine mem_filter.mpr ⟨mem_range.mpr h.inside, ?_⟩
      rw [Grammar.isBoundary, hs]
      exact hboundary
    refine Grammar.effort_seeded hacyclic hinside ?_ ?_ ?_
    · exact mem_filter.mpr ⟨hmem, by rw [hnone]; rfl⟩
    · intro hin
      have hsome := (mem_filter.mp hin).2
      rw [hget, if_pos rfl] at hsome
      cases hsome
    · intro i hi
      obtain ⟨hi, hisNone⟩ := mem_filter.mp hi
      rw [hget] at hisNone
      split at hisNone
      · cases hisNone
      · exact mem_filter.mpr ⟨hi, hisNone⟩

/-- A match that may be asked for may ask for its children. -/
theorem permits (hshelter : g.Sheltered n root free)
    (h : Asked g n text faults free root (nesting + 1) c id p) (hs : g.shape? id = some s) :
    g.Permits n text faults (Asked g n text faults free root nesting) c id p s where
  nullability := hshelter.nullability
  shape := hs
  resolved := by
    refine Or.inr ?_
    rintro name rfl
    exact hshelter.resolved id name h.reach hs
  custom := by
    rintro spec children rfl
    exact hshelter.custom id spec children h.reach hs
  skips := by
    refine Or.inr fun ws q hws hq => ?_
    obtain ⟨stop, hstop, -⟩ := hshelter.skips hws hq
    exact ⟨stop, hstop⟩
  position := h.position
  held := h.seeds id p
  first := fun hboundary _ hchild _ hget =>
    (h.first hshelter hs hboundary hchild).of_get?_eq hget
  later := fun _ hchild _ hlt hle => h.later hshelter hs hchild hlt hle
  seeded := fun hboundary hnone _ hchild _ _ hseed hget =>
    h.seeded hshelter hs hboundary hchild hnone hseed hget

end Asked

/-! ## Forms -/

theorem askEach_within {R : ExprId → Nat → Option Found → Prop} {ask : ExprId → Nat → Prop}
    {text : Text} {nullable : ExprId → Bool} {p q : Nat}
    (hR : ∀ i q f, R i q (some f) → f.Within text q (nullable i)) (items : List ExprId) (hpq : p ≤ q)
    (hq : q ≤ text.length) (hfirst : q = p → ∀ i ∈ upToFirstSolid nullable items, ask i p)
    (hlater : ∀ i ∈ items, ∀ q, p < q → q ≤ text.length → ask i q) : AskEach R ask items q := by
  induction items generalizing q with
  | nil => trivial
  | cons item rest ih =>
      obtain ⟨hlaterItem, hlaterRest⟩ := List.forall_mem_cons.mp hlater
      refine ⟨?_, ?_⟩
      · rcases hpq.eq_or_lt with rfl | hlt
        · refine hfirst rfl item ?_
          rw [upToFirstSolid]
          split <;> exact List.mem_cons_self ..
        · exact hlaterItem q hlt hq
      · intro f hf
        have hmoved := hR _ _ _ hf
        refine ih (hpq.trans hmoved.forward) hmoved.stop ?_ hlaterRest
        intro heq i hi
        have hsame : q = p := Nat.le_antisymm (heq ▸ hmoved.forward) hpq
        refine hfirst hsame i ?_
        rw [upToFirstSolid, if_pos (hmoved.nullable (heq.trans hsame.symm))]
        exact List.mem_cons_of_mem _ hi

/-- The loop of a shape that has one, with rounds for a text. -/
def Engine.loop? (call : Caller) (id : ExprId) : Shape ExprId → Option (Text → Matching Bool)
  | .zeroMore operand => some fun text => Combinators.repetition call text 0 operand
  | .oneMore operand => some fun text => Combinators.repetition call text 1 operand
  | .leftRecursive operand assoc => some fun text => Growth.leftRecursive call text id operand assoc
  | .cluster groups => some fun text => Growth.cluster call text id groups
  | _ => none

section Forms

variable {g : Grammar} {n : Nullability} {text : Text} {faults : Prop} {call call' : Caller}
variable {ask : Scope → ExprId → Nat → Prop} {m : Machine} {id : ExprId} {s : Shape ExprId}
variable {c : Scope} {p : Nat}

/-- What a boundary tells of a seed. -/
theorem Calm.tell {o : Option Changes} (h : Calm n text faults id p o) :
    Growth.BareSeed (.ending g n text faults) o ∧
      (Protocol.ending g n text faults).tell c id p (o.map Changes.found) := by
  refine ⟨fun changes ho => (h changes ho).2, ?_⟩
  intro f hf
  obtain ⟨changes, rfl, rfl⟩ := Option.map_eq_some_iff.mp hf
  exact (h changes rfl).1

theorem calm_none : Calm n text faults id p none := by
  rintro changes ⟨⟩

/-- A repetition has enough left for its operand, wherever it asks for it. -/
theorem Grammar.Permits.repeats {operand : ExprId}
    (hpermits : g.Permits n text faults ask c id p s) (hboundary : s.isBoundary = false)
    (hop : operand ∈ s.firsts n.isNullable) :
    Combinators.Repeats (.ending g n text faults) ask c operand p text.length := by
  refine ⟨?_, fun q f _ _ hf => ⟨(hf f rfl).forward, (hf f rfl).stop⟩⟩
  intro q hfirst hlast
  rcases hfirst.eq_or_lt with rfl | hlt
  · exact hpermits.first hboundary operand hop _ fun _ => rfl
  · exact hpermits.later operand (Shape.mem_children_of_firsts hop) q hlt hlast

theorem repetition_ending (hcall : (Protocol.ending g n text faults).Serves ask call call')
    {longer : Text} (hlonger : text.length ≤ longer.length) (least : Nat) (operand : ExprId)
    (hready : Ready g m) (hkeeps : (Protocol.ending g n text faults).Keeps m)
    (hpermits : g.Permits n text faults ask m.state.scope id m.state.stop s)
    (hboundary : s.isBoundary = false)
    (hfirsts : s.firsts n.isNullable = [operand])
    (hnullable : least = 0 → n.isNullable id = true) :
    Twins m (fun _ => faults) (Combinators.repetition call text least operand)
      (Combinators.repetition call' longer least operand)
      ((Protocol.ending g n text faults).Leaves
        ((Protocol.ending g n text faults).tell m.state.scope id m.state.stop) m) := by
  have hrepeats := hpermits.repeats hboundary (hfirsts ▸ List.mem_singleton_self operand)
  refine (Combinators.repetition_told hcall hlonger least operand hready hkeeps hrepeats
    hpermits.position).imp fun b m' hleaves => hleaves.imp ?_
  rintro o ⟨count, f, hmany, rfl⟩ f' hf'
  split at hf'
  · cases hf'
  · rename_i hcount
    cases hf'
    refine (hmany.within (fun q f _ hf => ⟨(hf f rfl).forward, (hf f rfl).stop⟩)
      hpermits.position).imp ?_
    intro hzero
    exact hnullable (by have := of_decide_eq_true hzero; omega)

theorem leftRecursive_ending (hcall : (Protocol.ending g n text faults).Serves ask call call')
    {longer : Text} (hlonger : text.length ≤ longer.length) (operand : ExprId) (assoc : Bool)
    (hready : Ready g m) (hkeeps : (Protocol.ending g n text faults).Keeps m)
    (hpermits : g.Permits n text faults ask m.state.scope id m.state.stop
      (.leftRecursive operand assoc)) :
    Twins m (fun _ => faults) (Growth.leftRecursive call text id operand assoc)
      (Growth.leftRecursive call' longer id operand assoc)
      ((Protocol.ending g n text faults).Leaves
        ((Protocol.ending g n text faults).tell m.state.scope id m.state.stop) m) := by
  have hchild : operand ∈ (Shape.leftRecursive operand assoc).children := List.mem_singleton_self _
  have hnullable : n.isNullable operand = n.isNullable id :=
    (Grammar.nullability_holds hpermits.nullability hpermits.shape).symm
  refine Growth.leftRecursive_told hcall hlonger id operand assoc hready hkeeps rfl ?_ ?_ ?_
  · intro seed hseed
    exact (hpermits.held seed hseed).tell
  · intro hnone _
    refine ⟨hpermits.seeded rfl hnone operand hchild none _ calm_none fun key => ?_, ?_⟩
    · rw [Seeds.get?_setBlocked, Seeds.get?_insert]
      rfl
    · intro o htell f hf
      exact hnullable ▸ htell f hf
  · intro hnone _
    refine ⟨Calm n text faults id m.state.stop, ⟨?_, ?_, ?_⟩, calm_none, ?_⟩
    · intro best hbest
      refine hpermits.seeded rfl hnone operand hchild best _ hbest fun key => ?_
      cases assoc with
      | true =>
          simp only [Scope.seeded, if_true, Seeds.get?_insert, Seeds.get?_setBlocked]
          split <;> rfl
      | false =>
          simp only [Scope.seeded, Bool.false_eq_true, if_false, Seeds.get?_insert]
          split <;> rfl
    · intro best f _ htell
      exact ⟨(htell f rfl).forward, (htell f rfl).stop⟩
    · rintro best changes _ htell _ hbare _ ⟨⟩
      exact ⟨hnullable ▸ htell _ rfl, hbare⟩
    · intro best o hbest _ _
      exact hbest.tell.2

theorem cluster_ending (hcall : (Protocol.ending g n text faults).Serves ask call call')
    {longer : Text} (hlonger : text.length ≤ longer.length) (groups : List (Group ExprId))
    (hready : Ready g m) (hkeeps : (Protocol.ending g n text faults).Keeps m)
    (hpermits : g.Permits n text faults ask m.state.scope id m.state.stop (.cluster groups)) :
    Twins m (fun _ => faults) (Growth.cluster call text id groups)
      (Growth.cluster call' longer id groups)
      ((Protocol.ending g n text faults).Leaves
        ((Protocol.ending g n text faults).tell m.state.scope id m.state.stop) m) := by
  have hmem : ∀ {group : Group ExprId} {i : ExprId}, group ∈ groups → i ∈ group.alternatives →
      i ∈ (Shape.cluster groups).children :=
    fun hgroup hi => List.mem_flatMap.mpr ⟨_, hgroup, hi⟩
  have hnullable : ∀ {group : Group ExprId} {i : ExprId}, group ∈ groups →
      i ∈ group.alternatives → n.isNullable i = true → n.isNullable id = true := by
    intro group i hgroup hi hi'
    rw [Grammar.nullability_holds hpermits.nullability hpermits.shape]
    exact List.any_eq_true.mpr ⟨i, hmem hgroup hi, hi'⟩
  refine Growth.cluster_told hcall hlonger id groups hready hkeeps rfl ?_ ?_
  · intro seed hseed
    exact (hpermits.held seed hseed).tell
  · intro hnone
    refine ⟨fun _ best => Calm n text faults id m.state.stop best, ?_, calm_none,
      fun best hbest => hbest.tell.2⟩
    intro group rest hsuffix
    have hgroup : group ∈ groups :=
      List.takeWhile_subset _ (hsuffix.subset (List.mem_cons_self ..))
    refine ⟨?_, ?_, ?_, ?_, fun best hbest _ => hbest⟩
    · intro seed hseed
      exact (hseed seed rfl).1.forward
    · intro best hbest i hi
      refine hpermits.seeded rfl hnone i (hmem hgroup hi) best _ hbest fun key => ?_
      simp only [Scope.seeded, Scope.atLevel, Seeds.get?_insert]
    · intro best i f _ _ htell
      exact ⟨(htell f rfl).forward, (htell f rfl).stop⟩
    · intro best changes _ hclimbs hbare
      obtain ⟨⟨i, hi, htell⟩, -⟩ := hclimbs.surpasses
      have hcalm : Calm n text faults id m.state.stop (some changes) := by
        rintro _ ⟨⟩
        exact ⟨(htell _ rfl).imp (hnullable hgroup hi), hbare⟩
      split <;> exact hcalm

/-- Every loop ends by itself: with rounds for a longer text it does the same. -/
theorem loop_ending (hcall : (Protocol.ending g n text faults).Serves ask call call')
    {longer : Text} (hlonger : text.length ≤ longer.length)
    (hready : Ready g m) (hkeeps : (Protocol.ending g n text faults).Keeps m)
    (hpermits : g.Permits n text faults ask m.state.scope id m.state.stop s) {loop loop' : Text → Matching Bool}
    (hloop : loop? call id s = some loop) (hloop' : loop? call' id s = some loop') :
    Twins m (fun _ => faults) (loop text) (loop' longer)
      ((Protocol.ending g n text faults).Leaves
        ((Protocol.ending g n text faults).tell m.state.scope id m.state.stop) m) := by
  have hnullable := Grammar.nullability_holds hpermits.nullability hpermits.shape
  cases s with
  | zeroMore operand =>
      cases hloop
      cases hloop'
      exact repetition_ending hcall hlonger 0 operand hready hkeeps hpermits rfl rfl
        fun _ => hnullable
  | oneMore operand =>
      cases hloop
      cases hloop'
      exact repetition_ending hcall hlonger 1 operand hready hkeeps hpermits rfl rfl
        (by rintro ⟨⟩)
  | leftRecursive operand assoc =>
      cases hloop
      cases hloop'
      exact leftRecursive_ending hcall hlonger operand assoc hready hkeeps hpermits
  | cluster groups =>
      cases hloop
      cases hloop'
      exact cluster_ending hcall hlonger groups hready hkeeps hpermits
  | _ => cases hloop

/-- A plain shape has enough left for its children. -/
theorem Grammar.Permits.asks (hpermits : g.Permits n text faults ask c id p s)
    (hplain : s.isPlain = true) : (Protocol.ending g n text faults).Asks ask g text c p s := by
  have hfirst : ∀ operand, s.isBoundary = false → operand ∈ s.firsts n.isNullable →
      ask c operand p :=
    fun operand hboundary hop => hpermits.first hboundary operand hop _ fun _ => rfl
  cases s with
  | sequence items =>
      exact askEach_within (fun i q f htell => htell f rfl) items le_rfl hpermits.position
        (fun _ i hi => hfirst i rfl hi) hpermits.later
  | choice items => exact fun i hi => hfirst i rfl hi
  | zeroMore operand | oneMore operand =>
      exact hpermits.repeats rfl (List.mem_singleton_self operand)
  | optional operand | lookahead operand | capture operand mode =>
      exact hfirst operand rfl (List.mem_singleton_self operand)
  | token operand =>
      refine ⟨hfirst operand rfl (List.mem_singleton_self operand), fun f ws hws htell => ?_⟩
      exact hpermits.skips.imp_right fun hskips => hskips ws f.stop hws (htell f rfl).stop
  | not operand | minPrecedence operand floor =>
      exact hpermits.first rfl operand (List.mem_singleton_self operand) _ fun _ => rfl
  | reference name =>
      exact hpermits.resolved.resolve_right fun hresolved => hresolved name rfl
  | literal | any | range | set => trivial
  | leftRecursive | cluster | custom => cases hplain

/-- A shape has enough left for its children, and tells where it ends. -/
theorem dispatch_ending (config : Config)
    (hcall : (Protocol.ending g n text faults).Serves ask call call')
    (hready : Ready g m) (hkeeps : (Protocol.ending g n text faults).Keeps m)
    (hpermits : g.Permits n text faults ask m.state.scope id m.state.stop s) :
    Twins m (fun _ => faults) (dispatch ⟨g, text, config⟩ call id s)
      (dispatch ⟨g, text, config⟩ call' id s)
      ((Protocol.ending g n text faults).Leaves
        ((Protocol.ending g n text faults).tell m.state.scope id m.state.stop) m) := by
  have hplain : s.isPlain = true → Twins m (fun _ => faults) (dispatch ⟨g, text, config⟩ call id s)
      (dispatch ⟨g, text, config⟩ call' id s)
      ((Protocol.ending g n text faults).Leaves
        ((Protocol.ending g n text faults).tell m.state.scope id m.state.stop) m) := by
    intro hplain
    refine (dispatch_told ⟨g, text, config⟩ hcall hready hkeeps hpermits.position id hplain
      (hpermits.asks hplain)).imp fun b m' hleaves => hleaves.imp ?_
    intro o hfinds f hf
    rw [Grammar.nullability_holds hpermits.nullability hpermits.shape]
    exact hfinds.within n.isNullable hpermits.position (fun _ _ _ f _ htell => htell f rfl) hf
  cases s with
  | leftRecursive operand assoc =>
      exact Twins.state_bind (loop_ending hcall le_rfl hready hkeeps hpermits rfl rfl)
  | cluster groups =>
      exact Twins.state_bind (loop_ending hcall le_rfl hready hkeeps hpermits rfl rfl)
  | custom spec children => exact absurd rfl (hpermits.custom spec children)
  | _ => exact hplain rfl

end Forms

/-! ## The entry point -/

theorem Failures.mem_ids_record {f : Failures} {id i : ExprId} {p : Nat}
    (h : i ∈ (f.record id p).ids) : i = id ∨ i ∈ f.ids := by
  cases f with
  | farthest failures =>
      simp only [record, ids, Farthest.record] at h ⊢
      split at h
      · exact Or.inl (List.mem_singleton.mp h)
      · split at h
        · exact Or.inr h
        · split at h
          · split at h
            · exact Or.inr h
            · exact (List.mem_append.mp h).symm.imp_left List.mem_singleton.mp
          · exact Or.inl (List.mem_singleton.mp h)
  | first failure =>
      cases failure with
      | none => exact Or.inl (List.mem_singleton.mp h)
      | some failure => exact Or.inr h
  | silent => exact Or.inr h

/-- What holds of the failures in the record and of one more, holds of all once it is recorded. -/
theorem Failures.forall_ids_record {P : ExprId → Prop} {f : Failures} {id : ExprId} {p : Nat}
    (hid : P id) (h : ∀ i ∈ f.ids, P i) : ∀ i ∈ (f.record id p).ids, P i := by
  intro i hi
  rcases Failures.mem_ids_record hi with rfl | hi
  · exact hid
  · exact h i hi

section Invocation

variable {g : Grammar} {n : Nullability} {root : ExprId} {faults free : Prop}

/-- An expression matches if whoever it asks does, and tells where it ends. -/
theorem attempt_permitted {text : Text} {config : Config}
    (hsteps : faults ∨ config.maxSteps = none) {ask : Scope → ExprId → Nat → Prop}
    {call call' : Caller} {m : Machine} {id : ExprId} (hinside : id < g.size)
    (hcall : (Protocol.ending g n text faults).Serves ask call call')
    (hready : Ready g m) (hkeeps : (Protocol.ending g n text faults).Keeps m)
    (hpermits : ∀ s, g.shape? id = some s →
      g.Permits n text faults ask m.state.scope id m.state.stop s) :
    Twins m (fun _ => faults) (attempt ⟨g, text, config⟩ call id)
      (attempt ⟨g, text, config⟩ call' id)
      ((Protocol.ending g n text faults).Leaves
        ((Protocol.ending g n text faults).tell m.state.scope id m.state.stop) m) := by
  have hadmits : (Protocol.ending g n text faults).Admits ⟨g, text, config⟩ m.state id :=
    { grammar := rfl
      steps := hsteps
      node := by
        obtain ⟨e, hnode⟩ := Grammar.node?_of_lt_size hinside
        exact Or.inr ⟨e, by simp only [Protocol.ending, Grammar.node, hnode]⟩
      held := fun o hentry => Calm.tell hentry
      store := by
        intro expr o _ hbare htell changes ho
        subst ho
        exact ⟨htell _ rfl, hbare changes rfl⟩
      record := fun f position => Failures.forall_ids_record hinside }
  refine Protocol.attempt_told hcall.obeys hadmits hready hkeeps ?_
  intro expr m₁ hnode hstate hready₁ hkeeps₁
  exact dispatch_ending config hcall hready₁ hkeeps₁
    (hstate ▸ hpermits expr.shape (Grammar.shape?_of_node? hnode))

/-- Whoever may be asked, with a nesting still allowed, may ask its children in turn. -/
theorem attempt_ending (hshelter : g.Sheltered n root free) {text : Text} {config : Config}
    (hsteps : faults ∨ config.maxSteps = none) {nesting : Nat} {call call' : Caller} {m : Machine}
    {id : ExprId}
    (hcall : (Protocol.ending g n text faults).Serves (Asked g n text faults free root nesting)
      call call')
    (hready : Ready g m) (hkeeps : (Protocol.ending g n text faults).Keeps m)
    (hask : Asked g n text faults free root (nesting + 1) m.state.scope id m.state.stop) :
    Twins m (fun _ => faults) (attempt ⟨g, text, config⟩ call id)
      (attempt ⟨g, text, config⟩ call' id)
      ((Protocol.ending g n text faults).Leaves
        ((Protocol.ending g n text faults).tell m.state.scope id m.state.stop) m) :=
  attempt_permitted hsteps hask.inside hcall hready hkeeps fun _ hs => hask.permits hshelter hs

/-- With more nesting than the effort, every match within reach of the root ends. -/
theorem invoke_ending (hshelter : g.Sheltered n root free) (text : Text) (config : Config)
    (hfree : free → faults) (hsteps : faults ∨ config.maxSteps = none) (nesting : Nat) :
    (Protocol.ending g n text faults).Serves (Asked g n text faults free root nesting)
      (invoke ⟨g, text, config⟩ nesting) (invoke ⟨g, text, config⟩ nesting) := by
  refine Protocol.serves_invoke ⟨g, text, config⟩ (Asked g n text faults free root) rfl ?_ ?_ nesting
  · intro c id p hask
    exact hfree (hask.depth.resolve_right (Nat.not_lt_zero _))
  · intro nesting ih id m hready hkeeps hask
    exact attempt_ending hshelter hsteps ih hready hkeeps hask

end Invocation

end Packrat
