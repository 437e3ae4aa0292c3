import Mathlib
import Packrat.Proofs.Peg.Agreement

/-! # Nullable is what matches the empty text

    On the empty text a match stays in place, so it succeeds only if its expression is derivable: by
    the rule of its shape, from what its children came to.  The converse has to face seeds.  A
    boundary that is met again while it grows answers with its seed, which fails at first, however
    derivable the boundary is.  So an expression is only told to match if it has a derivation that
    AVOIDS all boundaries with a failing seed.  Such a derivation need not pass through the same
    boundary twice (`DerivableOff.premises`): when a boundary begins to grow, the seed that it
    leaves is in the way of no derivation that its operand needs. -/

namespace Packrat

open Relation Matching Engine

/-! ## Derivations that avoid expressions -/

namespace Grammar

variable {g : Grammar} {F F' : ExprId → Prop} {id : ExprId}

/-- What has a derivation without any expression of `F`. -/
inductive DerivableOff (g : Grammar) (F : ExprId → Prop) : ExprId → Prop where
  | rule {id : ExprId} {s : Shape ExprId} {p : ExprId → Bool} : ¬ F id → g.shape? id = some s →
      (∀ c ∈ s.children, p c = true → DerivableOff g F c) → s.strategy.holds p = true →
      DerivableOff g F id

/-- The rule of `id` applies to children with derivations without any expression of `F`. -/
def PremisesOff (g : Grammar) (F : ExprId → Prop) (id : ExprId) : Prop :=
  ∃ s p, g.shape? id = some s ∧ (∀ c ∈ s.children, p c = true → g.DerivableOff F c) ∧
    s.strategy.holds p = true

namespace DerivableOff

theorem derivable (h : g.DerivableOff F id) : g.Derivable id := by
  induction h with
  | rule _ hs _ hholds ih =>
      refine derives_iff.mp ?_
      rw [solves_derives g hs]
      exact Shape.holds_of_children (fun c hc hp => derives_iff.mpr (ih c hc hp)) hholds

theorem mono (hF : ∀ i, F' i → F i) (h : g.DerivableOff F id) : g.DerivableOff F' id := by
  induction h with
  | rule hoff hs _ hholds ih => exact .rule (fun hin => hoff (hF _ hin)) hs ih hholds

/-- The rule at the root of the derivation. -/
theorem root (h : g.DerivableOff F id) : ¬ F id ∧ g.PremisesOff F id := by
  cases h with
  | rule hoff hs hchildren hholds => exact ⟨hoff, _, _, hs, hchildren, hholds⟩

/-- A derivation avoids `x` too, or there is one below `x` that does. -/
theorem cut (h : g.DerivableOff F id) (x : ExprId) :
    g.DerivableOff (fun i => F i ∨ i = x) id ∨ g.PremisesOff (fun i => F i ∨ i = x) x := by
  induction h with
  | @rule id s p hoff hs _ hholds ih =>
      by_cases hx : g.PremisesOff (fun i => F i ∨ i = x) x
      · exact Or.inr hx
      · have hchildren : ∀ c ∈ s.children, p c = true → g.DerivableOff (fun i => F i ∨ i = x) c :=
          fun c hc hp => (ih c hc hp).resolve_right hx
        by_cases hid : id = x
        · subst hid
          exact absurd ⟨s, p, hs, hchildren, hholds⟩ hx
        · exact Or.inl (.rule (not_or.mpr ⟨hoff, hid⟩) hs hchildren hholds)

/-- Below its root a derivation need not pass through the root again. -/
theorem premises (h : g.DerivableOff F id) : g.PremisesOff (fun i => F i ∨ i = id) id :=
  (h.cut id).resolve_left fun hcut => hcut.root.1 (Or.inr rfl)

end DerivableOff

/-- With nothing to avoid, what is derivable is. -/
theorem Derivable.off (h : g.Derivable id) : g.DerivableOff (fun _ => False) id :=
  h.induction_holds fun _ _ _ hs hchildren hholds => .rule not_false hs hchildren hholds

end Grammar

/-! ## Boundaries -/

namespace Grammar

variable {g : Grammar} {F : ExprId → Prop} {id i : ExprId} {s : Shape ExprId}

/-- A boundary is derivable as soon as one of its children is. -/
theorem derivable_of_boundary (hs : g.shape? id = some s) (hboundary : s.isBoundary = true)
    (hi : i ∈ s.children) (h : g.Derivable i) : g.Derivable id := by
  have hrule := strategy?_of_shape? hs
  cases s with
  | leftRecursive operand assoc =>
      obtain rfl := List.mem_singleton.mp hi
      exact .single hrule h
  | cluster groups => exact .any hrule hi h
  | _ => cases hboundary

/-- A derivation of a boundary needs one of its children only. -/
theorem DerivableOff.child_of_boundary (h : g.DerivableOff F id) (hs : g.shape? id = some s)
    (hboundary : s.isBoundary = true) :
    ∃ i ∈ s.children, g.DerivableOff (fun i => F i ∨ i = id) i := by
  obtain ⟨s', p, hs', hchildren, hholds⟩ := h.premises
  obtain rfl : s' = s := Option.some.inj (hs'.symm.trans hs)
  cases s' with
  | leftRecursive operand assoc =>
      exact ⟨operand, List.mem_singleton_self operand,
        hchildren operand (List.mem_singleton_self operand) hholds⟩
  | cluster groups =>
      obtain ⟨i, hi, hpi⟩ := List.any_eq_true.mp hholds
      exact ⟨i, hi, hchildren i hi hpi⟩
  | _ => cases hboundary

end Grammar

/-! ## Seeds at the start of the text -/

/-- The boundaries with a failing seed at the start of the text. -/
def failing (seeds : ExactDigest) (id : ExprId) : Prop :=
  .seed { expr := id, position := 0 } none ∈ seeds.atoms

theorem Seeds.Canonical.failing_iff {seeds : Seeds ExactDigest} (h : seeds.Canonical) {id : ExprId} :
    failing seeds.digest id ↔ seeds.get? { expr := id, position := 0 } = some none := by
  rw [failing, h.mem_seed]
  constructor
  · rintro ⟨c, hget, hstop⟩
    rw [hget, Option.map_eq_none_iff.mp hstop]
  · exact fun hget => ⟨none, hget, rfl⟩

/-- A scope with one more failing seed. -/
theorem Scope.Canonical.failing_of_seeded {c c' : Scope} (hc : c.Canonical) (hc' : c'.Canonical)
    {id : ExprId} (hget : ∀ k, c'.seeds.get? k =
      if k = { expr := id, position := 0 } then some none else c.seeds.get? k) {i : ExprId}
    (h : failing c'.seeds.digest i) : failing c.seeds.digest i ∨ i = id := by
  rw [hc'.seeds.failing_iff, hget] at h
  split at h
  · rename_i hkey
    exact Or.inr (congrArg SeedKey.expr hkey)
  · exact Or.inl (hc.seeds.failing_iff.mpr h)

/-- What a match of `id` comes to on the empty text: where it succeeds it stays in place, and there
    is a derivation; and it succeeds if there is one that avoids what fails. -/
structure Grammar.MatchesEmpty (g : Grammar) (seeds : ExactDigest) (id : ExprId) (o : Option Found) :
    Prop where
  sound : ∀ f, o = some f → f.stop = 0 ∧ g.Derivable id
  complete : g.DerivableOff (failing seeds) id → o.isSome = true

/-- Seeds are right, and floors are raised for boundaries with a seed only. -/
structure Grammar.Grounded (g : Grammar) (c : Scope) : Prop where
  seeds : ∀ id changes, c.seeds.get? { expr := id, position := 0 } = some (some changes) →
    changes.stop = 0 ∧ g.Derivable id
  floors : ∀ id, c.seeds.get? { expr := id, position := 0 } = none → c.floors.floor id = 0

theorem Grammar.Grounded.seeded {g : Grammar} {c c' : Scope} (h : g.Grounded c) {id : ExprId}
    {seed : Option Changes}
    (hseed : ∀ changes, seed = some changes → changes.stop = 0 ∧ g.Derivable id)
    (hget : ∀ k, c'.seeds.get? k =
      if k = { expr := id, position := 0 } then some seed else c.seeds.get? k)
    (hfloors : ∀ i, i ≠ id → c'.floors.floor i = c.floors.floor i) : g.Grounded c' := by
  constructor
  · intro i changes hi
    rw [hget] at hi
    split at hi
    · rename_i hkey
      cases hkey
      exact hseed changes (Option.some.inj hi)
    · exact h.seeds i changes hi
  · intro i hi
    rw [hget] at hi
    split at hi
    · cases hi
    · rename_i hkey
      rw [hfloors i fun heq => hkey (heq ▸ rfl)]
      exact h.floors i hi

/-- Matches on the empty text, and what is kept of them. -/
def Protocol.empty (g : Grammar) : Protocol where
  grammar := g
  faults := True
  entry key o := key.position = 0 → g.MatchesEmpty key.print.seeds key.expr (o.map Changes.found)
  recorded _ := True
  tell c id p o := p = 0 → g.MatchesEmpty c.seeds.digest id o

/-- A match of something below the root, at the start of the text. -/
structure Grammar.AsksEmpty (g : Grammar) (root : ExprId) (c : Scope) (id : ExprId) (p : Nat) :
    Prop where
  reach : ReflTransGen g.Child root id
  grounded : g.Grounded c
  start : p = 0

/-! ## Shapes -/

/-- Neither a predicate nor a custom expression, nor a reset to a positive precedence. -/
def Shape.isDirect {α : Type} : Shape α → Bool
  | .lookahead _ | .not _ | .custom _ _ => false
  | .minPrecedence _ floor => floor = 0
  | _ => true

section Items

variable {R : ExprId → Nat → Option Found → Prop} {items : List ExprId} {p : Nat} {o : Option Found}

theorem Each.isSome (hR : ∀ i ∈ items, ∀ o, R i 0 o → o.isSome = true ∧ ∀ f, o = some f → f.stop = 0)
    (h : Each R items p o) (hp : p = 0) : o.isSome = true := by
  induction h with
  | nil => rfl
  | fail rest hitem =>
      subst hp
      exact (hR _ (List.mem_cons_self ..) none hitem).1
  | next hitem _ ih =>
      subst hp
      have hstop := (hR _ (List.mem_cons_self ..) _ hitem).2 _ rfl
      rw [Option.isSome_map]
      exact ih (fun i hi => hR i (List.mem_cons_of_mem _ hi)) hstop

theorem First.isSome {i : ExprId} (hi : i ∈ items) (hR : ∀ o, R i p o → o.isSome = true)
    (h : First R items p o) : o.isSome = true := by
  induction h with
  | nil => cases hi
  | here => rfl
  | next hitem _ ih =>
      rcases List.mem_cons.mp hi with rfl | hi
      · cases hR none hitem
      · exact ih hi hR

end Items

/-- A plain shape matches the empty text if its rule applies to children that do. -/
theorem Shape.Finds.isSome {R : Scope → ExprId → Nat → Option Found → Prop} {g : Grammar} {text : Text}
    {c : Scope} {s : Shape ExprId} {o : Option Found} {p : ExprId → Bool}
    (h : s.Finds R g text c 0 o) (hdirect : s.isDirect = true)
    (hsolid : ∀ e, s = .oneMore e → p e = false)
    (hR : ∀ c', c' = c ∨ c' = c.reset 0 → ∀ i ∈ s.children, p i = true → ∀ o, R c' i 0 o →
      o.isSome = true ∧ ∀ f, o = some f → f.stop = 0)
    (hholds : s.strategy.holds p = true) : o.isSome = true := by
  have honly : ∀ {e o}, s.children = [e] → p e = true → R c e 0 o → o.isSome = true :=
    fun hchildren he htell =>
      (hR c (Or.inl rfl) _ (hchildren ▸ List.mem_singleton_self _) he _ htell).1
  cases s with
  | literal l =>
      rw [Shape.strategy] at hholds
      split at hholds
      · rename_i hl
        obtain rfl := h
        rw [hl]
        rfl
      · cases hholds
  | any | range | set => cases hholds
  | sequence items =>
      have hall := List.all_eq_true.mp hholds
      exact Each.isSome (fun i hi => hR c (Or.inl rfl) i hi (hall i hi)) h rfl
  | choice items =>
      obtain ⟨i, hi, hpi⟩ := List.any_eq_true.mp hholds
      exact First.isSome hi (fun o htell => (hR c (Or.inl rfl) i hi hpi o htell).1) h
  | optional e =>
      obtain ⟨o', -, rfl⟩ := h
      rfl
  | zeroMore e =>
      obtain ⟨count, f, -, rfl⟩ := h
      rfl
  | oneMore e => cases (hsolid e rfl).symm.trans hholds
  | token e =>
      rcases h with ⟨htell, -⟩ | ⟨f, -, hskips⟩
      · cases honly rfl hholds htell
      · rw [Combinators.Skips] at hskips
        split at hskips
        · rw [hskips]
          rfl
        · obtain ⟨stop, -, rfl⟩ := hskips
          rfl
  | capture e mode =>
      obtain ⟨o', htell, rfl⟩ := h
      rw [Option.isSome_map]
      exact honly rfl hholds htell
  | minPrecedence e floor =>
      obtain rfl : floor = 0 := of_decide_eq_true hdirect
      exact (hR _ (Or.inr rfl) e (List.mem_singleton_self e) hholds o h).1
  | lookahead | not => cases hdirect
  | leftRecursive | cluster | reference | custom => cases h

section Forms

variable {g : Grammar} {text : Text} {config : Config} {root id : ExprId} {call call' : Caller}
variable {m : Machine} {s : Shape ExprId}

/-- What a seed comes to. -/
theorem Grammar.Grounded.replayed {c : Scope} (h : g.Grounded c) (hc : c.Canonical)
    {seed : Option Changes} (hget : c.seeds.get? { expr := id, position := 0 } = some seed) :
    g.MatchesEmpty c.seeds.digest id (seed.map Changes.found) := by
  constructor
  · intro f hf
    obtain ⟨changes, rfl, rfl⟩ := Option.map_eq_some_iff.mp hf
    exact h.seeds id changes hget
  · intro hoff
    cases seed with
    | some changes => rfl
    | none => exact absurd (hc.seeds.failing_iff.mpr hget) hoff.root.1

/-- What a plain shape finds on the empty text. -/
theorem Shape.Finds.matchesEmpty {c : Scope} {o : Option Found} (hc : c.Canonical)
    (hs : g.shape? id = some s) (h : s.Finds (Protocol.empty g).tell g text c 0 o)
    (hlength : text.length = 0) (hdirect : s.isDirect = true)
    (hsolid : ∀ e, s = .oneMore e → ¬ g.Derivable e) : g.MatchesEmpty c.seeds.digest id o := by
  constructor
  · intro f hf
    have hwithin := h.within g.derives (Nat.zero_le _) (fun c i q f hq htell => by
      obtain rfl : q = 0 := by omega
      obtain ⟨hstop, hderivable⟩ := (htell rfl).sound f rfl
      exact ⟨Nat.zero_le _, by omega, fun _ => Grammar.derives_iff.mpr hderivable⟩) hf
    have hstop : f.stop = 0 := Nat.eq_zero_of_le_zero (hlength ▸ hwithin.stop)
    refine ⟨hstop, Grammar.derives_iff.mp ?_⟩
    rw [Grammar.solves_derives g hs]
    exact hwithin.nullable hstop
  · intro hoff
    obtain ⟨s', p, hs', hchildren, hholds⟩ := hoff.root.2
    obtain rfl : s' = s := Option.some.inj (hs'.symm.trans hs)
    refine h.isSome hdirect ?_ ?_ hholds
    · rintro e rfl
      cases he : p e with
      | false => rfl
      | true =>
          exact absurd (hchildren e (List.mem_singleton_self e) he).derivable (hsolid e rfl)
    · intro c' hc' i hi hpi o' htell
      have hmatches := htell rfl
      refine ⟨hmatches.complete ((hchildren i hi hpi).mono ?_), fun f hf => (hmatches.sound f hf).1⟩
      -- a reset leaves the seeds as they are
      intro j hj
      rcases hc' with rfl | rfl
      · exact hj
      · have hreset : (c.reset 0).Canonical := ⟨hc.seeds.unblockAll, Floors.canonical_uniform 0⟩
        exact hc.seeds.failing_iff.mpr (hreset.seeds.failing_iff.mp hj)

/-- The children of a plain shape may be asked for. -/
theorem Grammar.AsksEmpty.asks {c : Scope} {p : Nat} (h : g.AsksEmpty root c id p)
    (hs : g.shape? id = some s) (hlength : text.length = 0) (hdirect : s.isDirect = true) :
    (Protocol.empty g).Asks (g.AsksEmpty root) g text c p s := by
  have hstart := h.start
  have hchild : ∀ {c i q}, g.Grounded c → i ∈ s.children → q ≤ text.length →
      g.AsksEmpty root c i q := fun hgrounded hi hq => ⟨h.reach.tail ⟨s, hs, hi⟩, hgrounded, by omega⟩
  refine Protocol.asks_of_forall trivial (by omega)
    (fun i q hi _ hq => hchild h.grounded hi hq) ?_ ?_ ?_
  · rintro e rfl
    cases hdirect
  · rintro e floor rfl
    obtain rfl : floor = 0 := of_decide_eq_true hdirect
    exact hchild ⟨h.grounded.seeds, fun _ _ => rfl⟩ (List.mem_singleton_self e) (by omega)
  · intro i q f _ _ hq htell
    have hstop := ((htell (by omega)).sound f rfl).1
    omega

/-- A boundary below the root that is matched in the scope `c`. -/
structure Grammar.Begins (g : Grammar) (root : ExprId) (c : Scope) (id : ExprId) (s : Shape ExprId) :
    Prop where
  reach : ReflTransGen g.Child root id
  shape : g.shape? id = some s
  boundary : s.isBoundary = true
  grounded : g.Grounded c
  canonical : c.Canonical

/-- While a boundary grows, its seeds stay in place, and there are derivations for them. -/
def Grammar.Resting (g : Grammar) (id : ExprId) (best : Option Changes) : Prop :=
  ∀ changes, best = some changes → changes.stop = 0 ∧ g.Derivable id

/-- A derivation of the cluster needs an alternative of the groups that are left, unless there is a
    seed already. -/
def Grammar.Awaits (g : Grammar) (F : ExprId → Prop) (id : ExprId) (rest : List (Group ExprId))
    (best : Option Changes) : Prop :=
  best = none → g.DerivableOff F id →
    ∃ group ∈ rest, ∃ i ∈ group.alternatives, g.DerivableOff (fun j => F j ∨ j = id) i

theorem resting_none : g.Resting id none := by
  rintro _ ⟨⟩

namespace Grammar.Begins

variable {c c' : Scope} {best : Option Changes} {i : ExprId} {o : Option Found}

/-- With a seed, its children may be asked for. -/
theorem asks (h : g.Begins root c id s) (hi : i ∈ s.children) (hbest : g.Resting id best)
    (hget : ∀ k, c'.seeds.get? k =
      if k = { expr := id, position := 0 } then some best else c.seeds.get? k)
    (hfloors : ∀ j, j ≠ id → c'.floors.floor j = c.floors.floor j) : g.AsksEmpty root c' i 0 :=
  ⟨h.reach.tail ⟨s, h.shape, hi⟩, h.grounded.seeded hbest hget hfloors, rfl⟩

/-- What a child found is what the boundary may come to. -/
theorem found (h : g.Begins root c id s) (hi : i ∈ s.children) {f : Found}
    (htell : (Protocol.empty g).tell c' i 0 (some f)) : f.stop = 0 ∧ g.Derivable id := by
  obtain ⟨hstop, hderivable⟩ := (htell rfl).sound f rfl
  exact ⟨hstop, derivable_of_boundary h.shape h.boundary hi hderivable⟩

/-- With the failing seed, a child matches that a derivation of the boundary needs. -/
theorem child_matches (h : g.Begins root c id s) (hc' : c'.Canonical)
    (hget : ∀ k, c'.seeds.get? k =
      if k = { expr := id, position := 0 } then some none else c.seeds.get? k)
    (htell : (Protocol.empty g).tell c' i 0 o)
    (hoff : g.DerivableOff (fun j => failing c.seeds.digest j ∨ j = id) i) : o.isSome = true :=
  (htell rfl).complete (hoff.mono fun _ => h.canonical.failing_of_seeded hc' hget)

/-- What its last seed comes to. -/
theorem ends (hbest : g.Resting id best)
    (hfails : best = none → ¬ g.DerivableOff (failing c.seeds.digest) id) :
    g.MatchesEmpty c.seeds.digest id (best.map Changes.found) := by
  constructor
  · intro f hf
    obtain ⟨changes, rfl, rfl⟩ := Option.map_eq_some_iff.mp hf
    exact hbest changes rfl
  · intro hoff
    cases best with
    | some changes => rfl
    | none => exact absurd hoff (hfails rfl)

end Grammar.Begins

variable (hcall : (Protocol.empty g).Serves (g.AsksEmpty root) call call') (hready : Ready g m)
  (hkeeps : (Protocol.empty g).Keeps m) (hasked : g.AsksEmpty root m.state.scope id m.state.stop)
include hcall hready hkeeps hasked

theorem leftRecursive_empty {operand : ExprId} {assoc : Bool}
    (hs : g.shape? id = some (.leftRecursive operand assoc)) :
    Twins m (fun _ => True) (Growth.leftRecursive call text id operand assoc)
      (Growth.leftRecursive call' text id operand assoc)
      ((Protocol.empty g).Leaves (g.MatchesEmpty m.state.seeds.digest id) m) := by
  have hstart : m.state.stop = 0 := hasked.start
  have hkey : (⟨id, 0⟩ : SeedKey) = ⟨id, m.state.stop⟩ := by rw [hstart]
  have hcan := hready.canonical
  have honly : operand ∈ (Shape.leftRecursive operand assoc).children :=
    List.mem_singleton_self operand
  have hbegins : g.Begins root m.state.scope id (.leftRecursive operand assoc) :=
    ⟨hasked.reach, hs, rfl, hasked.grounded, hcan⟩
  have hoperand : g.DerivableOff (failing m.state.seeds.digest) id →
      g.DerivableOff (fun j => failing m.state.seeds.digest j ∨ j = id) operand := by
    intro hoff
    obtain ⟨i, hi, hoff⟩ := hoff.child_of_boundary hs rfl
    exact List.mem_singleton.mp hi ▸ hoff
  refine Growth.leftRecursive_told hcall le_rfl id operand assoc hready hkeeps
    hkey ?_ ?_ ?_
  · exact fun seed hget => ⟨fun _ _ => Or.inl trivial, hasked.grounded.replayed hcan hget⟩
  · intro _ _ c
    have hseeds : ∀ k, c.seeds.get? k = if k = { expr := id, position := 0 } then some none
        else m.state.seeds.get? k := by
      intro k
      simp only [c, Seeds.get?_setBlocked, Seeds.get?_insert]
    have hc : c.Canonical := ⟨(hcan.seeds.insert _ none).setBlocked id false, hcan.floors⟩
    rw [hstart]
    refine ⟨hbegins.asks honly resting_none hseeds fun _ _ => rfl, fun o htell => ⟨?_, ?_⟩⟩
    · rintro f rfl
      exact hbegins.found honly htell
    · exact fun hoff => hbegins.child_matches hc hseeds htell (hoperand hoff)
  · intro _ _ c
    have hseeds : ∀ best k, (c.seeded { expr := id, position := 0 } best).seeds.get? k =
        if k = { expr := id, position := 0 } then some best else m.state.seeds.get? k := by
      intro best k
      cases hassoc : assoc with
      | true =>
          simp only [c, Scope.seeded, hassoc, if_true, Seeds.get?_insert, Seeds.get?_setBlocked]
          split <;> rfl
      | false =>
          simp only [c, Scope.seeded, hassoc, Bool.false_eq_true, if_false, Seeds.get?_insert]
          split <;> rfl
    have hc : c.Canonical := by
      refine ⟨?_, hcan.floors⟩
      cases assoc with
      | true => exact (hcan.seeds.insert _ none).setBlocked id true
      | false => exact hcan.seeds.insert _ none
    rw [hstart]
    refine ⟨g.Resting id, ⟨?_, ?_, ?_⟩, resting_none, ?_⟩
    · exact fun best hbest => hbegins.asks honly hbest (hseeds best) fun _ _ => rfl
    · intro best f _ htell
      exact ⟨Nat.zero_le _, by rw [(hbegins.found honly htell).1]; exact Nat.zero_le _⟩
    · rintro best changes _ htell _ _ _ ⟨⟩
      exact hbegins.found honly htell
    · intro best o hbest htell hstalls
      refine Grammar.Begins.ends (c := m.state.scope) hbest ?_
      rintro rfl hoff
      have hmatches := hbegins.child_matches (hc.seeded _ none) (hseeds none) htell
        (hoperand hoff)
      obtain ⟨f, rfl⟩ := Option.isSome_iff_exists.mp hmatches
      exact hstalls ⟨f, rfl, rfl⟩

theorem cluster_empty {groups : List (Group ExprId)} (hs : g.shape? id = some (.cluster groups)) :
    Twins m (fun _ => True) (Growth.cluster call text id groups)
      (Growth.cluster call' text id groups)
      ((Protocol.empty g).Leaves (g.MatchesEmpty m.state.seeds.digest id) m) := by
  have hstart : m.state.stop = 0 := hasked.start
  have hkey : (⟨id, 0⟩ : SeedKey) = ⟨id, m.state.stop⟩ := by rw [hstart]
  have hcan := hready.canonical
  refine Growth.cluster_told hcall le_rfl id groups hready hkeeps
    hkey ?_ ?_
  · exact fun seed hget => ⟨fun _ _ => Or.inl trivial, hasked.grounded.replayed hcan hget⟩
  · intro hget admitted
    have hbegins : g.Begins root m.state.scope id (.cluster groups) :=
      ⟨hasked.reach, hs, rfl, hasked.grounded, hcan⟩
    -- without a seed the floor is not raised, so every group is admitted
    have hadmitted : admitted = groups := by
      refine List.takeWhile_eq_self_iff.mpr fun group _ => decide_eq_true ?_
      rw [show m.state.floors.floor id = 0 from hasked.grounded.floors id hget]
      exact UInt32.zero_le
    have hchild : ∀ {group i}, group ∈ groups → i ∈ group.alternatives →
        i ∈ (Shape.cluster groups).children :=
      fun hgroup hi => List.mem_flatMap.mpr ⟨_, hgroup, hi⟩
    rw [hadmitted, hstart]
    refine ⟨fun rest best => g.Resting id best ∧
      g.Awaits (failing m.state.seeds.digest) id rest best, ?_, ⟨resting_none, ?_⟩, ?_⟩
    · intro group rest hsuffix
      have hgroup : group ∈ groups := hsuffix.subset (List.mem_cons_self ..)
      have hseeds : ∀ best k, ((m.state.scope.atLevel id (Growth.levelFloor group)).seeded
          { expr := id, position := 0 } best).seeds.get? k =
            if k = { expr := id, position := 0 } then some best else m.state.seeds.get? k := by
        intro best k
        simp only [Scope.seeded, Scope.atLevel, Seeds.get?_insert]
        rfl
      have hfloors : ∀ best j, j ≠ id → ((m.state.scope.atLevel id (Growth.levelFloor group)).seeded
          { expr := id, position := 0 } best).floors.floor j = m.state.floors.floor j := by
        intro best j hj
        simp only [Scope.seeded, Scope.atLevel, Floors.floor, Floors.explicit?_set, if_neg hj]
        rfl
      refine ⟨fun _ _ => Nat.zero_le _, ?_, ?_, ?_, ?_⟩
      · exact fun best hinv i hi =>
          hbegins.asks (hchild hgroup hi) hinv.1 (hseeds best) (hfloors best)
      · intro best i f _ hi htell
        exact ⟨Nat.zero_le _, by rw [(hbegins.found (hchild hgroup hi) htell).1]; exact Nat.zero_le _⟩
      · intro best changes _ hclimbs _
        obtain ⟨⟨i, hi, htell⟩, -⟩ := hclimbs.surpasses
        have hresting : g.Resting id (some changes) := by
          rintro _ ⟨⟩
          exact hbegins.found (hchild hgroup hi) htell
        split <;> exact ⟨hresting, fun h => by cases h⟩
      · rintro best ⟨hbest, hawaits⟩ hclimbs
        refine ⟨hbest, ?_⟩
        rintro rfl hoff
        obtain ⟨group', hmem, i, hi, hderivable⟩ := hawaits rfl hoff
        rcases List.mem_cons.mp hmem with rfl | hrest
        · -- the alternative matches, so it has become the seed
          obtain ⟨o, htell, hstalls⟩ := hclimbs.stalls i hi
          have hmatches := hbegins.child_matches ((hcan.atLevel id _).seeded _ none) (hseeds none)
            htell hderivable
          obtain ⟨f, rfl⟩ := Option.isSome_iff_exists.mp hmatches
          exact absurd ⟨f, rfl, rfl⟩ hstalls
        · exact ⟨group', hrest, i, hi, hderivable⟩
    · intro _ hoff
      obtain ⟨i, hi, hderivable⟩ := hoff.child_of_boundary hs rfl
      obtain ⟨group, hgroup, hi⟩ := List.mem_flatMap.mp hi
      exact ⟨group, hgroup, i, hi, hderivable⟩
    · rintro best ⟨hbest, hawaits⟩
      refine Grammar.Begins.ends (c := m.state.scope) hbest fun hnone hoff => ?_
      obtain ⟨group, hgroup, -⟩ := hawaits hnone hoff
      cases hgroup

/-- Every shape matches the empty text as it should, if its children do. -/
theorem dispatch_empty (hlength : text.length = 0) (hs : g.shape? id = some s)
    (hdirect : s.isDirect = true) (hsolid : ∀ e, s = .oneMore e → ¬ g.Derivable e) :
    Twins m (fun _ => True) (dispatch ⟨g, text, config⟩ call id s)
      (dispatch ⟨g, text, config⟩ call' id s)
      ((Protocol.empty g).Leaves (g.MatchesEmpty m.state.seeds.digest id) m) := by
  have hstart : m.state.stop = 0 := hasked.start
  have hplain : s.isPlain = true → Twins m (fun _ => True) (dispatch ⟨g, text, config⟩ call id s)
      (dispatch ⟨g, text, config⟩ call' id s)
      ((Protocol.empty g).Leaves (g.MatchesEmpty m.state.seeds.digest id) m) := by
    intro hplain
    refine (dispatch_told ⟨g, text, config⟩ hcall hready hkeeps (by rw [hstart]; exact Nat.zero_le _)
      id hplain (hasked.asks hs hlength hdirect)).imp fun b m' hleaves => hleaves.imp fun o hfinds => ?_
    rw [hstart] at hfinds
    exact hfinds.matchesEmpty hready.canonical hs hlength hdirect hsolid
  cases s with
  | leftRecursive operand assoc =>
      exact Twins.state_bind (leftRecursive_empty hcall hready hkeeps hasked hs)
  | cluster groups => exact Twins.state_bind (cluster_empty hcall hready hkeeps hasked hs)
  | custom spec children => cases hdirect
  | _ => exact hplain rfl

end Forms

/-! ## Parses -/

/-- Below the root there is no predicate and no custom expression, no reset to a positive precedence,
    and nothing nullable is repeated at least once. -/
structure Grammar.Direct (g : Grammar) (root : ExprId) : Prop where
  shape : ∀ id s, ReflTransGen g.Child root id → g.shape? id = some s → s.isDirect = true
  solid : ∀ id e, ReflTransGen g.Child root id → g.shape? id = some (.oneMore e) → ¬ g.Derivable e

theorem invoke_empty {g : Grammar} {root : ExprId} (hdirect : g.Direct root) {text : Text}
    (hlength : text.length = 0) (config : Config) (nesting : Nat) :
    (Protocol.empty g).Serves (g.AsksEmpty root) (invoke ⟨g, text, config⟩ nesting)
      (invoke ⟨g, text, config⟩ nesting) := by
  refine Protocol.serves_of_dispatch ⟨g, text, config⟩ rfl trivial
    (fun id m _ => Protocol.admits_of_told rfl trivial (fun _ => trivial) fun _ => Iff.rfl) ?_ nesting
  intro call hcall id expr m hnode hready hkeeps hasked
  have hshape := Grammar.shape?_of_node? hnode
  refine (dispatch_empty hcall hready hkeeps hasked hlength hshape
    (hdirect.shape id _ hasked.reach hshape) ?_).imp fun b m' hleaves => hleaves.imp ?_
  · intro e he
    exact hdirect.solid id e hasked.reach (he ▸ hshape)
  · exact fun o hmatches _ => hmatches

/-- With a prepared grammar that repeats nothing nullable, and from whose root no predicate, no custom
    expression and no reset to a positive precedence can be reached, the empty text matches if and
    only if the analysis finds that the root is nullable, whatever is memoized. -/
theorem parseWith_empty {g g' : Grammar} {options : PrepareOptions} {report : PrepareReport}
    {config : Config} {root : ExprId} {r : ParseResult}
    (hprepare : Grammar.prepare options g = .ok report g')
    (hreject : options.rejectNullableRepetition = true) (hroot : g'.root = some root)
    (hdirect : ∀ id s, ReflTransGen g'.Child root id → g'.shape? id = some s → s.isDirect = true)
    (h : (parseWith g' config "").outcome = .ok r) :
    ∃ n, g'.nullability = .ok n ∧ r.matched = n.isNullable root ∧
      r.succeeded = n.isNullable root := by
  obtain ⟨n, hn, hsolid, -⟩ := Grammar.prepare_checks hprepare hreject
  have hnullable : n.isNullable root = true ↔ g'.Derivable root :=
    (Grammar.isNullable_iff_derivable hn).2 root
  have hentry : root ∈ g'.entryPoints := by simp [Grammar.entryPoints, hroot]
  have hall : g'.Direct root := by
    refine ⟨hdirect, fun id e hreach hs hderivable => ?_⟩
    have hnot := hsolid id _ e ⟨root, hentry, hreach⟩ hs (Or.inr rfl)
    rw [((Grammar.isNullable_iff_derivable hn).2 e).mpr hderivable] at hnot
    cases hnot
  have hlength : (Text.ofString "").length = 0 := rfl
  have hkeeps : (Protocol.empty g').Keeps (.initial config) :=
    ⟨Or.inl trivial, fun key o hheld => absurd hheld (Table.not_holds_empty key o), trivial⟩
  have hask : g'.AsksEmpty root (Machine.initial config).state.scope root 0 :=
    ⟨.refl, ⟨fun _ _ h => (by cases h), fun _ _ => rfl⟩, rfl⟩
  obtain ⟨o, htell, hshows⟩ := (invoke_empty hall hlength config config.maxDepth).shows rfl hkeeps
    hask hroot h
  have hmatches := htell rfl
  have hsome : o.isSome = n.isNullable root := by
    rw [Bool.eq_iff_iff, hnullable]
    refine ⟨fun ho => ?_, fun hderivable =>
      hmatches.complete (hderivable.off.mono fun _ h => by cases h)⟩
    obtain ⟨f, rfl⟩ := Option.isSome_iff_exists.mp ho
    exact (hmatches.sound f rfl).2
  refine ⟨n, hn, ?_, hshows.succeeded.trans hsome⟩
  rw [hshows.matched, ← hsome]
  cases o with
  | none => rfl
  | some f => exact decide_eq_true (congrArg some (hmatches.sound f rfl).1)

/-- Crosses, from the left around a cluster of them, perhaps none. -/
def crossed : Grammar :=
  { nodes := #[{ shape := .leftRecursive 1 true, flags := .rule }, .ofShape (.choice [2, 4]),
      .ofShape (.sequence [0, 3]), .ofShape (.literal "x"),
      .ofShape (.cluster [⟨2, .once, [5]⟩, ⟨1, .leftAssociative, [6]⟩]), .ofShape (.zeroMore 3),
      .ofShape (.sequence [4, 3, 4])]
    root := some 0 }

theorem prepare_crossed :
    Grammar.prepare {} crossed = .ok ⟨0, [], 4⟩ { crossed with prepared := true } := by
  cbv

theorem isDirect_crossed (id : ExprId) (s : Shape ExprId) (hs : crossed.shape? id = some s) :
    s.isDirect = true := by
  obtain ⟨expr, hnode, rfl⟩ := Option.map_eq_some_iff.mp hs
  have hall : ∀ expr ∈ crossed.nodes, expr.shape.isDirect = true := by
    simp [crossed, Expr.ofShape, Shape.isDirect]
  exact hall expr (Array.mem_of_getElem? hnode)

theorem parseWith_empty_crossed :
    ∃ report g r n, Grammar.prepare {} crossed = .ok report g ∧
      (parseWith g { memoization := .all } "").outcome = .ok r ∧ r.matched = true ∧
      g.nullability = .ok n ∧ n.isNullable 0 = true := by
  obtain ⟨r, h, hmatched⟩ := exists_of_toOption (f := ParseResult.matched) (b := true)
    (x := (parseWith { crossed with prepared := true } { memoization := .all } "").outcome)
    (by decide +kernel)
  obtain ⟨n, hn, hroot, -⟩ :=
    parseWith_empty prepare_crossed rfl rfl (fun id s _ => isDirect_crossed id s) h
  exact ⟨_, _, r, n, prepare_crossed, h, hmatched, hn, hroot ▸ hmatched⟩

end Packrat
