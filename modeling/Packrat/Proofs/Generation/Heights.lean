import Mathlib
import Packrat.Proofs.Nullable.Search
import Packrat.Sample.Heights

/-! # Heights of smallest derivations

    A derivation of an expression is a tree: every node is an expression together with what it
    derives in turn, which is all items of a sequence, one alternative of a choice or of a cluster,
    any number of repetitions (`Grammar.Expands`, `Grammar.Derivation`).

    The table of heights is lowered in place, so at no time is it the table of any round.  Two facts
    carry the proof instead.  Every height in it is JUSTIFIED by a derivation that is no higher,
    whatever was lowered before (`Grammar.Justified`).  Once a sweep changes nothing the table is
    SETTLED: no rule gives less than the table has, so no derivation is lower
    (`Grammar.Settled`).

    * **`Grammar.heights_isLeast`** — an expression has the height of its smallest derivation.
    * **`Grammar.heights_none`** — it has no height exactly if it has no derivation.
    * **`Grammar.heights_le_size`** — heights do not exceed the number of expressions. -/

namespace Packrat

variable {table : ExprId → Option Nat} {a b : Option Nat} {m n : Nat} {ids : List ExprId}

/-! ## Bounds on heights -/

/-- There is a height, and it is no greater than the bound. -/
def HeightWithin (height : Option Nat) (n : Nat) : Prop :=
  ∃ m, height = some m ∧ m ≤ n

@[simp] theorem heightWithin_none : HeightWithin none n ↔ False := by
  simp [HeightWithin]

@[simp] theorem heightWithin_some : HeightWithin (some m) n ↔ m ≤ n := by
  simp [HeightWithin]

theorem HeightWithin.mono (h : HeightWithin a m) (hle : m ≤ n) : HeightWithin a n := by
  obtain ⟨k, rfl, hk⟩ := h
  exact ⟨k, rfl, hk.trans hle⟩

theorem heightWithin_map_succ :
    HeightWithin (a.map (· + 1)) n ↔ ∃ m, n = m + 1 ∧ HeightWithin a m := by
  cases a with
  | none => simp
  | some k =>
      rw [Option.map_some, heightWithin_some]
      constructor
      · exact fun h => ⟨n - 1, by omega, by rw [heightWithin_some]; omega⟩
      · rintro ⟨m, rfl, h⟩
        rw [heightWithin_some] at h
        omega

/-- A height is not less than another if each of its bounds is one of the other. -/
theorem heightLess_eq_false :
    heightLess a b = false ↔ ∀ n, HeightWithin a n → HeightWithin b n := by
  cases a with
  | none => simp [heightLess]
  | some k =>
      cases b with
      | none => simpa [heightLess] using ⟨k, le_rfl⟩
      | some l =>
          simp only [heightLess, decide_eq_false_iff_not, not_lt, heightWithin_some]
          exact ⟨fun h n hn => h.trans hn, fun h => h k le_rfl⟩

/-- A lesser height is within every bound of the greater one. -/
theorem heightWithin_of_less (hless : heightLess a b = true) (h : HeightWithin b n) :
    HeightWithin a n := by
  refine heightLess_eq_false.mp ?_ n h
  cases a <;> cases b <;> simp_all [heightLess]
  omega

/-- The greater of two heights is within a bound if both are. -/
theorem heightWithin_max :
    HeightWithin (heightMax a b) n ↔ HeightWithin a n ∧ HeightWithin b n := by
  rw [heightMax]
  cases hless : heightLess a b with
  | true => exact ⟨fun h => ⟨heightWithin_of_less hless h, h⟩, And.right⟩
  | false => exact ⟨fun h => ⟨h, heightLess_eq_false.mp hless n h⟩, And.left⟩

/-- The lesser of two heights is within a bound if one of them is. -/
theorem heightWithin_min :
    HeightWithin (heightMin a b) n ↔ HeightWithin a n ∨ HeightWithin b n := by
  rw [heightMin]
  cases hless : heightLess b a with
  | true => exact ⟨Or.inr, fun h => h.elim (heightWithin_of_less hless) id⟩
  | false => exact ⟨Or.inl, fun h => h.elim id (heightLess_eq_false.mp hless n)⟩

/-- The greatest height is within a bound if all are. -/
theorem heightWithin_foldl_max {heights : List (Option Nat)} :
    HeightWithin (heights.foldl heightMax a) n ↔
      HeightWithin a n ∧ ∀ b ∈ heights, HeightWithin b n := by
  induction heights generalizing a with
  | nil => simp
  | cons b rest ih => rw [List.foldl_cons, ih, heightWithin_max, List.forall_mem_cons, and_assoc]

/-- The least height is within a bound if one is. -/
theorem heightWithin_foldl_min {heights : List (Option Nat)} :
    HeightWithin (heights.foldl heightMin a) n ↔
      HeightWithin a n ∨ ∃ b ∈ heights, HeightWithin b n := by
  induction heights generalizing a with
  | nil => simp
  | cons b rest ih => rw [List.foldl_cons, ih, heightWithin_min, List.exists_mem_cons_iff, or_assoc]

/-! ## Rules -/

/-- One of the options, or none if there are none. -/
def OneOf (options ids : List ExprId) : Prop :=
  options = [] ∧ ids = [] ∨ ∃ id ∈ options, ids = [id]

/-- The rule takes the height from these expressions. -/
def HeightRule.Picks : HeightRule → List ExprId → Prop
  | .deepest all, ids => ids = all
  | .shallowest options, ids => OneOf options ids

/-- The height by a rule is one more than that of the expressions it picks, as they allow. -/
theorem HeightRule.heightWithin_apply (r : HeightRule) :
    HeightWithin (r.apply table) n ↔
      ∃ m, n = m + 1 ∧ ∃ ids, r.Picks ids ∧ ∀ id ∈ ids, HeightWithin (table id) m := by
  cases r with
  | deepest all =>
      simp only [apply, Picks, heightWithin_map_succ, heightWithin_foldl_max, heightWithin_some,
        Nat.zero_le, true_and, List.forall_mem_map, exists_eq_left]
  | shallowest options =>
      cases options with
      | nil => simp [apply, Picks, OneOf, Nat.exists_eq_add_one, Nat.lt_iff_add_one_le]
      | cons id rest =>
          have hpicks : ∀ m, (∃ ids, OneOf (id :: rest) ids ∧
              ∀ i ∈ ids, HeightWithin (table i) m) ↔
              ∃ i ∈ id :: rest, HeightWithin (table i) m := by
            intro m
            constructor
            · rintro ⟨ids, ⟨hnil, -⟩ | ⟨i, hi, rfl⟩, hids⟩
              · cases hnil
              · exact ⟨i, hi, hids i (List.mem_singleton_self i)⟩
            · rintro ⟨i, hi, hheight⟩
              exact ⟨[i], .inr ⟨i, hi, rfl⟩, by simpa using hheight⟩
          simp only [apply, Picks, heightWithin_map_succ, heightWithin_foldl_min, hpicks,
            List.exists_mem_cons_iff, List.mem_map, exists_exists_and_eq_and]

namespace Grammar

variable {g : Grammar} {s : Shape ExprId} {id i : ExprId} {heights : Array (Option Nat)}

/-- What a derivation of a shape derives in turn.  Nothing is derived from predicates and from
    custom expressions. -/
def Expands (g : Grammar) : Shape ExprId → List ExprId → Prop
  | .literal _, ids | .any, ids | .range _ _, ids | .set _, ids => ids = []
  | .lookahead _, ids | .not _, ids | .custom _ _, ids => ids = []
  | .sequence items, ids => ids = items
  | .choice items, ids => OneOf items ids
  | .cluster groups, ids => OneOf (groups.flatMap Group.alternatives) ids
  | .optional e, ids => ids = [] ∨ ids = [e]
  | .zeroMore e, ids => ∃ k, ids = List.replicate k e
  | .oneMore e, ids => ∃ k, ids = List.replicate (k + 1) e
  | .token e, ids | .capture e _, ids | .leftRecursive e _, ids | .minPrecedence e _, ids =>
      ids = [e]
  | .reference name, ids => ids = (g.rule? name).toList

/-- What a height rule picks can be derived. -/
theorem expands_of_picks (h : (g.heightRule s).Picks ids) : g.Expands s ids := by
  cases s with
  | optional e => exact .inl h
  | zeroMore e => exact ⟨0, h⟩
  | oneMore e => exact ⟨0, h⟩
  | _ => exact h

/-- A height rule picks no more than what is derived. -/
theorem exists_picks_of_expands (h : g.Expands s ids) :
    ∃ picked, (g.heightRule s).Picks picked ∧ ∀ i ∈ picked, i ∈ ids := by
  cases s with
  | optional e => exact ⟨[], rfl, by simp⟩
  | zeroMore e => exact ⟨[], rfl, by simp⟩
  | oneMore e =>
      obtain ⟨k, rfl⟩ := h
      exact ⟨[e], rfl, by simp⟩
  | _ => exact ⟨ids, h, fun _ hi => hi⟩

/-! ## Derivations -/

/-- A derivation of an expression: what it derives in turn, and a derivation of each. -/
inductive Derivation (g : Grammar) : ExprId → Type
  | node {id : ExprId} {s : Shape ExprId} (ids : List ExprId) (hs : g.shape? id = some s)
      (hids : g.Expands s ids) (below : ∀ k : Fin ids.length, g.Derivation ids[k]) : g.Derivation id

/-- Number of expressions on the longest branch. -/
def Derivation.height {id : ExprId} : g.Derivation id → Nat
  | .node _ _ _ below => (Finset.univ.sup fun k => (below k).height) + 1

/-- A derivation of the expression may derive the other one in turn. -/
def Derives (g : Grammar) (id i : ExprId) : Prop :=
  ∃ s ids, g.shape? id = some s ∧ g.Expands s ids ∧ i ∈ ids

/-- A derivation is one higher than the highest of those below it. -/
theorem Derivation.height_node (hs : g.shape? id = some s) (hids : g.Expands s ids)
    (below : ∀ k : Fin ids.length, g.Derivation ids[k]) :
    (node ids hs hids below).height ≤ n ↔ ∃ m, n = m + 1 ∧ ∀ k, (below k).height ≤ m := by
  rw [height]
  constructor
  · intro h
    refine ⟨n - 1, by omega, fun k => ?_⟩
    have hle := Finset.le_sup (f := fun k => (below k).height) (Finset.mem_univ k)
    omega
  · rintro ⟨m, rfl, h⟩
    exact Nat.succ_le_succ (Finset.sup_le fun k _ => h k)

/-- Derivations of all that is derived in turn make a derivation one higher. -/
theorem exists_derivation (hs : g.shape? id = some s) (hids : g.Expands s ids)
    (h : ∀ i ∈ ids, ∃ d : g.Derivation i, d.height ≤ m) :
    ∃ d : g.Derivation id, d.height ≤ m + 1 := by
  choose below hbelow using fun k : Fin ids.length => h ids[k] (List.getElem_mem k.2)
  exact ⟨.node ids hs hids below, (Derivation.height_node hs hids below).mpr ⟨m, rfl, hbelow⟩⟩

/-! ## Tables -/

/-- Every height is that of some derivation or greater. -/
def Justified (g : Grammar) (heights : Array (Option Nat)) : Prop :=
  ∀ id n, HeightWithin (heightAt heights id) n → ∃ d : g.Derivation id, d.height ≤ n

/-- No rule gives less than the height in the table. -/
def Settled (g : Grammar) (heights : Array (Option Nat)) : Prop :=
  ∀ id s, g.shape? id = some s →
    heightLess ((g.heightRule s).apply (heightAt heights)) (heightAt heights id) = false

theorem heightAt_set (heights : Array (Option Nat)) (id : ExprId) (height : Option Nat)
    (i : ExprId) : heightAt (heights.setIfInBounds id height) i =
      if id = i ∧ id < heights.size then height else heightAt heights i := by
  simp only [heightAt, Array.getD_eq_getD_getElem?, Array.getElem?_setIfInBounds]
  by_cases hi : id = i
  · subst hi
    by_cases hid : id < heights.size <;> simp [hid]
  · simp [hi]

theorem size_lowerHeight (g : Grammar) (heights : Array (Option Nat)) (id : ExprId) :
    (g.lowerHeight heights id).size = heights.size := by
  rw [lowerHeight]
  split
  · rfl
  · dsimp only
    split
    · exact Array.size_setIfInBounds
    · rfl

/-- A lowered height is justified by what justifies the heights it is taken from. -/
theorem Justified.lowerHeight (h : g.Justified heights) (id : ExprId) :
    g.Justified (g.lowerHeight heights id) := by
  rw [Grammar.lowerHeight]
  cases hs : g.shape? id with
  | none => exact h
  | some s =>
      dsimp only
      split
      · intro i n hi
        rw [heightAt_set] at hi
        split at hi
        · rename_i heq
          obtain ⟨rfl, -⟩ := heq
          obtain ⟨m, rfl, ids, hpicks, hheights⟩ := (HeightRule.heightWithin_apply _).mp hi
          exact exists_derivation hs (expands_of_picks hpicks) fun i hi => h i m (hheights i hi)
        · exact h i n hi
      · exact h

/-- Where lowering changes nothing, the rule gives no less. -/
theorem not_less_of_lowerHeight (hsize : heights.size = g.size) (hs : g.shape? id = some s)
    (hsame : g.lowerHeight heights id = heights) :
    heightLess ((g.heightRule s).apply (heightAt heights)) (heightAt heights id) = false := by
  by_contra hless
  rw [Bool.not_eq_false] at hless
  rw [lowerHeight, hs] at hsame
  simp only [hless, if_true] at hsame
  -- the height in the table would be less than itself
  have hlowered := heightAt_set heights id ((g.heightRule s).apply (heightAt heights)) id
  rw [hsame, if_pos ⟨rfl, hsize ▸ lt_size_of_shape? hs⟩] at hlowered
  rw [← hlowered, heightLess_eq_false.mpr fun n h => h] at hless
  cases hless

/-- If lowering some heights in turn changes nothing in the end, it never changed anything: every
    change lessens the slack. -/
theorem lowerHeight_eq_of_foldl (hsame : ids.foldl g.lowerHeight heights = heights)
    (hid : id ∈ ids) : g.lowerHeight heights id = heights := by
  induction ids with
  | nil => cases hid
  | cons first rest ih =>
      rw [List.foldl_cons] at hsame
      have hfirst : g.lowerHeight heights first = heights := by
        rcases g.lowerHeight_slacker heights first with hstep | hstep
        · exact hstep
        · have hrest := g.foldl_lowerHeight_slacker rest (g.lowerHeight heights first)
          rw [hsame] at hrest
          rcases hrest with hrest | hrest
          · exact hrest.symm
          · simp only [Slacker] at hstep hrest
            omega
      rw [hfirst] at hsame
      rcases List.mem_cons.mp hid with rfl | hid
      · exact hfirst
      · exact ih hsame hid

/-- A table that a sweep leaves as it is obeys every rule. -/
theorem settled_of_sweepHeights (hsize : heights.size = g.size)
    (hsame : g.sweepHeights heights = heights) : g.Settled heights := by
  intro id s hs
  have hid : id ∈ g.ids := List.mem_range.mpr (lt_size_of_shape? hs)
  exact not_less_of_lowerHeight hsize hs (lowerHeight_eq_of_foldl hsame hid)

/-- A sweep lowers a height only to one that a derivation has. -/
theorem sweepHeights_justified (hsize : heights.size = g.size) (h : g.Justified heights) :
    (g.sweepHeights heights).size = g.size ∧ g.Justified (g.sweepHeights heights) := by
  rw [sweepHeights]
  generalize g.ids = ids
  induction ids generalizing heights with
  | nil => exact ⟨hsize, h⟩
  | cons id rest ih => exact ih ((size_lowerHeight g heights id).trans hsize) (h.lowerHeight id)

/-- Sweeping ends with a settled table, and keeps heights justified. -/
theorem settleHeights_spec (hsize : heights.size = g.size) (h : g.Justified heights) :
    (g.settleHeights heights).size = g.size ∧ g.Justified (g.settleHeights heights) ∧
      g.Settled (g.settleHeights heights) := by
  fun_induction settleHeights g heights with
  | case1 heights swept hsame => exact ⟨hsize, h, settled_of_sweepHeights hsize hsame⟩
  | case2 heights swept hchanged ih =>
      obtain ⟨hsize', h'⟩ := sweepHeights_justified hsize h
      exact ih hsize' h'

/-! ## Least heights -/

/-- In a settled table a derivation bounds the height of its expression. -/
theorem Settled.heightWithin (h : g.Settled heights) (d : g.Derivation id) :
    HeightWithin (heightAt heights id) d.height := by
  induction d with
  | node ids hs hids below ih =>
      obtain ⟨m, hm, hbelow⟩ := (Derivation.height_node hs hids below).mp le_rfl
      obtain ⟨picked, hpicks, hpicked⟩ := exists_picks_of_expands hids
      refine heightLess_eq_false.mp (h _ _ hs) _ ?_
      refine (HeightRule.heightWithin_apply _).mpr ⟨m, hm, picked, hpicks, fun i hi => ?_⟩
      obtain ⟨k, hk, rfl⟩ := List.mem_iff_getElem.mp (hpicked i hi)
      exact (ih ⟨k, hk⟩).mono (hbelow ⟨k, hk⟩)

/-- The table that is computed has derivations for its heights, and no rule lowers it further. -/
theorem heights_spec (h : g.heights = .ok heights) :
    heights.size = g.size ∧ g.Justified heights ∧ g.Settled heights := by
  rw [Grammar.heights] at h
  split at h
  · cases h
  · cases h
    refine settleHeights_spec Array.size_replicate fun id n hwithin => ?_
    have hnone : heightAt (Array.replicate g.size none) id = none := by
      by_cases hid : id < g.size <;> simp [heightAt, hid]
    rw [hnone, heightWithin_none] at hwithin
    exact hwithin.elim

/-- So its heights are the least: a bound holds for an entry if a derivation is within it. -/
theorem heightWithin_iff (h : g.heights = .ok heights) :
    HeightWithin (heightAt heights id) n ↔ ∃ d : g.Derivation id, d.height ≤ n := by
  obtain ⟨-, hjustified, hsettled⟩ := heights_spec h
  exact ⟨hjustified id n, fun ⟨d, hd⟩ => (hsettled.heightWithin d).mono hd⟩

/-- Under a bound on the height of an expression stand lower bounds on what its rule picks. -/
theorem exists_picks_within (h : g.heights = .ok heights) (hs : g.shape? id = some s)
    (hwithin : HeightWithin (heightAt heights id) n) :
    ∃ m, n = m + 1 ∧ ∃ picked, (g.heightRule s).Picks picked ∧
      ∀ i ∈ picked, HeightWithin (heightAt heights i) m := by
  obtain ⟨d, hd⟩ := (heightWithin_iff h).mp hwithin
  cases d with
  | node ids hs' hids below =>
      obtain rfl := Option.some.inj (hs.symm.trans hs')
      obtain ⟨m, rfl, hbelow⟩ := (Derivation.height_node hs hids below).mp hd
      obtain ⟨picked, hpicks, hpicked⟩ := exists_picks_of_expands hids
      refine ⟨m, rfl, picked, hpicks, fun i hi => ?_⟩
      obtain ⟨k, hk, rfl⟩ := List.mem_iff_getElem.mp (hpicked i hi)
      exact (heightWithin_iff h).mpr ⟨below ⟨k, hk⟩, hbelow ⟨k, hk⟩⟩

/-- The height of an expression is that of its smallest derivation. -/
theorem heights_isLeast (h : g.heights = .ok heights) :
    heightAt heights id = some n ↔
      IsLeast (Set.range (Derivation.height : g.Derivation id → Nat)) n := by
  have hwithin : ∀ m, HeightWithin (heightAt heights id) m ↔
      ∃ d : g.Derivation id, d.height ≤ m := fun m => heightWithin_iff h
  constructor
  · intro hheight
    rw [hheight] at hwithin
    have hlower : ∀ d : g.Derivation id, n ≤ d.height :=
      fun d => heightWithin_some.mp ((hwithin d.height).mpr ⟨d, le_rfl⟩)
    obtain ⟨d, hd⟩ := (hwithin n).mp (heightWithin_some.mpr le_rfl)
    refine ⟨⟨d, hd.antisymm (hlower d)⟩, ?_⟩
    rintro _ ⟨d, rfl⟩
    exact hlower d
  · rintro ⟨⟨d, rfl⟩, hleast⟩
    obtain ⟨m, hheight, hm⟩ := (hwithin d.height).mpr ⟨d, le_rfl⟩
    obtain ⟨d', hd'⟩ := (hwithin m).mp (hheight ▸ heightWithin_some.mpr le_rfl)
    have hle : d.height ≤ m := (hleast ⟨d', rfl⟩).trans hd'
    rw [hheight, hm.antisymm hle]

/-- An expression has no height exactly if it has no derivation. -/
theorem heights_none (h : g.heights = .ok heights) :
    heightAt heights id = none ↔ IsEmpty (g.Derivation id) := by
  constructor
  · intro hnone
    refine ⟨fun d => ?_⟩
    have hwithin := (heightWithin_iff (n := d.height) h).mpr ⟨d, le_rfl⟩
    rw [hnone, heightWithin_none] at hwithin
    exact hwithin
  · intro hempty
    by_contra hsome
    obtain ⟨n, hn⟩ := Option.ne_none_iff_exists'.mp hsome
    obtain ⟨d, -⟩ := (heightWithin_iff h).mp (hn ▸ heightWithin_some.mpr (le_refl n))
    exact hempty.false d

/-- What has a derivation has a height. -/
theorem heightAt_ne_none (h : g.heights = .ok heights) (hid : Nonempty (g.Derivation id)) :
    heightAt heights id ≠ none :=
  fun hnone => (not_isEmpty_iff.mpr hid) ((heights_none h).mp hnone)

/-- A derivation is at least one node high. -/
theorem heightAt_pos (h : g.heights = .ok heights) (hheight : heightAt heights id = some n) :
    0 < n := by
  obtain ⟨d, hd⟩ := ((heights_isLeast h).mp hheight).1
  cases d
  exact hd ▸ Nat.succ_pos _

theorem lt_size_of_heightAt (h : g.heights = .ok heights) (hheight : heightAt heights id = some n) :
    id < g.size := by
  by_contra hlarge
  have hout : heights.size ≤ id := (heights_spec h).1 ▸ not_lt.mp hlarge
  simp [heightAt, hout] at hheight

/-- Below a height of two or more stands an expression of the height before. -/
theorem exists_heightAt_pred (h : g.heights = .ok heights)
    (hheight : heightAt heights id = some (n + 2)) : ∃ i, heightAt heights i = some (n + 1) := by
  obtain ⟨d, hd⟩ := ((heights_isLeast h).mp hheight).1
  cases d with
  | node ids hs hids below =>
      obtain ⟨m, hm, hbelow⟩ := (Derivation.height_node hs hids below).mp hd.le
      obtain rfl : m = n + 1 := by omega
      by_contra hnone
      -- if no child had this height, the derivations of the children could be lower
      have hlower : ∀ i ∈ ids, ∃ d : g.Derivation i, d.height ≤ n := by
        intro i hi
        obtain ⟨k, hk, rfl⟩ := List.mem_iff_getElem.mp hi
        obtain ⟨l, hl, hle⟩ := (heightWithin_iff h).mpr ⟨below ⟨k, hk⟩, hbelow ⟨k, hk⟩⟩
        have hne : l ≠ n + 1 := fun heq => hnone ⟨_, heq ▸ hl⟩
        exact (heightWithin_iff h).mp ⟨l, hl, by omega⟩
      obtain ⟨d', hd'⟩ := exists_derivation hs hids hlower
      have hleast := ((heights_isLeast h).mp hheight).2 ⟨d', rfl⟩
      omega

/-- Every height up to that of an expression is the height of some expression. -/
theorem exists_heightAt (h : g.heights = .ok heights) (hheight : heightAt heights id = some n)
    (hm : m < n) : ∃ i, heightAt heights i = some (m + 1) := by
  induction n generalizing id with
  | zero => cases hm
  | succ n ih =>
      rcases Nat.lt_succ_iff_lt_or_eq.mp hm with hlt | rfl
      · obtain ⟨k, rfl⟩ : ∃ k, n = k + 1 := ⟨n - 1, by omega⟩
        obtain ⟨i, hi⟩ := exists_heightAt_pred h hheight
        exact ih hi hlt
      · exact ⟨id, hheight⟩

/-- There are as many expressions as any height counts. -/
theorem heights_le_size (h : g.heights = .ok heights) (hheight : heightAt heights id = some n) :
    n ≤ g.size := by
  have hattained : Set.SurjOn (fun i => (heightAt heights i).getD 0 - 1)
      (Finset.range g.size) (Finset.range n) := by
    intro m hm
    obtain ⟨i, hi⟩ := exists_heightAt h hheight (Finset.mem_range.mp hm)
    exact ⟨i, Finset.mem_coe.mpr (Finset.mem_range.mpr (lt_size_of_heightAt h hi)), by simp [hi]⟩
  simpa using Finset.card_le_card_of_surjOn _ hattained

/-- If ranks decrease from expressions to what they may derive in turn, every expression has a
    derivation. -/
theorem nonempty_derivation (rank : ExprId → Nat)
    (h : ∀ id < g.size, ∃ s ids, g.shape? id = some s ∧ g.Expands s ids ∧
      ∀ i ∈ ids, i < g.size ∧ rank i < rank id) (hid : id < g.size) :
    Nonempty (g.Derivation id) := by
  induction hrank : rank id using Nat.strong_induction_on generalizing id with
  | _ n ih =>
      obtain ⟨s, ids, hs, hids, hlower⟩ := h id hid
      have hbelow : ∀ k : Fin ids.length, Nonempty (g.Derivation ids[k]) := by
        intro k
        obtain ⟨hinside, hless⟩ := hlower ids[k] (List.getElem_mem k.2)
        exact ih _ (hrank ▸ hless) hinside rfl
      exact ⟨.node ids hs hids fun k => (hbelow k).some⟩

/-! ## Ids outside the grammar -/

/-- The grammar leads to the expression. -/
def Mentions (g : Grammar) (i : ExprId) : Prop :=
  g.root = some i ∨ (∃ name, g.rule? name = some i) ∨
    ∃ id s, g.shape? id = some s ∧ i ∈ s.children

/-- The grammar leads to an id that it has no expression for. -/
def Dangling (g : Grammar) (i : ExprId) : Prop :=
  g.size ≤ i ∧ g.Mentions i

/-- What holds of the root, of rules and of children holds of all that the grammar leads to. -/
theorem Mentions.of_forall {P : ExprId → Prop} (h : g.Mentions i)
    (hroot : ∀ root, g.root = some root → P root) (hrules : ∀ rule ∈ g.rules, P rule.2)
    (hnodes : ∀ e ∈ g.nodes, ∀ i ∈ e.shape.children, P i) : P i := by
  rcases h with hi | ⟨name, hi⟩ | ⟨id, s, hs, hi⟩
  · exact hroot i hi
  · obtain ⟨before, after, hsplit, -⟩ := List.lookup_eq_some_iff.mp hi
    exact hrules (name, i) (by simp [hsplit])
  · obtain ⟨e, he, rfl⟩ := Option.map_eq_some_iff.mp hs
    exact hnodes e (Array.mem_of_getElem? he) i hi

/-- In a grammar whose root, rules and children are nodes of it, no id dangles. -/
theorem not_dangling (hroot : ∀ root, g.root = some root → root < g.size)
    (hrules : ∀ rule ∈ g.rules, rule.2 < g.size)
    (hnodes : ∀ e ∈ g.nodes, ∀ i ∈ e.shape.children, i < g.size) : ¬g.Dangling i :=
  fun h => absurd h.1 (not_le.mpr (h.2.of_forall hroot hrules hnodes))

/-- What is derived in turn is a child, or what a name stands for. -/
theorem Derives.mentions (h : g.Derives id i) : g.Mentions i := by
  obtain ⟨s, ids, hs, hids, hi⟩ := h
  have hoption : ∀ {options : List ExprId}, OneOf options ids → i ∈ options := by
    rintro options (⟨-, rfl⟩ | ⟨j, hj, rfl⟩)
    · cases hi
    · exact List.mem_singleton.mp hi ▸ hj
  have hchild : i ∈ s.children → g.Mentions i := fun hi => .inr (.inr ⟨id, s, hs, hi⟩)
  cases s with
  | literal | any | range | set | lookahead | not | custom =>
      rw [hids] at hi
      cases hi
  | sequence items => exact hchild (hids ▸ hi)
  | choice items => exact hchild (hoption hids)
  | cluster groups => exact hchild (hoption hids)
  | optional e =>
      rcases hids with rfl | rfl
      · cases hi
      · exact hchild hi
  | zeroMore e | oneMore e =>
      obtain ⟨k, rfl⟩ := hids
      exact hchild (List.mem_singleton.mpr (List.eq_of_mem_replicate hi))
  | token e | capture e | leftRecursive e | minPrecedence e =>
      rw [hids] at hi
      exact hchild hi
  | reference name =>
      rw [hids] at hi
      exact .inr (.inl ⟨name, Option.mem_toList.mp hi⟩)

/-- What a height depends on is a child, or what a name stands for. -/
theorem mentions_of_heightRule (hs : g.shape? id = some s) (hi : i ∈ (g.heightRule s).ids) :
    g.Mentions i := by
  cases s with
  | reference name => exact .inr (.inl ⟨name, Option.mem_toList.mp hi⟩)
  | literal | any | range | set | optional | zeroMore | lookahead | not | custom => cases hi
  | _ => exact .inr (.inr ⟨id, _, hs, hi⟩)

/-- There are heights, unless an id is dangling. -/
theorem heights_ok_or (g : Grammar) :
    (∃ heights, g.heights = .ok heights) ∨
      ∃ i, g.Dangling i ∧ g.heights = .error (.crash (.noSuchExpr i)) := by
  rw [heights]
  split
  · rename_i i hfound
    obtain ⟨e, he, hi⟩ := List.mem_flatMap.mp (List.mem_of_find?_eq_some hfound)
    obtain ⟨id, hid⟩ := List.mem_iff_getElem?.mp he
    have hs : g.shape? id = some e.shape := by
      rw [shape?, node?, ← Array.getElem?_toList, hid]
      rfl
    have houtside : g.size ≤ i := by simpa using List.find?_some hfound
    exact .inr ⟨i, ⟨houtside, mentions_of_heightRule hs hi⟩, rfl⟩
  · exact .inl ⟨_, rfl⟩

end Grammar

end Packrat
