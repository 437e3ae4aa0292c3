import Packrat.Proofs.Lockstep.Invocation
import Packrat.Proofs.Lockstep.Tables
import Packrat.Proofs.Precedence.Levels
import Packrat.Proofs.Relabeling.Shapes

/-! # Other precedences in the same order

    Give the groups of all clusters other precedences.  A floor is only ever compared with the
    precedence of a group, and it is the floor of a group of the same cluster.  So if the order of
    the precedences is kept, every such comparison comes out as before (`KeepsOrder.admits_iff`), and
    matching keeps in step (`Grammar.invoke_relevel`).

    With ONE exception: the floor of a left-associative group is the next precedence, and the highest
    precedence has none.  There the group admits itself again.  So a left-associative group must have
    the highest precedence before if and only if it has it afterwards.

    Memo tables see more of the floors than how they compare with precedences: whether two groups set
    the same floor.  A left-associative group sets the floor of the next precedence, which another
    group may have or not.  Where that is kept, too, memo tables answer alike (`Grammar.pairing`). -/

namespace Packrat

open Precedence

variable {φ : Precedence → Precedence}

/-! ## The relabelling -/

/-- The group at another precedence. -/
def Group.relevel {α : Type} (φ : Precedence → Precedence) (group : Group α) : Group α :=
  { group with precedence := φ group.precedence }

/-- The groups of a cluster at other precedences; every other form as it is. -/
def Shape.relevel {α : Type} (φ : Precedence → Precedence) : Shape α → Shape α
  | .cluster groups => .cluster (groups.map (Group.relevel φ))
  | s => s

def Expr.relevel (φ : Precedence → Precedence) (e : Expr) : Expr :=
  { e with shape := e.shape.relevel φ }

/-- The groups of all clusters at other precedences. -/
def Grammar.relevel (φ : Precedence → Precedence) (g : Grammar) : Grammar :=
  { g with nodes := g.nodes.map (Expr.relevel φ) }

namespace Growth

variable {groups : List (Group ExprId)} {a b : Group ExprId}

/-- The precedences of a cluster keep their order, and a left-associative group has the highest
    precedence there is only if it had it before. -/
structure KeepsOrder (φ : Precedence → Precedence) (groups : List (Group ExprId)) : Prop where
  lt : ∀ a ∈ groups, ∀ b ∈ groups, a.precedence < b.precedence → φ a.precedence < φ b.precedence
  top : ∀ a ∈ groups, a.kind = .leftAssociative →
    (φ a.precedence = Precedence.top ↔ a.precedence = Precedence.top)

/-- Two groups of a cluster set the same floor exactly if they did before. -/
def KeepsFloors (φ : Precedence → Precedence) (groups : List (Group ExprId)) : Prop :=
  ∀ a ∈ groups, ∀ b ∈ groups,
    levelFloor (a.relevel φ) = levelFloor (b.relevel φ) ↔ levelFloor a = levelFloor b

namespace KeepsOrder

variable (h : KeepsOrder φ groups) (ha : a ∈ groups) (hb : b ∈ groups)
include h ha hb

/-- Precedences keep their order, in both directions. -/
theorem le_iff : φ a.precedence ≤ φ b.precedence ↔ a.precedence ≤ b.precedence := by
  constructor
  · intro hle
    by_contra hlt
    exact UInt32.not_le.mpr (h.lt b hb a ha (UInt32.not_le.mp hlt)) hle
  · intro hle
    by_cases hlt : a.precedence < b.precedence
    · exact UInt32.le_of_lt (h.lt a ha b hb hlt)
    · rw [UInt32.le_antisymm hle (UInt32.not_lt.mp hlt)]
      exact UInt32.le_refl _

theorem lt_iff : φ a.precedence < φ b.precedence ↔ a.precedence < b.precedence := by
  rw [← UInt32.not_le, ← UInt32.not_le, h.le_iff hb ha]

/-- The floor that one group sets admits the other exactly if it did before. -/
theorem admits_iff :
    levelFloor (a.relevel φ) ≤ (b.relevel φ).precedence ↔ levelFloor a ≤ b.precedence := by
  have hkind : (a.relevel φ).kind = a.kind := rfl
  have hprecedence : ∀ c : Group ExprId, (c.relevel φ).precedence = φ c.precedence := fun _ => rfl
  rw [levelFloor, levelFloor, hkind, hprecedence, hprecedence]
  cases hassoc : a.kind with
  | once | leftRecursive => exact h.le_iff ha hb
  | leftAssociative =>
      have htop := h.top a ha hassoc
      by_cases hp : a.precedence = Precedence.top
      · rw [above, above, if_pos (htop.mpr hp), if_pos hp]
        exact h.le_iff ha hb
      · rw [above_le_iff (mt htop.mp hp), above_le_iff hp]
        exact h.lt_iff ha hb

end KeepsOrder

end Growth

/-! ## Grammars at other precedences -/

namespace Grammar

open Growth Engine

variable {g : Grammar} {text : Text} {id : ExprId}

theorem node?_relevel (g : Grammar) (id : ExprId) :
    (g.relevel φ).node? id = (g.node? id).map (Expr.relevel φ) :=
  Array.getElem?_map

/-- Relevelling replaces the precedences of the groups and leaves the children. -/
theorem shape?_relevel (g : Grammar) (id : ExprId) :
    (g.relevel φ).shape? id = (g.shape? id).map (Shape.relevel φ) := by
  rw [shape?, shape?, node?_relevel, Option.map_map, Option.map_map]
  rfl

@[simp] theorem size_relevel (g : Grammar) : (g.relevel φ).size = g.size :=
  Array.size_map

/-- No cluster is on a fast path, so blanks are skipped as before. -/
theorem skipWithin_relevel (g : Grammar) (nesting : Nat) :
    (g.relevel φ).skipWithin text nesting = g.skipWithin text nesting := by
  induction nesting with
  | zero => rfl
  | succ nesting ih =>
      funext id p
      rw [skipWithin, skipWithin, ih, shape?_relevel]
      cases g.shape? id with
      | none => rfl
      | some s => cases s <;> rfl

theorem skip_relevel (g : Grammar) (text : Text) (ws : ExprId) (p : Nat) :
    (g.relevel φ).skip text ws p = g.skip text ws p := by
  rw [skip, skip, size_relevel, skipWithin_relevel]

/-- A cluster without a name is described by its kind and its id, not by its levels. -/
theorem describeWithin_relevel (g : Grammar) (steps : Nat) :
    (g.relevel φ).describeWithin steps = g.describeWithin steps := by
  induction steps with
  | zero => rfl
  | succ steps ih =>
      funext id
      rw [describeWithin, describeWithin, ih, node?_relevel]
      cases g.node? id with
      | none => rfl
      | some e =>
          obtain ⟨name, s, flags⟩ := e
          cases name with
          | some name => rfl
          | none => cases s <;> rfl

@[simp] theorem describe_relevel (g : Grammar) : (g.relevel φ).describe = g.describe := by
  funext id
  rw [describe, describe, size_relevel, describeWithin_relevel]

/-- Nothing replaces all floors, and nothing is custom. -/
def Levelled (g : Grammar) : Prop :=
  ∀ id s, g.shape? id = some s →
    (∀ operand floor, s ≠ .minPrecedence operand floor) ∧ ∀ spec children, s ≠ .custom spec children

/-- New precedences leave the same nodes as levels. -/
theorem Levelled.relevel (h : g.Levelled) : (g.relevel φ).Levelled := by
  intro id s' hs'
  rw [shape?_relevel] at hs'
  obtain ⟨s, hs, rfl⟩ := Option.map_eq_some_iff.mp hs'
  obtain ⟨hfloors, hcustom⟩ := h id s hs
  cases s with
  | minPrecedence operand floor => exact absurd rfl (hfloors operand floor)
  | custom spec children => exact absurd rfl (hcustom spec children)
  | _ => exact ⟨nofun, nofun⟩

/-! ## Floors -/

/-- The floor that a group of the cluster sets, before and afterwards. -/
def LevelFloors (g : Grammar) (φ : Precedence → Precedence) (cluster : ExprId)
    (floor floor' : Precedence) : Prop :=
  ∃ groups group, g.shape? cluster = some (.cluster groups) ∧ group ∈ groups ∧
    floor = levelFloor group ∧ floor' = levelFloor (group.relevel φ)

/-- Floors that the same groups have set. -/
structure Relevelled (g : Grammar) (φ : Precedence → Precedence) (F F' : Floors) : Prop where
  left : F.Canonical
  right : F'.Canonical
  fallback : F.fallback = 0
  fallback' : F'.fallback = 0
  explicit : ∀ cluster, Option.Rel (g.LevelFloors φ cluster) (F.explicit? cluster)
    (F'.explicit? cluster)

namespace Relevelled

variable {F F' H H' : Floors} {groups : List (Group ExprId)} {group : Group ExprId}

/-- A parse starts at the lowest floor for all clusters, at any precedences. -/
theorem default : g.Relevelled φ {} {} :=
  ⟨Floors.canonical_uniform 0, Floors.canonical_uniform 0, rfl, rfl, fun _ => .none⟩

/-- The floor of a group is that of the group at its new precedence. -/
theorem set (h : g.Relevelled φ F F') (hs : g.shape? id = some (.cluster groups))
    (hgroup : group ∈ groups) :
    g.Relevelled φ (F.set id (levelFloor group)) (F'.set id (levelFloor (group.relevel φ))) where
  left := h.left.set id _
  right := h.right.set id _
  fallback := h.fallback
  fallback' := h.fallback'
  explicit cluster := by
    rw [Floors.explicit?_set, Floors.explicit?_set]
    split
    · rename_i hcluster
      exact .some ⟨groups, group, hcluster ▸ hs, hgroup, rfl, rfl⟩
    · exact h.explicit cluster

/-- A floor that is put back corresponds to the one put back on the other side. -/
theorem reset (h : g.Relevelled φ F F') (h' : g.Relevelled φ H H') (id : ExprId) :
    g.Relevelled φ (H.reset id (F.explicit? id)) (H'.reset id (F'.explicit? id)) where
  left := h'.left.reset id _
  right := h'.right.reset id _
  fallback := (Floors.fallback_reset ..).trans h'.fallback
  fallback' := (Floors.fallback_reset ..).trans h'.fallback'
  explicit cluster := by
    rw [h'.left.explicit?_reset, h'.right.explicit?_reset]
    split
    · rename_i hcluster
      exact hcluster ▸ h.explicit cluster
    · exact h'.explicit cluster

/-- A group is admitted exactly if it was. -/
theorem admits_iff (h : g.Relevelled φ F F') (hs : g.shape? id = some (.cluster groups))
    (hkeeps : KeepsOrder φ groups) (hgroup : group ∈ groups) :
    F'.floor id ≤ (group.relevel φ).precedence ↔ F.floor id ≤ group.precedence := by
  have hrel := h.explicit id
  rw [Floors.floor, Floors.floor, h.fallback, h.fallback']
  generalize F.explicit? id = floor at hrel ⊢
  generalize F'.explicit? id = floor' at hrel ⊢
  cases hrel with
  | none => exact iff_of_true (UInt32.zero_le ..) (UInt32.zero_le ..)
  | some hlevel =>
      obtain ⟨groups', setter, hs', hsetter, rfl, rfl⟩ := hlevel
      cases hs.symm.trans hs'
      exact hkeeps.admits_iff hsetter hgroup

/-- Floors are equal exactly if they were, if groups set the same floor exactly if they did. -/
theorem eq_iff
    (hkeeps : ∀ id groups, g.shape? id = some (.cluster groups) → KeepsFloors φ groups)
    (h : g.Relevelled φ F F') (h' : g.Relevelled φ H H') : F' = H' ↔ F = H := by
  have hlevel : ∀ cluster {l l' k k'}, g.LevelFloors φ cluster l l' →
      g.LevelFloors φ cluster k k' → (l' = k' ↔ l = k) := by
    rintro cluster _ _ _ _ ⟨groups, a, hs, ha, rfl, rfl⟩ ⟨groups', b, hs', hb, rfl, rfl⟩
    cases hs.symm.trans hs'
    exact hkeeps cluster groups hs a ha b hb
  have hexplicit : ∀ cluster, F'.explicit? cluster = H'.explicit? cluster ↔
      F.explicit? cluster = H.explicit? cluster := by
    intro cluster
    have hF := h.explicit cluster
    have hH := h'.explicit cluster
    generalize F.explicit? cluster = x at hF ⊢
    generalize F'.explicit? cluster = x' at hF ⊢
    generalize H.explicit? cluster = y at hH ⊢
    generalize H'.explicit? cluster = y' at hH ⊢
    cases hF with
    | none => cases hH <;> simp
    | some hF =>
        cases hH with
        | none => simp
        | some hH => rw [Option.some_inj, Option.some_inj, hlevel cluster hF hH]
  constructor
  · intro heq
    refine h.left.ext h'.left (fun cluster => (hexplicit cluster).mp ?_) ?_
    · rw [heq]
    · rw [h.fallback, h'.fallback]
  · intro heq
    refine h.right.ext h'.right (fun cluster => (hexplicit cluster).mpr ?_) ?_
    · rw [heq]
    · rw [h.fallback', h'.fallback']

end Relevelled

/-! ## Matching -/

/-- Matching at other precedences, with memo tables related as they are told to be. -/
def lockstepRelevel (g : Grammar) (φ : Precedence → Precedence)
    (memo : Table Fingerprint (Option Changes) → Table Fingerprint (Option Changes) → Prop) :
    Lockstep :=
  .ofFloors (fun _ => True) (g.Relevelled φ) memo (fun _ _ => True) Eq
    (fun h h' _ => h.reset h' _) (fun _ _ => trivial) fun _ => rfl

/-- Keys of the same expression in states that differ in floors only. -/
def pairing (g : Grammar) (φ : Precedence → Precedence)
    (hkeeps : ∀ id groups, g.shape? id = some (.cluster groups) → KeepsFloors φ groups) :
    Pairing where
  rel a b := b.1 = a.1 ∧ g.Relevelled φ a.2.floors b.2.floors ∧
    b.2 = { a.2 with floors := b.2.floors }
  eq_iff := by
    rintro ⟨i, p⟩ ⟨_, p'⟩ ⟨j, q⟩ ⟨_, q'⟩ ⟨rfl, hfloors, hp⟩ ⟨rfl, hfloors', hq⟩
    have hiff := hfloors.eq_iff hkeeps hfloors'
    dsimp only at hp hq hiff
    rw [hp, hq]
    obtain ⟨seeds, floors, slots, recording⟩ := p
    obtain ⟨seeds', floors', slots', recording'⟩ := q
    simp only [Prod.mk.injEq, Fingerprint.mk.injEq]
    rw [hiff]

section Matching

variable {memo : Table Fingerprint (Option Changes) → Table Fingerprint (Option Changes) → Prop}
variable {groups : List (Group ExprId)}

/-- A cluster admits the same groups. -/
theorem clusters_relevel (hs : g.shape? id = some (.cluster groups))
    (hkeeps : KeepsOrder φ groups) :
    (g.lockstepRelevel φ memo).Clusters id groups (groups.map (Group.relevel φ)) := by
  intro F F' hfloors
  have hadmitted : ∀ l ⊆ groups,
      (l.map (Group.relevel φ)).takeWhile (fun group => decide (F'.floor id ≤ group.precedence)) =
        (l.takeWhile fun group => decide (F.floor id ≤ group.precedence)).map (Group.relevel φ) := by
    intro l hl
    induction l with
    | nil => rfl
    | cons group rest ih =>
        obtain ⟨hgroup, hrest⟩ := List.cons_subset.mp hl
        simp only [List.map_cons, List.takeWhile_cons, hfloors.admits_iff hs hkeeps hgroup, ih hrest]
        split <;> rfl
  show List.Forall₂ _ (groups.takeWhile _) ((groups.map _).takeWhile fun group : Group ExprId =>
    decide (F'.floor id ≤ group.precedence))
  rw [hadmitted groups (List.Subset.refl _), List.forall₂_map_right_iff, List.forall₂_same]
  intro group hgroup
  refine ⟨rfl, (List.map_id' _).symm, fun _ _ => trivial, fun _ _ hfloors => ?_⟩
  exact hfloors.set hs ((List.takeWhile_prefix _).subset hgroup)

/-- Relevelling changes no id, so lockstep only has to match the clusters, where order is all that
    counts. -/
theorem ties_relevel (hplain : g.Levelled)
    (hkeeps : ∀ id groups, g.shape? id = some (.cluster groups) → KeepsOrder φ groups) (text : Text) :
    (g.lockstepRelevel φ memo).Ties g (g.relevel φ) text where
  node := by
    intro id _
    show Lockstep.Nodes _ id (g.node? id) ((g.relevel φ).node? id)
    rw [node?_relevel]
    cases he : g.node? id with
    | none => exact .missing rfl
    | some e =>
        have hs : g.shape? id = some e.shape := shape?_of_node? he
        obtain ⟨hfloors, hcustom⟩ := hplain id e.shape hs
        refine .found rfl ?_
        show Lockstep.Shapes _ id e.shape (e.shape.relevel φ)
        by_cases hcluster : ∃ groups, e.shape = .cluster groups
        · obtain ⟨groups, hgroups⟩ := hcluster
          rw [hgroups] at hs ⊢
          exact .cluster (clusters_relevel hs (hkeeps id groups hs))
        · have hplain : e.shape.ignoresFloors = true := by
            cases hshape : e.shape with
            | cluster groups => exact absurd ⟨groups, hshape⟩ hcluster
            | minPrecedence operand floor => exact absurd hshape (hfloors operand floor)
            | custom spec children => exact absurd hshape (hcustom spec children)
            | _ => rfl
          have hsame : e.shape.relevel φ = e.shape := by
            cases hshape : e.shape with
            | cluster groups => exact absurd ⟨groups, hshape⟩ hcluster
            | _ => rfl
          have hshapes : (g.lockstepRelevel φ memo).Shapes id e.shape
              (e.shape.map (g.lockstepRelevel φ memo).image) := .plain hplain fun _ _ => trivial
          rw [hsame]
          rwa [show e.shape.map (g.lockstepRelevel φ memo).image = e.shape from
            Shape.map_id e.shape] at hshapes
  skip := by
    show Option.Rel _ g.whitespace g.whitespace
    cases g.whitespace with
    | none => exact .none
    | some ws =>
        refine .some fun p => ?_
        rw [skip_relevel]
        exact Lockstep.answers_refl _

/-- Of memo tables that are never asked nothing has to be known. -/
theorem memoizes_off : (g.lockstepRelevel φ fun _ _ => True).Memoizes .off :=
  ⟨fun hpolicy => absurd rfl hpolicy, fun _ _ _ _ => trivial, fun _ _ _ => trivial⟩

/-- Where groups set the same floor exactly if they did, memo tables answer alike. -/
theorem memoizes_relevel
    (hkeeps : ∀ id groups, g.shape? id = some (.cluster groups) → KeepsFloors φ groups)
    (policy : MemoPolicy) :
    (g.lockstepRelevel φ (g.pairing φ hkeeps).Tables).Memoizes policy := by
  have hkeys : ∀ {k k'}, (g.lockstepRelevel φ (g.pairing φ hkeeps).Tables).Keys k k' →
      (g.pairing φ hkeeps).Keys k k' := by
    rintro _ _ ⟨⟨hseeds, hfloors⟩, -⟩
    obtain rfl := hseeds
    exact ⟨rfl, rfl, hfloors, rfl⟩
  exact ⟨fun _ h hk => h.get? (hkeys hk), fun o _ h hk => h.insert (hkeys hk) o,
    fun _ _ _ => trivial⟩

end Matching

end Grammar

end Packrat
