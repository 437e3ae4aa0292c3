import Mathlib
import Packrat.Grammar.Term
import Packrat.Proofs.Relabeling.Shapes

/-! # Terms as trees

    The operands of a term are the children of its shape, and they are smaller than the term.  So
    terms are built up from their operands: what holds of a term whenever it holds of its operands
    holds of all terms (`Term.tree_induction`), and functions on terms recurse over operands.

    * **`Term.nodeCount`**, **`Term.embedded`** — the nodes that a term asks for, and the expressions
      that it takes over.
    * **`Term.sorted`** — the term with the groups of every cluster in STABLE order of decreasing
      precedence. -/

namespace Packrat

variable {α β : Type}

/-! ## Operands -/

theorem Group.sizeOf_lt [SizeOf α] {groups : List (Group α)} {a : α}
    (h : a ∈ groups.flatMap Group.alternatives) : sizeOf a < sizeOf groups := by
  obtain ⟨⟨precedence, kind, alternatives⟩, hgroup, ha⟩ := List.mem_flatMap.mp h
  have halternatives : sizeOf a < sizeOf alternatives := List.sizeOf_lt_of_mem ha
  have hgroups := List.sizeOf_lt_of_mem hgroup
  simp only [Group.mk.sizeOf_spec] at hgroups
  omega

/-- A child is smaller than its shape. -/
theorem Shape.sizeOf_lt [SizeOf α] {s : Shape α} {a : α} (h : a ∈ s.children) :
    sizeOf a < sizeOf s := by
  cases s with
  | literal | any | range | set | reference => cases h
  | sequence items | choice items | custom _ items =>
      have hitems : sizeOf a < sizeOf items := List.sizeOf_lt_of_mem h
      simp only [sequence.sizeOf_spec, choice.sizeOf_spec, custom.sizeOf_spec]
      omega
  | cluster groups =>
      have hgroups := Group.sizeOf_lt h
      simp only [cluster.sizeOf_spec]
      omega
  | optional | zeroMore | oneMore | lookahead | not | token | capture | leftRecursive
  | minPrecedence =>
      cases List.mem_singleton.mp h
      simp only [optional.sizeOf_spec, zeroMore.sizeOf_spec, oneMore.sizeOf_spec,
        lookahead.sizeOf_spec, not.sizeOf_spec, token.sizeOf_spec, capture.sizeOf_spec,
        leftRecursive.sizeOf_spec, minPrecedence.sizeOf_spec]
      omega

/-- An operand is smaller than its term. -/
theorem Term.sizeOf_lt {s : Shape Term} {t : Term} (h : t ∈ s.children) :
    sizeOf t < sizeOf (Term.node s) := by
  have hshape := Shape.sizeOf_lt h
  simp only [node.sizeOf_spec]
  omega

/-- What holds of a term whenever it holds of its operands holds of every term. -/
theorem Term.tree_induction {motive : Term → Prop} (existing : ∀ id, motive (.existing id))
    (node : ∀ s : Shape Term, (∀ t ∈ s.children, motive t) → motive (.node s)) (t : Term) :
    motive t :=
  match t with
  | .existing id => existing id
  | .node s => node s fun t _ => tree_induction existing node t
termination_by sizeOf t
decreasing_by exact sizeOf_lt ‹_›

namespace Term

/-- Number of nodes that are not in the grammar yet. -/
def nodeCount : Term → Nat
  | .existing _ => 0
  | .node s => (s.children.attach.map fun t => t.1.nodeCount).sum + 1
termination_by t => sizeOf t
decreasing_by exact sizeOf_lt t.2

@[simp] theorem nodeCount_existing (id : ExprId) : (existing id).nodeCount = 0 := by
  rw [nodeCount]

@[simp] theorem nodeCount_node (s : Shape Term) :
    (node s).nodeCount = (s.children.map nodeCount).sum + 1 := by
  rw [nodeCount, List.attach_map_val]

/-- An operand has fewer nodes than what it is an operand of. -/
theorem nodeCount_lt {s : Shape Term} {t : Term} (h : t ∈ s.children) :
    t.nodeCount < (node s).nodeCount := by
  rw [nodeCount_node]
  exact Nat.lt_succ_of_le (List.le_sum_of_mem (List.mem_map_of_mem h))

/-- The expressions of the grammar that the term takes over. -/
def embedded : Term → List ExprId
  | .existing id => [id]
  | .node s => s.children.attach.flatMap fun t => t.1.embedded
termination_by t => sizeOf t
decreasing_by exact sizeOf_lt t.2

@[simp] theorem embedded_existing (id : ExprId) : (existing id).embedded = [id] := by
  rw [embedded]

@[simp] theorem embedded_node (s : Shape Term) :
    (node s).embedded = s.children.flatMap embedded := by
  rw [embedded, List.flatMap_def, List.attach_map_val, List.flatMap_def]

end Term

/-! ## Order of groups -/

namespace Group

variable {groups : List (Group α)} {group : Group α}

/-- Whether a group may stand before another. -/
def mayPrecede (a b : Group α) : Bool :=
  decide (b.precedence ≤ a.precedence)

/-- The order of groups is transitive, as merge sort asks for. -/
theorem mayPrecede_trans (a b c : Group α) (hab : a.mayPrecede b = true)
    (hbc : b.mayPrecede c = true) : a.mayPrecede c = true := by
  simp only [mayPrecede, decide_eq_true_eq] at *
  exact UInt32.le_trans hbc hab

/-- Any two groups may stand in one order or in the other. -/
theorem mayPrecede_total (a b : Group α) : (a.mayPrecede b || b.mayPrecede a) = true := by
  simp only [mayPrecede, Bool.or_eq_true, decide_eq_true_eq]
  exact UInt32.le_total _ _

theorem not_mayPrecede {a b : Group α} : (!a.mayPrecede b) = true ↔ a.precedence < b.precedence := by
  simp [mayPrecede]

/-- A group is inserted behind those of higher precedence. -/
theorem insert_append {before after : List (Group α)}
    (hbefore : ∀ a ∈ before, (!group.mayPrecede a) = true)
    (hafter : ∀ a ∈ after, group.mayPrecede a = true) :
    group.insert (before ++ after) = before ++ group :: after := by
  induction before with
  | nil =>
      cases after with
      | nil => rfl
      | cons a after =>
          have hhead := hafter a (List.mem_cons_self ..)
          have hnot : ¬ group.precedence < a.precedence := by
            rw [← not_mayPrecede, hhead]
            decide
          rw [List.nil_append, insert, if_neg hnot, List.nil_append]
  | cons a before ih =>
      obtain ⟨hhead, htail⟩ := List.forall_mem_cons.mp hbefore
      rw [List.cons_append, insert, if_pos (not_mayPrecede.mp hhead), ih htail, List.cons_append]

/-- Sorting by insertion is sorting in stable order. -/
theorem sort_eq_mergeSort (groups : List (Group α)) : sort groups = groups.mergeSort mayPrecede := by
  induction groups with
  | nil => rw [List.mergeSort_nil]; rfl
  | cons group rest ih =>
      obtain ⟨before, after, hsorted, hrest, hbefore⟩ :=
        List.mergeSort_cons mayPrecede_trans mayPrecede_total group rest
      have hpairwise := List.pairwise_mergeSort mayPrecede_trans mayPrecede_total (group :: rest)
      rw [hsorted] at hpairwise
      have hafter := (List.pairwise_cons.mp (List.pairwise_append.mp hpairwise).2.1).1
      have hcons : sort (group :: rest) = group.insert (sort rest) := rfl
      rw [hcons, ih, hrest, insert_append hbefore hafter, hsorted]

end Group

namespace Shape

/-- The shape with its groups in stable order of decreasing precedence. -/
def sortGroups : Shape α → Shape α
  | .cluster groups => .cluster (groups.mergeSort Group.mayPrecede)
  | s => s

/-- Sorting groups does not look at their alternatives. -/
theorem sortGroups_map (f : α → β) (s : Shape α) :
    (s.map f).sortGroups = s.sortGroups.map f := by
  cases s with
  | cluster groups =>
      have hsame : ∀ a ∈ groups, ∀ b ∈ groups,
          a.mayPrecede b = (a.map f).mayPrecede (b.map f) := fun a _ b _ => rfl
      simp only [map, sortGroups, List.map_mergeSort hsame]
  | _ => rfl

/-- Sorting groups moves children and loses none. -/
theorem children_sortGroups (s : Shape α) : s.sortGroups.children.Perm s.children := by
  cases s with
  | cluster groups => exact (List.mergeSort_perm groups _).flatMap_right _
  | _ => rfl

end Shape

namespace Term

/-- The term with the groups of every cluster sorted, those of equal precedence in their given
    order.  Operands have fewer nodes than their term, so the condition always holds. -/
def sorted : Term → Term
  | .existing id => .existing id
  | .node s =>
      .node (s.map fun t =>
        if t.nodeCount < (Term.node s).nodeCount then t.sorted else t).sortGroups
termination_by t => t.nodeCount
decreasing_by assumption

@[simp] theorem sorted_existing (id : ExprId) : (existing id).sorted = existing id := by
  rw [sorted]

/-- A term is sorted by sorting its operands and then its groups. -/
@[simp] theorem sorted_node (s : Shape Term) :
    (node s).sorted = node (s.map sorted).sortGroups := by
  rw [sorted]
  refine congrArg (fun s => node (Shape.sortGroups s)) (Shape.map_congr ?_)
  exact fun t ht => if_pos (nodeCount_lt ht)

end Term

end Packrat
