import Packrat.Proofs.Layout.Terms
import Packrat.Proofs.Relabeling.Copies

/-! # Terms laid out and read back

    Inserting a term only appends nodes, one for each node of the term, and children before their
    parents.  The graph is READ BACK from a node by following children down to the expressions that
    were there before (`Grammar.readBack`), and what is met on the way is listed
    (`Grammar.newBelow`).

    What is read back from the id of an inserted term is the term with its groups sorted, and every
    new node is met once (`Term.insert_readBack`).  The ids of operands are handed out in the order
    in which they are written, before any sorting. -/

namespace Packrat

/-! ## Reading back -/

namespace Grammar

/-- The expression as a term over the expressions before `old`.  A child that does not come before
    its parent is left as it is. -/
def readBack (g : Grammar) (old : Nat) (id : ExprId) : Term :=
  if id < old then .existing id
  else
    match g.shape? id with
    | none => .existing id
    | some s => .node (s.map fun child =>
        if child < id then g.readBack old child else .existing child)
termination_by id

/-- The nodes from `old` on that reading back meets, children before their parents. -/
def newBelow (g : Grammar) (old : Nat) (id : ExprId) : List ExprId :=
  if id < old then []
  else
    match g.shape? id with
    | none => []
    | some s => (s.children.flatMap fun child =>
        if child < id then g.newBelow old child else []) ++ [id]
termination_by id

variable {g g' g₁ g₂ : Grammar} {old : Nat} {id : ExprId} {s : Shape ExprId} {n n₁ n₂ : Nat}

/-- A node that was there before stands for itself. -/
theorem readBack_existing (h : id < old) : g.readBack old id = .existing id := by
  rw [readBack, if_pos h]

/-- Nothing new is below what was there before. -/
theorem newBelow_existing (h : id < old) : g.newBelow old id = [] := by
  rw [newBelow, if_pos h]

/-- A new node is read back by its children, which were laid out before it. -/
theorem readBack_node (hid : old ≤ id) (hs : g.shape? id = some s)
    (hchildren : ∀ child ∈ s.children, child < id) :
    g.readBack old id = .node (s.map (g.readBack old)) := by
  rw [readBack, if_neg hid.not_gt, hs]
  exact congrArg Term.node (Shape.map_congr fun child hchild => if_pos (hchildren child hchild))

/-- New below a new node are those below its children, and the node. -/
theorem newBelow_node (hid : old ≤ id) (hs : g.shape? id = some s)
    (hchildren : ∀ child ∈ s.children, child < id) :
    g.newBelow old id = s.children.flatMap (g.newBelow old) ++ [id] := by
  rw [newBelow, if_neg hid.not_gt, hs]
  refine congrArg (· ++ [id]) (List.flatMap_congr fun child hchild => ?_)
  exact if_pos (hchildren child hchild)

/-- Nothing behind a node is read. -/
theorem readBack_congr (h : ∀ i ≤ id, g'.node? i = g.node? i) :
    g'.readBack old id = g.readBack old id ∧ g'.newBelow old id = g.newBelow old id := by
  induction id using Nat.strong_induction_on with
  | _ id ih =>
      have hshape : g'.shape? id = g.shape? id := by rw [shape?, h id le_rfl, shape?]
      have hbelow : ∀ child < id, g'.readBack old child = g.readBack old child ∧
          g'.newBelow old child = g.newBelow old child :=
        fun child hlt => ih child hlt fun i hi => h i (hi.trans hlt.le)
      rw [readBack, readBack.eq_def g, newBelow, newBelow.eq_def g, hshape]
      split
      · exact ⟨rfl, rfl⟩
      · cases g.shape? id with
        | none => exact ⟨rfl, rfl⟩
        | some s =>
            refine ⟨congrArg Term.node (Shape.map_congr fun child _ => ?_),
              congrArg (· ++ [id]) (List.flatMap_congr fun child _ => ?_)⟩
            all_goals
              split
              · rename_i hlt
                first | exact (hbelow child hlt).1 | exact (hbelow child hlt).2
              · rfl

/-! ## Appending nodes -/

/-- The grammar with some unnamed nodes behind its own, each behind its children. -/
structure Appended (g g' : Grammar) (count : Nat) : Prop where
  size : g'.size = g.size + count
  kept : ∀ i < g.size, g'.node? i = g.node? i
  rules : g'.rules = g.rules
  root : g'.root = g.root
  whitespace : g'.whitespace = g.whitespace
  ordered : ∀ i, g.size ≤ i → i < g'.size →
    ∃ s, g'.node? i = some (.ofShape s) ∧ ∀ child ∈ s.children, child < i

namespace Appended

theorem refl (g : Grammar) : Appended g g 0 :=
  ⟨rfl, fun _ _ => rfl, rfl, rfl, rfl, fun _ hi hlt => absurd hlt hi.not_gt⟩

/-- Appending never shrinks an arena. -/
theorem le (h : Appended g g' n) : g.size ≤ g'.size :=
  h.size ▸ Nat.le_add_right ..

/-- What is appended in two steps is appended in one. -/
theorem trans (h₁ : Appended g g₁ n₁) (h₂ : Appended g₁ g₂ n₂) : Appended g g₂ (n₁ + n₂) where
  size := by rw [h₂.size, h₁.size, Nat.add_assoc]
  kept i hi := (h₂.kept i (hi.trans_le h₁.le)).trans (h₁.kept i hi)
  rules := h₂.rules.trans h₁.rules
  root := h₂.root.trans h₁.root
  whitespace := h₂.whitespace.trans h₁.whitespace
  ordered i hi hlt := by
    by_cases hold : i < g₁.size
    · obtain ⟨s, hs, hchildren⟩ := h₁.ordered i hi hold
      exact ⟨s, (h₂.kept i hold).trans hs, hchildren⟩
    · exact h₂.ordered i (not_lt.mp hold) hlt

/-- A node whose children are there is appended as one. -/
theorem add (h : ∀ child ∈ s.children, child < g.size) : Appended g (g.add s).2 1 where
  size := size_push g _
  kept i hi := by rw [Grammar.add, node?_push, if_neg hi.ne]
  rules := rfl
  root := rfl
  whitespace := rfl
  ordered i hi hlt := by
    have hsize : (g.add s).2.size = g.size + 1 := size_push g _
    obtain rfl : i = g.size := by omega
    exact ⟨s, by rw [Grammar.add, node?_push, if_pos rfl], h⟩

end Appended

/-! ## Laying out -/

/-- The nodes behind those of `g` are the nodes of some terms, which are read back from the given
    ids. -/
structure Laid (old : Nat) (g g' : Grammar) (terms : List Term) (ids : List ExprId) : Prop where
  appended : Appended g g' (terms.map Term.nodeCount).sum
  inside : ∀ id ∈ ids, id < g'.size
  read : ids.map (g'.readBack old) = terms.map Term.sorted
  met : (ids.flatMap (g'.newBelow old)).Perm
    (List.range' g.size (terms.map Term.nodeCount).sum)

namespace Laid

variable {terms terms₁ terms₂ : List Term} {ids ids₁ ids₂ : List ExprId}

theorem nil (old : Nat) (g : Grammar) : Laid old g g [] [] :=
  ⟨.refl g, by rintro id ⟨⟩, rfl, .refl _⟩

/-- An existing node is laid out by being there. -/
theorem existing (hid : id < old) (hold : old ≤ g.size) :
    Laid old g g [.existing id] [id] where
  appended := by simpa using Appended.refl g
  inside := by simpa using hid.trans_le hold
  read := by simp [readBack_existing hid]
  met := by simp [newBelow_existing hid]

/-- What was laid out before is read back as before. -/
theorem later (h : Laid old g g₁ terms ids) (happended : Appended g₁ g₂ n) :
    ids.map (g₂.readBack old) = ids.map (g₁.readBack old) ∧
      ids.flatMap (g₂.newBelow old) = ids.flatMap (g₁.newBelow old) := by
  have hsame : ∀ id ∈ ids, g₂.readBack old id = g₁.readBack old id ∧
      g₂.newBelow old id = g₁.newBelow old id := fun id hid =>
    readBack_congr fun i hi => happended.kept i (hi.trans_lt (h.inside id hid))
  exact ⟨List.map_congr_left fun id hid => (hsame id hid).1,
    List.flatMap_congr fun id hid => (hsame id hid).2⟩

/-- Terms are laid out one after the other, and the later do not disturb the earlier. -/
theorem append (h₁ : Laid old g g₁ terms₁ ids₁) (h₂ : Laid old g₁ g₂ terms₂ ids₂) :
    Laid old g g₂ (terms₁ ++ terms₂) (ids₁ ++ ids₂) := by
  obtain ⟨hread, hmet⟩ := h₁.later h₂.appended
  refine ⟨?_, ?_, ?_, ?_⟩
  · rw [List.map_append, List.sum_append]
    exact h₁.appended.trans h₂.appended
  · intro id hid
    rcases List.mem_append.mp hid with hid | hid
    · exact (h₁.inside id hid).trans_le h₂.appended.le
    · exact h₂.inside id hid
  · rw [List.map_append, List.map_append, hread, h₁.read, h₂.read]
  · rw [List.flatMap_append, hmet, List.map_append, List.sum_append, ← List.range'_append_1,
      ← h₁.appended.size]
    exact h₁.met.append h₂.met

/-- A node over operands that have been laid out, with its groups sorted. -/
theorem node {t : Shape Term} (hold : old ≤ g.size) (h : Laid old g g₁ t.children ids)
    (hform : s.form = t.form) (hchildren : s.children = ids) :
    Laid old g (g₁.add s.sortGroups).2 [.node t] [g₁.size] := by
  have hpermuted : s.sortGroups.children.Perm ids := hchildren ▸ s.children_sortGroups
  have hbelow : ∀ child ∈ s.sortGroups.children, child < g₁.size :=
    fun child hchild => h.inside child (hpermuted.mem_iff.mp hchild)
  have hadded : Appended g₁ (g₁.add s.sortGroups).2 1 := .add hbelow
  have hnode : (g₁.add s.sortGroups).2.shape? g₁.size = some s.sortGroups := by
    rw [shape?, Grammar.add, node?_push, if_pos rfl]
    rfl
  have hfirst : old ≤ g₁.size := hold.trans h.appended.le
  obtain ⟨hread, hmet⟩ := h.later hadded
  have hcount : [Term.node t].map Term.nodeCount = [(t.children.map Term.nodeCount).sum + 1] := by
    rw [List.map_singleton, Term.nodeCount_node]
  -- the operands read back in the places of the children are those of the term
  have hoperands : s.map ((g₁.add s.sortGroups).2.readBack old) = t.map Term.sorted := by
    refine Shape.ext_children ?_ ?_
    · rw [Shape.form_map, Shape.form_map, hform]
    · rw [Shape.children_map, Shape.children_map, hchildren, hread, h.read]
  refine ⟨?_, ?_, ?_, ?_⟩
  · rw [hcount, List.sum_singleton]
    exact h.appended.trans hadded
  · rw [List.forall_mem_singleton, hadded.size]
    exact Nat.lt_succ_self _
  · rw [List.map_singleton, List.map_singleton, readBack_node hfirst hnode hbelow,
      ← Shape.sortGroups_map, hoperands, Term.sorted_node]
  · rw [List.flatMap_singleton, newBelow_node hfirst hnode hbelow, hcount, List.sum_singleton,
      List.range'_1_concat, ← h.appended.size]
    exact ((hpermuted.flatMap_right _).trans (hmet ▸ h.met)).append_right _

end Laid

end Grammar

/-! ## Inserting terms -/

namespace Term

variable {g g' : Grammar} {id : ExprId} {t : Term}

theorem insertAll_nil (g : Grammar) : insertAll [] g = ([], g) := by
  rw [insertAll]

theorem insertAll_cons (t : Term) (rest : List Term) (g : Grammar) :
    insertAll (t :: rest) g =
      ((t.insert g).1 :: (insertAll rest (t.insert g).2).1, (insertAll rest (t.insert g).2).2) := by
  rw [insertAll]
  rfl

theorem insert_node (s : Shape Term) (g : Grammar) :
    (node s).insert g = (insertShape s g).2.add (insertShape s g).1 := by
  rw [insert]
  rfl

theorem length_insertAll (terms : List Term) (g : Grammar) :
    (insertAll terms g).1.length = terms.length := by
  induction terms generalizing g with
  | nil => rw [insertAll_nil]; rfl
  | cons t rest ih => rw [insertAll_cons, List.length_cons, List.length_cons, ih]

/-- Inserting a list in two parts is inserting it as a whole. -/
theorem insertAll_append (terms terms' : List Term) (g : Grammar) :
    insertAll (terms ++ terms') g =
      ((insertAll terms g).1 ++ (insertAll terms' (insertAll terms g).2).1,
        (insertAll terms' (insertAll terms g).2).2) := by
  induction terms generalizing g with
  | nil => rw [List.nil_append, insertAll_nil]; rfl
  | cons t rest ih => rw [List.cons_append, insertAll_cons, insertAll_cons, ih]; rfl

/-- The groups of a cluster are laid out like the list of their alternatives. -/
theorem insertGroups_eq (groups : List (Group Term)) (g : Grammar) :
    ∃ laid, insertGroups groups g = (laid, (insertAll (groups.flatMap Group.alternatives) g).2) ∧
      laid.map (Group.map fun _ => ()) = groups.map (Group.map fun _ => ()) ∧
      laid.flatMap Group.alternatives = (insertAll (groups.flatMap Group.alternatives) g).1 := by
  induction groups generalizing g with
  | nil =>
      rw [insertGroups, List.flatMap_nil, insertAll_nil]
      exact ⟨[], rfl, rfl, rfl⟩
  | cons group rest ih =>
      obtain ⟨precedence, kind, alternatives⟩ := group
      obtain ⟨laid, hrun, hform, hids⟩ := ih (insertAll alternatives g).2
      have hlength := length_insertAll alternatives g
      rw [List.flatMap_cons, insertAll_append]
      refine ⟨{ precedence, kind, alternatives := (insertAll alternatives g).1 } :: laid, ?_, ?_, ?_⟩
      · have hcons : insertGroups (⟨precedence, kind, alternatives⟩ :: rest) g =
            ({ precedence, kind, alternatives := (insertAll alternatives g).1 } ::
                (insertGroups rest (insertAll alternatives g).2).1,
              (insertGroups rest (insertAll alternatives g).2).2) := by
          rw [insertGroups, insertGroup]
          rfl
        rw [hcons, hrun]
      · rw [List.map_cons, List.map_cons, hform]
        simp [Group.map, hlength]
      · rw [List.flatMap_cons, hids]

/-- A shape is laid out like the list of its children; then its groups are sorted. -/
theorem insertShape_eq (t : Shape Term) (g : Grammar) :
    ∃ s : Shape ExprId, insertShape t g = (s.sortGroups, (insertAll t.children g).2) ∧
      s.form = t.form ∧ s.children = (insertAll t.children g).1 := by
  cases t with
  | literal | any | range | set | reference =>
      refine ⟨_, ?_, Shape.form_map (fun _ => 0) _, ?_⟩
      · rw [insertShape, Shape.children, insertAll_nil]
        rfl
      · rw [Shape.children_map, Shape.children, insertAll_nil]
        rfl
  | optional operand | zeroMore operand | oneMore operand | lookahead operand | not operand
  | token operand | capture operand | leftRecursive operand | minPrecedence operand =>
      refine ⟨_, ?_, Shape.form_map (fun _ => (operand.insert g).1) _, ?_⟩
      · rw [insertShape, Shape.children, insertAll_cons, insertAll_nil]
        rfl
      · rw [Shape.children_map, Shape.children, insertAll_cons, insertAll_nil]
        rfl
  | sequence items =>
      refine ⟨.sequence (insertAll items g).1, by rw [insertShape]; rfl, ?_, rfl⟩
      simp [Shape.form, Shape.map, length_insertAll]
  | choice items =>
      refine ⟨.choice (insertAll items g).1, by rw [insertShape]; rfl, ?_, rfl⟩
      simp [Shape.form, Shape.map, length_insertAll]
  | custom spec items =>
      refine ⟨.custom spec (insertAll items g).1, by rw [insertShape]; rfl, ?_, rfl⟩
      simp [Shape.form, Shape.map, length_insertAll]
  | cluster groups =>
      obtain ⟨laid, hrun, hform, hids⟩ := insertGroups_eq groups g
      refine ⟨.cluster laid, ?_, congrArg Shape.cluster hform, hids⟩
      rw [insertShape, hrun]
      dsimp only
      rw [Group.sort_eq_mergeSort]
      rfl

/-- Terms are laid out one after the other, if each of them is. -/
theorem insertAll_laid {terms : List Term} {old : Nat}
    (h : ∀ t ∈ terms, ∀ g : Grammar, old ≤ g.size →
      Grammar.Laid old g (t.insert g).2 [t] [(t.insert g).1])
    (hold : old ≤ g.size) :
    Grammar.Laid old g (insertAll terms g).2 terms (insertAll terms g).1 := by
  induction terms generalizing g with
  | nil =>
      rw [insertAll_nil]
      exact .nil old g
  | cons t rest ih =>
      obtain ⟨hhead, htail⟩ := List.forall_mem_cons.mp h
      have hfirst := hhead g hold
      rw [insertAll_cons]
      exact hfirst.append (ih htail (hold.trans hfirst.appended.le))

/-- Inserting a term lays it out. -/
theorem insert_laid {old : Nat} (t : Term) (hembedded : ∀ i ∈ t.embedded, i < old)
    (hold : old ≤ g.size) : Grammar.Laid old g (t.insert g).2 [t] [(t.insert g).1] := by
  induction t using tree_induction generalizing g with
  | existing id =>
      rw [insert]
      exact .existing (hembedded id (by simp)) hold
  | node s ih =>
      rw [embedded_node] at hembedded
      have hchildren := insertAll_laid (fun t ht g hold =>
        ih t ht (fun i hi => hembedded i (List.mem_flatMap_of_mem ht hi)) hold) hold
      obtain ⟨laid, hrun, hform, hids⟩ := insertShape_eq s g
      rw [insert_node, hrun]
      exact hchildren.node hold hform hids

/-- **NOTHING IS LOST**: a term over expressions of the grammar is laid out behind them.  Each of
    its nodes becomes one new node, unnamed, with the flags of its shape and children of smaller
    ids, and nothing else changes.  Reading back from the id that is returned, down to what was there
    before, meets each new node once and gives the term with the groups of every cluster in stable
    order of decreasing precedence. -/
theorem insert_readBack (t : Term) (g : Grammar) (hembedded : ∀ i ∈ t.embedded, i < g.size)
    (hrun : t.insert g = (id, g')) :
    (∀ i < g.size, g'.node? i = g.node? i) ∧ g'.rules = g.rules ∧ g'.root = g.root ∧
      g'.whitespace = g.whitespace ∧ g'.size = g.size + t.nodeCount ∧
      (∀ i, g.size ≤ i → i < g'.size →
        ∃ s, g'.node? i = some (.ofShape s) ∧ ∀ child ∈ s.children, child < i) ∧
      (g'.newBelow g.size id).Perm (List.range' g.size t.nodeCount) ∧
      g'.readBack g.size id = t.sorted := by
  have hlaid := insert_laid t hembedded le_rfl
  rw [hrun] at hlaid
  obtain ⟨⟨hsize, hkept, hrules, hroot, hwhitespace, hordered⟩, -, hread, hmet⟩ := hlaid
  rw [List.map_singleton, List.sum_singleton] at hsize hmet
  rw [List.flatMap_singleton] at hmet
  exact ⟨hkept, hrules, hroot, hwhitespace, hsize, hordered, hmet, List.singleton_inj.mp hread⟩

/-- A grammar of one character. -/
def single : Grammar :=
  { nodes := #[.ofShape .any] }

/-- A cluster out of order, with two groups of one precedence, over a shared expression. -/
def disordered : Term :=
  .cluster [{ precedence := 1, kind := .once, alternatives := [.seq [.existing 0, .existing 0]] },
    { precedence := 3, kind := .once, alternatives := [.lit "n"] },
    { precedence := 1, kind := .leftRecursive, alternatives := [.star (.existing 0), .lit "m"] }]

/-- Levels given out of order are read back in order, in an arena that had a node before. -/
theorem insert_readBack_disordered :
    (∀ i ∈ disordered.embedded, i < single.size) ∧
      disordered.insert single = (5, (disordered.insert single).2) ∧ disordered.nodeCount = 5 ∧
      ((disordered.insert single).2.newBelow 1 5).Perm (List.range' 1 5) ∧
      (disordered.insert single).2.readBack 1 5 =
        .cluster [{ precedence := 3, kind := .once, alternatives := [.lit "n"] },
          { precedence := 1, kind := .once, alternatives := [.seq [.existing 0, .existing 0]] },
          { precedence := 1, kind := .leftRecursive
            alternatives := [.star (.existing 0), .lit "m"] }] := by
  have hembedded : ∀ i ∈ disordered.embedded, i < single.size := by
    simp [disordered, cluster, seq, star, lit, Shape.children, single, Grammar.size]
  have hrun : disordered.insert single = (5, (disordered.insert single).2) := rfl
  have hcount : disordered.nodeCount = 5 := by
    simp [disordered, cluster, seq, star, lit, Shape.children]
  obtain ⟨-, -, -, -, -, -, hmet, hread⟩ := insert_readBack disordered single hembedded hrun
  rw [hcount] at hmet
  have hsorted : disordered.sorted =
      .cluster [{ precedence := 3, kind := .once, alternatives := [.lit "n"] },
        { precedence := 1, kind := .once, alternatives := [.seq [.existing 0, .existing 0]] },
        { precedence := 1, kind := .leftRecursive
          alternatives := [.star (.existing 0), .lit "m"] }] := by
    simp [disordered, cluster, seq, star, lit, Shape.map, Group.map, Shape.sortGroups,
      ← Group.sort_eq_mergeSort, Group.sort, Group.insert]
  exact ⟨hembedded, hrun, hcount, hmet, hread.trans hsorted⟩

end Term

end Packrat
