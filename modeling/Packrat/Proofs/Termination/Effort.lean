import Packrat.Grammar.Describe
import Packrat.Proofs.FirstCycles
import Packrat.Proofs.Nullable.Search
import Packrat.Proofs.Transparency.Invocation

/-! # How deep matches can nest

    Where every cycle of first positions goes through a boundary, the edges that start at no boundary
    form no cycle, and an expression has a rank that falls along them (`Grammar.rank`).  A match asks
    for an expression of lower rank where it began, or it is a boundary and leaves a seed, or it asks
    for something farther on.  So the nesting that a match needs falls from each match to those that
    it asks for (`Grammar.effort`), and all that is ever needed is the product of the text, the
    boundaries and the expressions. -/

namespace Packrat

open Relation Finset

/-! ## What lies ahead -/

section Ahead

variable {edge : ExprId → ExprId → Prop} {size : Nat} {u v id : ExprId}

open Classical in
/-- The ids below a bound that lie ahead of `id` along edges. -/
noncomputable def ahead (edge : ExprId → ExprId → Prop) (size : Nat) (id : ExprId) :
    Finset ExprId :=
  {v ∈ range size | TransGen edge id v}

open Classical in
/-- Less lies ahead of the end of an edge, unless the end lies ahead of itself. -/
theorem card_ahead_lt (hacyclic : ¬ TransGen edge v v) (hv : v < size) (h : edge u v) :
    #(ahead edge size v) < #(ahead edge size u) := by
  refine card_lt_card ((ssubset_iff_of_subset ?_).mpr ⟨v, ?_, ?_⟩)
  · intro w hw
    obtain ⟨hsize, hreach⟩ := mem_filter.mp hw
    exact mem_filter.mpr ⟨hsize, .head h hreach⟩
  · exact mem_filter.mpr ⟨mem_range.mpr hv, .single h⟩
  · exact fun hmem => hacyclic (mem_filter.mp hmem).2

open Classical in
theorem card_ahead_lt_size (hacyclic : ¬ TransGen edge id id) (hid : id < size) :
    #(ahead edge size id) < size := by
  have hsub : ahead edge size id ⊂ range size := by
    refine (ssubset_iff_of_subset (filter_subset _ _)).mpr ⟨id, mem_range.mpr hid, ?_⟩
    exact fun hmem => hacyclic (mem_filter.mp hmem).2
  have hcard := card_lt_card hsub
  rwa [card_range] at hcard

end Ahead

namespace Grammar

variable {g : Grammar} {n : Nullability} {u v id child : ExprId}

/-- The boundaries of the grammar. -/
def boundaries (g : Grammar) : Finset ExprId :=
  {id ∈ range g.size | g.isBoundary id = true}

/-- An analysed grammar in which every cycle of first positions goes through a boundary, whose
    whitespace has a fast path, and from whose root no reference and no custom expression can be
    reached. -/
structure Guarded (g : Grammar) (n : Nullability) (root : ExprId) : Prop where
  nullability : g.nullability = .ok n
  inside : root < g.size
  resolved : ∀ id name, ReflTransGen g.Child root id → g.shape? id ≠ some (.reference name)
  custom : ∀ id spec children, ReflTransGen g.Child root id →
    g.shape? id ≠ some (.custom spec children)
  cycles : ∀ v rest, List.IsChain (g.FirstEdge n) (v :: (rest ++ [v])) →
    ∃ b ∈ v :: rest, g.isBoundary b
  whitespace : ∀ ws, g.whitespace = some ws → g.fastPathCulprit ws = .ok none

/-! ## Ranks -/

open Classical in
/-- How many expressions lie ahead of `id` along edges that start at no boundary. -/
noncomputable def rank (g : Grammar) (n : Nullability) (id : ExprId) : Nat :=
  #{v ∈ range g.size | TransGen (g.BareEdge n) id v}

/-- The rank falls along edges that start at no boundary. -/
theorem rank_lt (hacyclic : ∀ v, ¬ TransGen (g.BareEdge n) v v) (hv : v < g.size)
    (h : g.BareEdge n u v) : g.rank n v < g.rank n u :=
  card_ahead_lt (hacyclic v) hv h

theorem rank_lt_size (hacyclic : ∀ v, ¬ TransGen (g.BareEdge n) v v) (hid : id < g.size) :
    g.rank n id < g.size :=
  card_ahead_lt_size (hacyclic id) hid

/-- A child in first position, over an edge. -/
theorem firstEdge_of_firsts {s : Shape ExprId} (hs : g.shape? id = some s)
    (hchild : child ∈ s.firsts n.isNullable) : g.FirstEdge n id child :=
  ⟨_, by rw [firsts?, hs]; rfl, hchild⟩

theorem bareEdge_of_firsts {s : Shape ExprId} (hs : g.shape? id = some s)
    (hboundary : s.isBoundary = false) (hchild : child ∈ s.firsts n.isNullable) :
    g.BareEdge n id child := by
  refine ⟨firstEdge_of_firsts hs hchild, ?_⟩
  rw [isBoundary, hs]
  exact hboundary

/-- The description of `u` is that of its operand `v`. -/
def DescribedBy (g : Grammar) (u v : ExprId) : Prop :=
  ∃ e, g.node? u = some e ∧ e.name = none ∧
    (e.shape = .token v ∨ ∃ mode, e.shape = .capture v mode ∧ mode.accessor = none)

/-- An operand that describes is the one child in first position, and starts at no boundary. -/
theorem DescribedBy.bare (h : g.DescribedBy u v) (n : Nullability) :
    (∀ w, g.FirstEdge n u w ↔ w = v) ∧ g.isBoundary u = false := by
  obtain ⟨e, hnode, -, hshape⟩ := h
  have hs : g.shape? u = some e.shape := shape?_of_node? hnode
  have hedge : ∀ w, g.FirstEdge n u w ↔ w ∈ e.shape.firsts n.isNullable := by
    intro w
    rw [FirstEdge, Walk.Edge, firsts?, hs]
    simp
  rcases hshape with hshape | ⟨mode, hshape, -⟩
  · exact ⟨fun w => by rw [hedge, hshape]; exact List.mem_singleton,
      by rw [isBoundary, hs, hshape]; rfl⟩
  · exact ⟨fun w => by rw [hedge, hshape]; exact List.mem_singleton,
      by rw [isBoundary, hs, hshape]; rfl⟩

theorem DescribedBy.bareEdge (h : g.DescribedBy u v) : g.BareEdge n u v :=
  ⟨((h.bare n).1 v).mpr rfl, (h.bare n).2⟩

/-- An expression has a description if no operand on the way to it describes itself. -/
theorem describe_ok (hn : g.nullability = .ok n)
    (hacyclic : ∀ v, ReflTransGen g.DescribedBy id v → ¬ TransGen g.DescribedBy v v)
    (hid : id < g.size) : ∃ description, g.describe id = .ok description := by
  -- a chain of operands has fewer steps than there are ids ahead of its first expression
  have hchain : ∀ steps u, ReflTransGen g.DescribedBy id u → u < g.size →
      #(ahead g.DescribedBy g.size u) < steps →
      ∃ description, g.describeWithin steps u = .ok description := by
    intro steps
    induction steps with
    | zero => exact fun _ _ _ hahead => absurd hahead (Nat.not_lt_zero _)
    | succ steps ih =>
        intro id hreach hid hahead
        obtain ⟨⟨name, shape, flags⟩, hnode⟩ := node?_of_lt_size hid
        have hoperand : ∀ operand, g.DescribedBy id operand → operand ∈ shape.children →
            ∃ description, g.describeWithin steps operand = .ok description := by
          intro operand hdescribed hchild
          have hlt := child_lt_size hn (shape?_of_node? hnode) hchild
          have hbehind := hreach.tail hdescribed
          have hfalls := card_ahead_lt (hacyclic operand hbehind) hlt hdescribed
          exact ih operand hbehind hlt (by omega)
        simp only [describeWithin, hnode]
        cases name with
        | some name => exact ⟨name, rfl⟩
        | none =>
            cases shape with
            | token operand =>
                exact hoperand operand ⟨_, hnode, rfl, Or.inl rfl⟩ (List.mem_singleton_self _)
            | capture operand mode =>
                cases haccessor : mode.accessor with
                | some accessor => exact ⟨accessor, by simp only [haccessor]⟩
                | none =>
                    simp only [haccessor]
                    exact hoperand operand ⟨_, hnode, rfl, Or.inr ⟨mode, rfl, haccessor⟩⟩
                      (List.mem_singleton_self _)
            | _ => exact ⟨_, rfl⟩
  have hfew := (card_ahead_lt_size (hacyclic id .refl) hid).trans (Nat.lt_succ_self _)
  exact hchain _ id .refl hid hfew

/-- Where every cycle of first positions goes through a boundary, everything has a description. -/
theorem Guarded.describes {root : ExprId} (h : g.Guarded n root) (id : ExprId) (hid : id < g.size) :
    ∃ description, g.describe id = .ok description := by
  refine describe_ok h.nullability (fun v _ hcycle => ?_) hid
  have hbare : TransGen (g.BareEdge n) v v :=
    TransGen.mono (fun _ _ hdescribed => hdescribed.bareEdge) _ _ hcycle
  exact cycles_broken_iff.mp h.cycles v hbare

/-! ## Effort -/

/-- Boundaries that have no seed at a position. -/
def unseeded (g : Grammar) (seeds : Seeds ExactDigest) (p : Nat) : Finset ExprId :=
  {id ∈ g.boundaries | (seeds.get? { expr := id, position := p }).isNone = true}

/-- The nesting at one position. -/
def span (g : Grammar) : Nat :=
  (#g.boundaries + 1) * (g.size + 1)

/-- The nesting below a match of `id` at a position of a text with so many characters. -/
noncomputable def effort (g : Grammar) (n : Nullability) (length : Nat) (seeds : Seeds ExactDigest)
    (id : ExprId) (p : Nat) : Nat :=
  (length - p) * g.span + #(g.unseeded seeds p) * (g.size + 1) + g.rank n id

variable {seeds seeds' : Seeds ExactDigest} {length p q : Nat}

/-- What is needed at one position. -/
theorem local_lt_span (hacyclic : ∀ v, ¬ TransGen (g.BareEdge n) v v) (hid : id < g.size) :
    #(g.unseeded seeds p) * (g.size + 1) + g.rank n id < g.span := by
  have hrank := rank_lt_size hacyclic hid
  have hunseeded : #(g.unseeded seeds p) ≤ #g.boundaries := card_le_card (filter_subset _ _)
  have hproduct := Nat.mul_le_mul_right (g.size + 1) hunseeded
  rw [span, Nat.add_mul]
  omega

theorem effort_lt (hacyclic : ∀ v, ¬ TransGen (g.BareEdge n) v v) (hid : id < g.size) :
    g.effort n length seeds id p < (length + 1) * g.span := by
  have hlocal : #(g.unseeded seeds p) * (g.size + 1) + g.rank n id < g.span :=
    local_lt_span hacyclic hid
  have hproduct : (length - p) * g.span ≤ length * g.span :=
    Nat.mul_le_mul_right _ (Nat.sub_le length p)
  rw [effort, Nat.add_mul]
  omega

/-- A child where its parent began, unless the parent is a boundary. -/
theorem effort_first (hacyclic : ∀ v, ¬ TransGen (g.BareEdge n) v v) (hchild : child < g.size)
    (h : g.BareEdge n id child) :
    g.effort n length seeds child p < g.effort n length seeds id p := by
  have hrank := rank_lt hacyclic hchild h
  rw [effort, effort]
  omega

/-- A child where a boundary began, which has left a seed. -/
theorem effort_seeded (hacyclic : ∀ v, ¬ TransGen (g.BareEdge n) v v) (hchild : child < g.size)
    (hid : id ∈ g.unseeded seeds p) (hseeded : id ∉ g.unseeded seeds' p)
    (hkept : g.unseeded seeds' p ⊆ g.unseeded seeds p) :
    g.effort n length seeds' child p < g.effort n length seeds id p := by
  have hrank := rank_lt_size hacyclic hchild
  have hfewer : #(g.unseeded seeds' p) < #(g.unseeded seeds p) :=
    card_lt_card ((ssubset_iff_of_subset hkept).mpr ⟨id, hid, hseeded⟩)
  have hproduct := Nat.mul_le_mul_right (g.size + 1) hfewer
  rw [Nat.succ_mul] at hproduct
  rw [effort, effort]
  omega

/-- A child farther on. -/
theorem effort_later (hacyclic : ∀ v, ¬ TransGen (g.BareEdge n) v v) (hchild : child < g.size)
    (hpq : p < q) (hq : q ≤ length) :
    g.effort n length seeds' child q < g.effort n length seeds id p := by
  have hlocal : #(g.unseeded seeds' q) * (g.size + 1) + g.rank n child < g.span :=
    local_lt_span hacyclic hchild
  have hproduct : (length - q + 1) * g.span ≤ (length - p) * g.span :=
    Nat.mul_le_mul_right _ (by omega)
  rw [Nat.add_mul] at hproduct
  rw [effort, effort]
  omega

end Grammar

end Packrat
