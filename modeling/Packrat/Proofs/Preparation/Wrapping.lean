import Packrat.Proofs.Preparation.Resolution

/-! # Nodes moved behind boundaries

    Breaking left recursion moves some nodes to fresh ids and leaves a boundary around each in its
    place (`Wrapped`).  A boundary is nullable exactly when what it is around is, so nullability of
    the old ids stays as it was (`Wrapped.nullability_ok`), and with it which children stand in first
    position.  No edge leads to a reference if none did (`Wrapped.resolved`). -/

namespace Packrat

namespace Grammar

variable {g g' g₁ g₂ : Grammar} {inner : ExprId → Option ExprId} {n n' : Nullability}
  {x y i : ExprId}

/-- Nodes with an inner id were moved there, and a boundary was left in their place.  The other
    nodes, the rules, the root and the whitespace are as before. -/
structure Wrapped (g g' : Grammar) (inner : ExprId → Option ExprId) : Prop where
  grows : g.size ≤ g'.size
  plain : ∀ x < g.size, inner x = none → g'.shape? x = g.shape? x
  wrapper : ∀ x i, inner x = some i →
    ∃ leftAssociative, g'.shape? x = some (.leftRecursive i leftAssociative)
  moved : ∀ x i, inner x = some i → g'.shape? i = g.shape? x
  old : ∀ x i, inner x = some i → x < g.size
  fresh : ∀ x i, inner x = some i → g.size ≤ i
  onto : ∀ i < g'.size, g.size ≤ i → ∃ x, inner x = some i
  injective : ∀ x y i, inner x = some i → inner y = some i → x = y
  root : g'.root = g.root
  rules : g'.rules = g.rules
  whitespace : g'.whitespace = g.whitespace

/-! ## Wrapping -/

theorem wrapInPlace_ok {wrap : ExprId → Shape ExprId} (h : wrapInPlace x wrap g = .ok i g') :
    i = g.size ∧ g'.size = g.size + 1 ∧
      (∃ s, g.shape? x = some s ∧ g'.shape? g.size = some s) ∧
      g'.shape? x = some (wrap g.size) ∧
      (∀ y < g.size, y ≠ x → g'.shape? y = g.shape? y) ∧
      g'.root = g.root ∧ g'.rules = g.rules ∧ g'.whitespace = g.whitespace := by
  rw [wrapInPlace] at h
  split at h
  · cases h
  · rename_i e hnode
    cases h
    have hx : x < g.nodes.size := lt_size_of_shape? (shape?_of_node? hnode)
    refine ⟨rfl, by simp [size], ⟨e.shape, shape?_of_node? hnode, ?_⟩, ?_, ?_, rfl, rfl, rfl⟩
    · simp [shape?, node?, size, Expr.ofShape, Nat.ne_of_lt hx]
    · simp [shape?, node?, size, Nat.lt_succ_of_lt hx]
    · intro y hy hne
      rw [size] at hy
      simp [shape?, node?, Ne.symm hne, Array.getElem?_push, Nat.ne_of_lt hy]

namespace Wrapped

theorem refl (g : Grammar) : Wrapped g g fun _ => none where
  grows := le_rfl
  plain := fun _ _ _ => rfl
  wrapper := fun _ _ h => by cases h
  moved := fun _ _ h => by cases h
  old := fun _ _ h => by cases h
  fresh := fun _ _ h => by cases h
  onto := fun i hi hold => absurd hi (Nat.not_lt.mpr hold)
  injective := fun _ _ _ h => by cases h
  root := rfl
  rules := rfl
  whitespace := rfl

theorem lt_size (h : Wrapped g g' inner) (hx : inner x = some i) : i < g'.size := by
  obtain ⟨e, hnode⟩ := node?_of_lt_size (h.old x i hx)
  exact lt_size_of_shape? ((h.moved x i hx).trans (shape?_of_node? hnode))

/-- One more node is wrapped. -/
theorem wrap {leftAssociative : Bool} (h : Wrapped g g₁ inner) (hx : x < g.size)
    (hplain : inner x = none) (hwrap : wrapInPlace x (.leftRecursive · leftAssociative) g₁ = .ok i g₂) :
    Wrapped g g₂ (Function.update inner x (some i)) := by
  obtain ⟨rfl, hsize, ⟨s, hs, hmoved⟩, hwrapper, hothers, hroot, hrules, hwhitespace⟩ :=
    wrapInPlace_ok hwrap
  have hinner : ∀ y j, Function.update inner x (some g₁.size) y = some j →
      y = x ∧ j = g₁.size ∨ y ≠ x ∧ inner y = some j := by
    intro y j hy
    by_cases hyx : y = x
    · subst hyx
      rw [Function.update_self] at hy
      exact Or.inl ⟨rfl, (Option.some.inj hy).symm⟩
    · rw [Function.update_of_ne hyx] at hy
      exact Or.inr ⟨hyx, hy⟩
  have hgrown : g.size < g₂.size := by
    rw [hsize]
    exact Nat.lt_succ_of_le h.grows
  refine
    { grows := hgrown.le
      plain := ?_
      wrapper := ?_
      moved := ?_
      old := ?_
      fresh := ?_
      onto := ?_
      injective := ?_
      root := hroot.trans h.root
      rules := hrules.trans h.rules
      whitespace := hwhitespace.trans h.whitespace }
  · intro y hy hnone
    by_cases hyx : y = x
    · subst hyx
      rw [Function.update_self] at hnone
      cases hnone
    · rw [Function.update_of_ne hyx] at hnone
      rw [hothers y (lt_of_lt_of_le hy h.grows) hyx, h.plain y hy hnone]
  · intro y j hy
    rcases hinner y j hy with ⟨rfl, rfl⟩ | ⟨hyx, hy⟩
    · exact ⟨leftAssociative, hwrapper⟩
    · obtain ⟨a, ha⟩ := h.wrapper y j hy
      exact ⟨a, (hothers y (lt_of_lt_of_le (h.old y j hy) h.grows) hyx).trans ha⟩
  · intro y j hy
    rcases hinner y j hy with ⟨rfl, rfl⟩ | ⟨hyx, hy⟩
    · rw [hmoved, ← h.plain y hx hplain, hs]
    · have hjx : j ≠ x := by
        have hfresh := h.fresh y j hy
        exact (lt_of_lt_of_le hx hfresh).ne'
      rw [hothers j (h.lt_size hy) hjx, h.moved y j hy]
  · intro y j hy
    rcases hinner y j hy with ⟨rfl, rfl⟩ | ⟨-, hy⟩
    · exact hx
    · exact h.old y j hy
  · intro y j hy
    rcases hinner y j hy with ⟨rfl, rfl⟩ | ⟨-, hy⟩
    · exact h.grows
    · exact h.fresh y j hy
  · intro j hj hnew
    by_cases hlast : j = g₁.size
    · subst hlast
      exact ⟨x, Function.update_self ..⟩
    · rw [hsize] at hj
      obtain ⟨y, hy⟩ := h.onto j (by omega) hnew
      refine ⟨y, ?_⟩
      have hyx : y ≠ x := by
        rintro rfl
        cases hplain.symm.trans hy
      rw [Function.update_of_ne hyx, hy]
  · intro y z j hy hz
    rcases hinner y j hy with ⟨rfl, rfl⟩ | ⟨-, hy'⟩
    · rcases hinner z _ hz with ⟨rfl, -⟩ | ⟨-, hz'⟩
      · rfl
      · exact absurd (h.lt_size hz') (Nat.lt_irrefl _)
    · rcases hinner z j hz with ⟨rfl, rfl⟩ | ⟨-, hz'⟩
      · exact absurd (h.lt_size hy') (Nat.lt_irrefl _)
      · exact h.injective y z j hy' hz'

/-- All of a list are wrapped. -/
theorem wrapAll {leftAssociative : Bool} {selected : List ExprId} (h : Wrapped g g₁ inner)
    (hnodup : selected.Nodup) (hselected : ∀ x ∈ selected, x < g.size ∧ inner x = none)
    (hrun : wrapAll leftAssociative selected g₁ = .ok () g₂) :
    ∃ inner', Wrapped g g₂ inner' ∧
      ∀ x, (inner' x).isSome ↔ (inner x).isSome ∨ x ∈ selected := by
  induction selected generalizing g₁ inner with
  | nil =>
      cases hrun
      exact ⟨inner, h, fun x => by simp⟩
  | cons id rest ih =>
      obtain ⟨hid, hrest⟩ := List.forall_mem_cons.mp hselected
      obtain ⟨hnew, hnodup⟩ := List.nodup_cons.mp hnodup
      obtain ⟨i, g₃, hwrap, hrun⟩ := Edit.bind_ok hrun
      have hselected' : ∀ x ∈ rest, x < g.size ∧ Function.update inner id (some i) x = none := by
        intro x hx
        have hne : x ≠ id := fun heq => hnew (heq ▸ hx)
        rw [Function.update_of_ne hne]
        exact hrest x hx
      obtain ⟨inner', h', hdomain⟩ := ih (h.wrap hid.1 hid.2 hwrap) hnodup hselected' hrun
      refine ⟨inner', h', fun x => ?_⟩
      rw [hdomain, List.mem_cons]
      by_cases hx : x = id
      · subst hx
        simp
      · rw [Function.update_of_ne hx]
        simp [hx]

/-! ## Children -/

/-- A node is one that was there, a boundary around a moved node, or a moved node. -/
theorem cases (h : Wrapped g g' inner) (hs : g'.shape? x = some s) :
    (x < g.size ∧ inner x = none ∧ g.shape? x = some s) ∨
      (∃ i leftAssociative, inner x = some i ∧ s = .leftRecursive i leftAssociative) ∨
      ∃ y, inner y = some x ∧ g.shape? y = some s := by
  have hx : x < g'.size := lt_size_of_shape? hs
  by_cases hold : x < g.size
  · cases hinner : inner x with
    | none => exact Or.inl ⟨hold, rfl, (h.plain x hold hinner).symm.trans hs⟩
    | some i =>
        obtain ⟨a, ha⟩ := h.wrapper x i hinner
        exact Or.inr (Or.inl ⟨i, a, rfl, Option.some.inj (hs.symm.trans ha)⟩)
  · obtain ⟨y, hy⟩ := h.onto x hx (Nat.not_lt.mp hold)
    exact Or.inr (Or.inr ⟨y, hy, (h.moved y x hy).symm.trans hs⟩)

theorem closed (h : Wrapped g g' inner)
    (hclosed : ∀ u s, g.shape? u = some s → ∀ v ∈ s.children, v < g.size) :
    ∀ u s, g'.shape? u = some s → ∀ v ∈ s.children, v < g'.size := by
  intro u s hs v hv
  rcases h.cases hs with ⟨-, -, hs⟩ | ⟨i, a, hi, rfl⟩ | ⟨y, -, hs⟩
  · exact lt_of_lt_of_le (hclosed u s hs v hv) h.grows
  · cases List.mem_singleton.mp hv
    exact h.lt_size hi
  · exact lt_of_lt_of_le (hclosed y s hs v hv) h.grows

/-- No reference was wrapped, so no edge leads to one if none did. -/
theorem resolved (h : Wrapped g g' inner)
    (hclosed : ∀ u s, g.shape? u = some s → ∀ v ∈ s.children, v < g.size)
    (hselected : ∀ x i, inner x = some i → g.isReference x = false) (hresolved : g.Resolved) :
    g'.Resolved := by
  have hold : ∀ v < g.size, g.isReference v = false → g'.isReference v = false := by
    intro v hv href
    cases hinner : inner v with
    | none =>
        rw [isReference, h.plain v hv hinner]
        exact href
    | some i =>
        obtain ⟨a, ha⟩ := h.wrapper v i hinner
        rw [isReference, ha]
        rfl
  intro u s hs v hv
  rcases h.cases hs with ⟨-, -, hs⟩ | ⟨i, a, hi, rfl⟩ | ⟨y, -, hs⟩
  · exact hold v (hclosed u s hs v hv) (hresolved u s hs v hv)
  · cases List.mem_singleton.mp hv
    rw [isReference, h.moved u v hi]
    exact hselected u v hi
  · exact hold v (hclosed y s hs v hv) (hresolved y s hs v hv)

end Wrapped

/-! ## Nullability -/

namespace Wrapped

/-- Whatever has a derivation in the new grammar is nullable in the old one, where a moved node
    stands for the one that it was. -/
theorem isNullable_of_new (h : Wrapped g g' inner) (hn : g.nullability = .ok n)
    (hd : g'.Derivable y) :
    (y < g.size → n.isNullable y = true) ∧ ∀ x, inner x = some y → n.isNullable x = true := by
  refine hd.induction_holds (motive := fun y => (y < g.size → n.isNullable y = true) ∧
    ∀ x, inner x = some y → n.isNullable x = true) fun y s' p hs' ih hholds => ?_
  have hshape : ∀ {z}, g.shape? z = some s' → n.isNullable z = true := by
    intro z hs
    rw [nullability_holds hn hs]
    exact Shape.holds_of_children (fun c hc hp => (ih c hc hp).1 (child_lt_size hn hs hc)) hholds
  refine ⟨fun hy => ?_, fun x hi => hshape ((h.moved x y hi).symm.trans hs')⟩
  cases hinner : inner y with
  | none => exact hshape ((h.plain y hy hinner).symm.trans hs')
  | some i =>
      obtain ⟨a, ha⟩ := h.wrapper y i hinner
      cases hs'.symm.trans ha
      exact (ih i (List.mem_singleton_self i) hholds).2 y hinner

/-- Whatever has a derivation in the old grammar is nullable in the new one. -/
theorem isNullable_of_old (h : Wrapped g g' inner) (hn' : g'.nullability = .ok n')
    (hd : g.Derivable x) : n'.isNullable x = true := by
  refine hd.induction_holds (motive := fun x => n'.isNullable x = true) fun x s p hs ih hholds => ?_
  have hnullable : s.strategy.holds n'.isNullable = true := Shape.holds_of_children ih hholds
  cases hinner : inner x with
  | none =>
      rw [nullability_holds hn' ((h.plain x (lt_size_of_shape? hs) hinner).trans hs)]
      exact hnullable
  | some i =>
      obtain ⟨a, ha⟩ := h.wrapper x i hinner
      rw [nullability_holds hn' ha]
      change n'.isNullable i = true
      rw [nullability_holds hn' ((h.moved x i hinner).trans hs)]
      exact hnullable

/-- Nullability of what was there is as before: a boundary is nullable like the node moved behind
    it. -/
theorem nullability_ok (h : Wrapped g g' inner) (hn : g.nullability = .ok n) :
    ∃ n', g'.nullability = .ok n' ∧ ∀ x < g.size, n'.isNullable x = n.isNullable x := by
  have hclosed : ∀ u s, g.shape? u = some s → ∀ v ∈ s.children, v < g.size :=
    fun u s hs v hv => child_lt_size hn hs hv
  obtain ⟨_, -, -, hn'⟩ := exists_nullability_run (h.closed hclosed)
  refine ⟨_, hn', fun x hx => Bool.eq_iff_iff.mpr ⟨fun hx' => ?_, fun hx' => ?_⟩⟩
  · exact (h.isNullable_of_new hn (((isNullable_iff_derivable hn').2 x).mp hx')).1 hx
  · exact h.isNullable_of_old hn' (((isNullable_iff_derivable hn).2 x).mp hx')

end Wrapped

end Grammar

end Packrat
