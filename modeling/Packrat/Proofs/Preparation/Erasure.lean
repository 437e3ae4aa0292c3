import Packrat.Proofs.Preparation.Selection

/-! # Breaking left recursion adds boundaries and nothing else

    Wrapping one node moves its shape to a fresh id and puts a boundary in its place.  Wrapping nodes
    in turn, each once, the j-th is moved to the j-th fresh id, and all else stays (`Enclosed`).
    Taking the boundaries away again gives the grammar back (`Enclosed.withoutMarkers_eq`). -/

namespace Packrat

theorem Flags.union_defaultFlags_leftRecursive (flags : Flags) (i : ExprId) (a : Bool) :
    flags.union (Shape.leftRecursive i a).defaultFlags = flags := by
  simp [union, Shape.defaultFlags, Shape.isTerminal]

namespace Grammar

variable {g g' g₁ : Grammar} {n : Nullability} {leftAssociative : Bool} {selected : List ExprId}
  {x : ExprId}

/-- The selected nodes were moved to fresh ids, in order and without their names, and boundaries
    stand in their places.  Everything else is as it was. -/
structure Enclosed (g g' : Grammar) (leftAssociative : Bool) (selected : List ExprId) : Prop where
  size : g'.size = g.size + selected.length
  marker : ∀ j x, selected[j]? = some x → ∃ e, g.node? x = some e ∧
    g'.node? x = some { e with shape := .leftRecursive (g.size + j) leftAssociative } ∧
    g'.node? (g.size + j) = some { name := none, shape := e.shape, flags := e.shape.defaultFlags }
  others : ∀ x < g.size, x ∉ selected → g'.node? x = g.node? x
  root : g'.root = g.root
  rules : g'.rules = g.rules
  whitespace : g'.whitespace = g.whitespace

/-! ## Wrapping -/

theorem eq_of_getElem?_singleton {j : Nat} {x y : ExprId} (h : [x][j]? = some y) :
    j = 0 ∧ x = y := by
  rw [List.getElem?_singleton] at h
  split at h
  · exact ⟨‹j = 0›, Option.some.inj h⟩
  · cases h

theorem node?_eq_none (hx : g.size ≤ x) : g.node? x = none :=
  Array.getElem?_eq_none hx

/-- What wrapping one node does. -/
theorem wrapInPlace_of_node (leftAssociative : Bool) {e : Expr} (he : g.node? x = some e) :
    ∃ g', wrapInPlace x (.leftRecursive · leftAssociative) g = .ok g.size g' ∧
      Enclosed g g' leftAssociative [x] := by
  have hx : x < g.nodes.size := lt_size_of_shape? (shape?_of_node? he)
  have hrun : wrapInPlace x (.leftRecursive · leftAssociative) g = .ok g.size
      { g with
        nodes := (g.nodes.push (.ofShape e.shape)).setIfInBounds x
          { e with shape := .leftRecursive g.size leftAssociative }
        prepared := false } := by
    rw [wrapInPlace, he]
    simp only [push, Flags.union_defaultFlags_leftRecursive]
  refine ⟨_, hrun, by simp [size], ?_, ?_, rfl, rfl, rfl⟩
  · intro j y hy
    obtain ⟨rfl, rfl⟩ := eq_of_getElem?_singleton hy
    refine ⟨e, he, ?_, ?_⟩
    · simp [node?, Nat.lt_succ_of_lt hx]
    · simp [node?, size, Expr.ofShape, Nat.ne_of_lt hx]
  · intro y hy hne
    rw [List.mem_singleton] at hne
    rw [size] at hy
    simp [node?, Ne.symm hne, Array.getElem?_push, Nat.ne_of_lt hy]

namespace Enclosed

theorem nil (g : Grammar) (leftAssociative : Bool) : Enclosed g g leftAssociative [] where
  size := rfl
  marker := by simp
  others := fun _ _ _ => rfl
  root := rfl
  rules := rfl
  whitespace := rfl

/-- A node at a fresh id stays when an old node is wrapped, and an old one that is not wrapped. -/
theorem concat (h : Enclosed g g₁ leftAssociative selected) (hx : x < g.size)
    (hnew : x ∉ selected) (h' : Enclosed g₁ g' leftAssociative [x]) :
    Enclosed g g' leftAssociative (selected ++ [x]) where
  size := by rw [h'.size, h.size, List.length_append, Nat.add_assoc]
  marker := by
    have hgrows : g.size ≤ g₁.size := h.size ▸ Nat.le_add_right ..
    have hkept : ∀ y < g₁.size, y ≠ x → g'.node? y = g₁.node? y := fun y hy hne =>
      h'.others y hy fun hmem => hne (List.mem_singleton.mp hmem)
    intro j y hy
    rw [List.getElem?_append] at hy
    split at hy
    · rename_i hj
      obtain ⟨e, hnode, hwrapper, hmoved⟩ := h.marker j y hy
      have hyx : y ≠ x := fun heq => hnew (heq ▸ List.mem_of_getElem? hy)
      have hylt : y < g.size := lt_size_of_shape? (shape?_of_node? hnode)
      refine ⟨e, hnode, ?_, ?_⟩
      · rw [hkept y (hylt.trans_le hgrows) hyx, hwrapper]
      · have hjx : g.size + j ≠ x := (hx.trans_le (Nat.le_add_right ..)).ne'
        rw [hkept (g.size + j) (h.size ▸ Nat.add_lt_add_left hj _) hjx, hmoved]
    · rename_i hj
      obtain ⟨hlast, rfl⟩ := eq_of_getElem?_singleton hy
      obtain rfl : j = selected.length :=
        Nat.le_antisymm (Nat.sub_eq_zero_iff_le.mp hlast) (Nat.not_lt.mp hj)
      obtain ⟨e, hnode, hwrapper, hmoved⟩ := h'.marker 0 x rfl
      rw [h.size, Nat.add_zero] at hwrapper hmoved
      refine ⟨e, ?_, ?_, hmoved⟩
      · rw [← h.others x hx hnew, hnode]
      · simpa using hwrapper
  others := by
    intro y hy hmem
    rw [List.mem_append, List.mem_singleton, not_or] at hmem
    have hgrown : y < g₁.size := h.size ▸ Nat.lt_add_right _ hy
    rw [h'.others y hgrown fun hin => hmem.2 (List.mem_singleton.mp hin), h.others y hy hmem.1]
  root := h'.root.trans h.root
  rules := h'.rules.trans h.rules
  whitespace := h'.whitespace.trans h.whitespace

/-- Wrapping nodes in turn succeeds. -/
theorem wrapAll {rest : List ExprId} (h : Enclosed g g₁ leftAssociative selected)
    (hnodup : (selected ++ rest).Nodup) (hinside : ∀ x ∈ rest, x < g.size) :
    ∃ g', wrapAll leftAssociative rest g₁ = .ok () g' ∧
      Enclosed g g' leftAssociative (selected ++ rest) := by
  induction rest generalizing g₁ selected with
  | nil =>
      rw [List.append_nil]
      exact ⟨g₁, rfl, h⟩
  | cons x rest ih =>
      obtain ⟨hx, hrest⟩ := List.forall_mem_cons.mp hinside
      have hnew : x ∉ selected := fun hmem =>
        List.disjoint_of_nodup_append hnodup hmem (List.mem_cons_self ..)
      obtain ⟨e, he⟩ := node?_of_lt_size (hx.trans_le (h.size ▸ Nat.le_add_right ..) : x < g₁.size)
      obtain ⟨g₂, hwrap, hone⟩ := wrapInPlace_of_node leftAssociative he
      rw [List.append_cons] at hnodup ⊢
      obtain ⟨g', hall, henclosed⟩ := ih (h.concat hx hnew hone) hnodup hrest
      refine ⟨g', ?_, henclosed⟩
      rw [Grammar.wrapAll]
      exact (Edit.bind_of_ok hwrap).trans hall

end Enclosed

/-! ## Taking the boundaries away -/

/-- A boundary around a node behind the first `size` gives way to the shape of that node. -/
def withoutMarker (g : Grammar) (size : Nat) (e : Expr) : Expr :=
  match e.shape with
  | .leftRecursive inner _ =>
      if size ≤ inner then { e with shape := (g.shape? inner).getD e.shape } else e
  | _ => e

/-- The first `size` nodes, without boundaries around others. -/
def withoutMarkers (g : Grammar) (size : Nat) : Grammar :=
  { g with nodes := ((g.nodes.toList.take size).map (g.withoutMarker size)).toArray }

theorem node?_withoutMarkers (g : Grammar) (size : Nat) (x : ExprId) :
    (g.withoutMarkers size).node? x =
      if x < size then (g.node? x).map (g.withoutMarker size) else none := by
  rw [node?, withoutMarkers, List.getElem?_toArray, List.getElem?_map, List.getElem?_take]
  split
  · rw [Array.getElem?_toList]
    rfl
  · rfl

/-- A node whose children are among the first `size` is no boundary around another. -/
theorem withoutMarker_eq_self {size : Nat} {e : Expr} (h : ∀ c ∈ e.shape.children, c < size) :
    g.withoutMarker size e = e := by
  rw [withoutMarker]
  split
  · rename_i inner a hshape
    rw [hshape] at h
    exact if_neg (Nat.not_le.mpr (h inner (List.mem_singleton_self inner)))
  · rfl

/-- Without the boundaries the grammar is what it was. -/
theorem Enclosed.withoutMarkers_eq (h : Enclosed g g' leftAssociative selected)
    (hclosed : ∀ u s, g.shape? u = some s → ∀ v ∈ s.children, v < g.size) :
    g'.withoutMarkers g.size = { g with prepared := g'.prepared } := by
  have hnodes : (g'.withoutMarkers g.size).nodes = g.nodes := by
    refine Array.ext_getElem? fun x => ?_
    change (g'.withoutMarkers g.size).node? x = g.node? x
    rw [node?_withoutMarkers]
    by_cases hx : x < g.size
    · rw [if_pos hx]
      by_cases hmem : x ∈ selected
      · obtain ⟨j, hj⟩ := List.mem_iff_getElem?.mp hmem
        obtain ⟨e, hnode, hwrapper, hmoved⟩ := h.marker j x hj
        rw [hwrapper, hnode, Option.map_some, withoutMarker]
        simp [shape?, hmoved]
      · obtain ⟨e, he⟩ := node?_of_lt_size hx
        rw [h.others x hx hmem, he, Option.map_some,
          withoutMarker_eq_self (hclosed x e.shape (shape?_of_node? he))]
    · rw [if_neg hx, node?_eq_none (Nat.not_lt.mp hx)]
  calc g'.withoutMarkers g.size
      = { g' with nodes := (g'.withoutMarkers g.size).nodes } := rfl
    _ = { g with prepared := g'.prepared } := by rw [hnodes, h.root, h.rules, h.whitespace]

/-! ## Breaking left recursion -/

/-- The search answers on a grammar with an analysis and all its entry points. -/
theorem exists_detectLeftRecursion (hn : g.nullability = .ok n)
    (hroots : ∀ r ∈ g.root.toList ++ g.ruleIds, r < g.size) :
    ∃ selected, g.detectLeftRecursion n = .ok selected := by
  have hwalk := walkOver_firsts hn fun r hr => by
    rcases List.mem_append.mp hr with hr | hr
    · exact hroots r hr
    · exact List.mem_range.mp hr
  rw [detectLeftRecursion, hwalk]
  exact ⟨_, rfl⟩

/-- What is selected is there. -/
theorem lt_size_of_selected (hn : g.nullability = .ok n)
    (h : g.detectLeftRecursion n = .ok selected) : ∀ x ∈ selected, x < g.size := by
  intro x hx
  obtain ⟨u, hedge⟩ := (detectLeftRecursion_selects h).2 x hx
  obtain ⟨s, hs, hchild⟩ := child_of_firstEdge hedge
  exact child_lt_size hn hs hchild

/-- The search selects distinct nodes on cycles without a boundary, and breaking puts a boundary
    around each of them and changes nothing else. -/
theorem breakLeftRecursion_encloses (hn : g.nullability = .ok n)
    (hroots : ∀ r ∈ g.root.toList ++ g.ruleIds, r < g.size) (options : LeftRecursionOptions) :
    ∃ selected g', g.detectLeftRecursion n = .ok selected ∧ selected.Nodup ∧
      (∀ x ∈ selected, ∃ rest, List.IsChain (g.FirstEdge n) (x :: (rest ++ [x])) ∧
        ∀ b ∈ x :: rest, g.isBoundary b = false) ∧
      breakLeftRecursion n options g = .ok selected g' ∧
      Enclosed g g' options.leftAssociative selected ∧
      g'.withoutMarkers g.size = { g with prepared := g'.prepared } := by
  obtain ⟨selected, hdetect⟩ := exists_detectLeftRecursion hn hroots
  have hnodup := (detectLeftRecursion_selects hdetect).1
  obtain ⟨g', hwrap, henclosed⟩ := (Enclosed.nil g options.leftAssociative).wrapAll hnodup
    (lt_size_of_selected hn hdetect)
  have hclosed : ∀ u s, g.shape? u = some s → ∀ v ∈ s.children, v < g.size :=
    fun u s hs v hv => child_lt_size hn hs hv
  refine ⟨selected, g', hdetect, hnodup, detectLeftRecursion_cycles hdetect, ?_, henclosed,
    henclosed.withoutMarkers_eq hclosed⟩
  rw [breakLeftRecursion]
  refine (Edit.bind_of_ok (Edit.reading_of_ok hdetect)).trans ?_
  exact (Edit.bind_of_ok hwrap).trans rfl

/-- A named choice that is left recursive through a sequence and through itself. -/
def twiceRecursive : Grammar :=
  { nodes := #[{ name := some "e", shape := .choice [1, 0, 2], flags := .rule },
      .ofShape (.sequence [0, 2]), .ofShape (.literal "n")]
    rules := [("e", 0)]
    root := some 0 }

theorem breakLeftRecursion_encloses_twiceRecursive :
    twiceRecursive.nullability = .ok ⟨#[false, false, false]⟩ ∧
      (∀ r ∈ twiceRecursive.root.toList ++ twiceRecursive.ruleIds, r < twiceRecursive.size) ∧
      ∃ g', breakLeftRecursion ⟨#[false, false, false]⟩ { leftAssociative := true }
          twiceRecursive = .ok [0] g' ∧
        g'.node? 0 = some ⟨some "e", .leftRecursive 3 true, .rule⟩ ∧
        g'.node? 3 = some ⟨none, .choice [1, 0, 2], {}⟩ ∧
        g'.withoutMarkers 3 = { twiceRecursive with prepared := g'.prepared } := by
  have hn : twiceRecursive.nullability = .ok ⟨#[false, false, false]⟩ := by cbv
  have hroots : ∀ r ∈ twiceRecursive.root.toList ++ twiceRecursive.ruleIds,
      r < twiceRecursive.size := by decide
  refine ⟨hn, hroots, ?_⟩
  obtain ⟨selected, g', hdetect, -, -, hbreak, henclosed, herased⟩ :=
    breakLeftRecursion_encloses hn hroots { leftAssociative := true }
  have hselected : twiceRecursive.detectLeftRecursion ⟨#[false, false, false]⟩ = .ok [0] := by cbv
  obtain rfl : [0] = selected := Except.ok.inj (hselected.symm.trans hdetect)
  obtain ⟨e, hnode, hwrapper, hmoved⟩ := henclosed.marker 0 0 rfl
  cases hnode
  exact ⟨g', hbreak, hwrapper, hmoved, herased⟩

end Grammar

end Packrat
