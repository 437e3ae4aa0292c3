import Packrat.Proofs.WalkReach

/-! # A second search for cycles selects nothing

    The nodes that a search selects are split: the outer one becomes a boundary that leads to the
    inner one alone, and the inner one takes over the edges (`Splits`).  A second walk goes the same
    way as the first, on a path that is longer by the outer nodes on it (`Mirrors`).  Where the first
    search found a boundary within a cycle, so does the second; where it selected the node on which
    the cycle closes, that node is a boundary from the start of the second walk. -/

namespace Packrat

variable {isBoundary isBoundary' : ExprId → Bool}

namespace Detection

variable {d d' : Detection} {x : ExprId} {events : List Walk.Event}

/-- An event selects nothing, or it closes a cycle and selects the node on which it closes, once. -/
theorem selected_observe (isBoundary : ExprId → Bool) (d : Detection) (e : Walk.Event) :
    (d.observe isBoundary e).selected = d.selected ∨
      ∃ u x k, e = .cutoff u x k ∧ x ∉ d.selected ∧
        (d.observe isBoundary e).selected = x :: d.selected := by
  cases e with
  | enter id depth =>
      left
      rw [observe]
      split <;> rfl
  | cutoff parent child k =>
      rw [observe, close]
      split
      · exact .inl rfl
      · dsimp only
        split
        · exact .inl rfl
        · rename_i hnew
          exact .inr ⟨parent, child, k, rfl, fun hmem => hnew (List.contains_iff_mem.mpr hmem), rfl⟩
  | missing | edge | edgeDone | leave => exact .inl rfl

/-- Whatever is selected stays selected. -/
theorem mem_selected_observe {e : Walk.Event} (h : x ∈ d.selected) :
    x ∈ (d.observe isBoundary e).selected := by
  rcases selected_observe isBoundary d e with heq | ⟨u, y, k, -, -, heq⟩
  · exact heq ▸ h
  · exact heq ▸ List.mem_cons_of_mem _ h

theorem mem_selected_foldl (h : x ∈ d.selected) :
    x ∈ (events.foldl (observe isBoundary) d).selected := by
  induction events generalizing d with
  | nil => exact h
  | cons e rest ih => exact ih (mem_selected_observe h)

/-- Only the end of an edge that closes a cycle is selected. -/
theorem mem_cutoff_of_selected (h : x ∈ (events.foldl (observe isBoundary) d).selected) :
    x ∈ d.selected ∨ ∃ u k, .cutoff u x k ∈ events := by
  induction events generalizing d with
  | nil => exact Or.inl h
  | cons e rest ih =>
      rcases ih h with hfirst | ⟨u, k, hmem⟩
      · rcases selected_observe isBoundary d e with heq | ⟨u, y, k, rfl, -, heq⟩
        · exact Or.inl (heq ▸ hfirst)
        · rw [heq] at hfirst
          rcases List.mem_cons.mp hfirst with rfl | hfirst
          · exact Or.inr ⟨u, k, List.mem_cons_self ..⟩
          · exact Or.inl hfirst
      · exact Or.inr ⟨u, k, List.mem_cons_of_mem _ hmem⟩

theorem nodup_selected_foldl (h : d.selected.Nodup) :
    (events.foldl (observe isBoundary) d).selected.Nodup := by
  induction events generalizing d with
  | nil => exact h
  | cons e rest ih =>
      refine ih ?_
      rcases selected_observe isBoundary d e with heq | ⟨u, y, k, -, hnew, heq⟩
      · exact heq ▸ h
      · exact heq ▸ List.nodup_cons.mpr ⟨hnew, h⟩

theorem selected_enter (id : ExprId) (depth : Nat) :
    (d.observe isBoundary (.enter id depth)).selected = d.selected := by
  rw [observe]
  split <;> rfl

/-- Entering a boundary keeps its depth. -/
theorem mem_boundaries_enter {id : ExprId} {depth k : Nat} :
    k ∈ (d.observe isBoundary (.enter id depth)).boundaries ↔
      isBoundary id = true ∧ k = depth ∨ k ∈ d.boundaries := by
  rw [observe]
  split
  · rename_i hboundary
    rw [addBoundary, List.mem_cons, and_iff_right hboundary]
  · rename_i hboundary
    exact ⟨.inr, fun h => h.resolve_left fun hentered => hboundary hentered.1⟩

/-- Leaving a node drops its depth. -/
theorem mem_boundaries_leave {id : ExprId} {depth k : Nat} {edges : List (ExprId × Bool)} :
    k ∈ (d.observe isBoundary (.leave id depth edges)).boundaries ↔
      k ∈ d.boundaries ∧ k ≠ depth := by
  simp [observe]

/-- A boundary at the depth at which a cycle closes, or deeper, breaks it. -/
theorem close_broken {id : ExprId} {j k : Nat} (hj : j ∈ d.boundaries) (hkj : k ≤ j) :
    d.close id k = d := by
  rw [close, if_pos]
  simpa using ⟨j, hj, hkj⟩

end Detection

namespace Walk

variable {graph graph' : Graph} {inner : ExprId → Option ExprId} {marks marks' : Marks}
  {d d' : Detection} {depth : Nat} {φ : Nat → Nat} {x y i : ExprId} {k : Nat}

/-! ## The path -/

theorem followEdges_onPath {visitChild : Marks → ExprId → Step}
    (hvisit : ∀ marks id, ∀ y k, OnPath (visitChild marks id).marks y k ↔ OnPath marks y k)
    {parent : ExprId} {index : Nat} {children : List ExprId} :
    OnPath (followEdges visitChild parent index children marks).marks y k ↔ OnPath marks y k := by
  induction children generalizing index marks with
  | nil => exact Iff.rfl
  | cons child rest ih => exact ih.trans (hvisit marks child y k)

/-- What is on the path after a visit was so before, and the reverse. -/
theorem visit_onPath {bound : Nat} :
    OnPath (visit graph bound depth marks x).marks y k ↔ OnPath marks y k := by
  induction bound generalizing depth marks x y k with
  | zero => exact Iff.rfl
  | succ bound ih =>
      rw [visit]
      cases hx : marks.lookup x with
      | some mark => cases mark <;> exact Iff.rfl
      | none =>
          dsimp only
          by_cases hyx : y = x
          · subst hyx
            simp [OnPath, hx]
          · rw [onPath_cons_ne hyx, followEdges_onPath fun _ _ _ _ => ih, onPath_cons_ne hyx]

/-- The visit of a node that was not visited before. -/
theorem visit_new {bound : Nat} {children : List ExprId} (hnew : marks.lookup x = none)
    (hchildren : graph x = some children) :
    visit graph (bound + 1) depth marks x =
      let followed :=
        followEdges (visit graph bound (depth + 1)) x 0 children ((x, .onPath depth) :: marks)
      { closes := false
        events := .enter x depth :: (followed.events ++ [.leave x depth followed.edges])
        marks := (x, .done) :: followed.marks } := by
  simp [visit, hnew, hchildren]

/-! ## Split nodes -/

/-- Nodes with an inner one are split: they are boundaries and lead to the inner node alone, which
    has their edges. -/
structure Splits (graph graph' : Graph) (isBoundary isBoundary' : ExprId → Bool)
    (inner : ExprId → Option ExprId) : Prop where
  closed : ∀ u v, Edge graph u v → (graph v).isSome
  plain : ∀ x, (graph x).isSome → inner x = none → graph' x = graph x
  outer : ∀ x i, inner x = some i → graph' x = some [i]
  moved : ∀ x i, inner x = some i → graph' i = graph x
  fresh : ∀ x i, inner x = some i → graph i = none
  injective : ∀ x y i, inner x = some i → inner y = some i → x = y
  breaks : ∀ x i, inner x = some i → isBoundary' x = true
  boundary : ∀ x, (graph x).isSome → isBoundary x = true → isBoundary' x = true

/-- An inner node is none of those that were there. -/
theorem Splits.inner_ne (h : Splits graph graph' isBoundary isBoundary' inner)
    (hy : (graph y).isSome) (hi : inner x = some i) : i ≠ y := by
  rintro rfl
  rw [h.fresh x i hi] at hy
  cases hy

/-- Depths on a path sent to depths on a longer one: beyond the end of the path both grow alike. -/
structure Stretches (φ : Nat → Nat) (depth : Nat) : Prop where
  mono : StrictMono φ
  next : ∀ j, depth ≤ j → φ (j + 1) = φ j + 1

/-- The node at a depth is split, and all beyond it is one deeper. -/
def stretch (φ : Nat → Nat) (depth : Nat) : Nat → Nat :=
  fun j => if j ≤ depth then φ j else φ j + 1

theorem stretch_of_le {j : Nat} (h : j ≤ depth) : stretch φ depth j = φ j :=
  if_pos h

theorem Stretches.succ (h : Stretches φ depth) : Stretches φ (depth + 1) where
  mono := h.mono
  next := fun j hj => h.next j (by omega)

theorem Stretches.stretch (h : Stretches φ depth) : Stretches (stretch φ depth) (depth + 1) where
  mono := by
    intro j l hjl
    have hφ := h.mono hjl
    simp only [Walk.stretch]
    split <;> split <;> omega
  next := by
    intro j hj
    have hφ := h.next j (by omega)
    simp only [Walk.stretch]
    split <;> split <;> omega

/-- Two moments of the walks over a graph and over the one with split nodes: `φ` sends the depth of
    a node on the path to its depth on the longer path.  Boundaries are sent to boundaries, and a
    split node on the path is one. -/
structure Mirrors (graph : Graph) (inner : ExprId → Option ExprId) (φ : Nat → Nat) (depth : Nat)
    (marks : Marks) (d : Detection) (marks' : Marks) (d' : Detection) : Prop where
  stretches : Stretches φ depth
  known : ∀ x, (marks.lookup x).isSome → (graph x).isSome
  unvisited : ∀ x, (graph x).isSome → marks.lookup x = none →
    marks'.lookup x = none ∧ ∀ i, inner x = some i → marks'.lookup i = none
  done : ∀ x, Done marks x → Done marks' x ∧ ∀ i, inner x = some i → Done marks' i
  path : ∀ x k, OnPath marks x k → k < depth ∧ OnPath marks' x (φ k)
  broken : ∀ x k, OnPath marks x k → (inner x).isSome → φ k ∈ d'.boundaries
  boundaries : ∀ j ∈ d.boundaries, j < depth ∧ φ j ∈ d'.boundaries
  clear : d'.selected = []

theorem isNone_of_lookup_cons {m : Mark} (h : List.lookup y ((x, m) :: marks) = none) :
    y ≠ x ∧ marks.lookup y = none := by
  rw [lookup_mark_cons] at h
  split at h
  · cases h
  · exact ⟨‹_›, h⟩

namespace Mirrors

variable {φ' : Nat → Nat}

/-- What is marked is in the graph, also when one more of its nodes is marked. -/
theorem known_cons (h : Mirrors graph inner φ depth marks d marks' d') (hx : (graph x).isSome)
    (m : Mark) (y : ExprId) (hy : (List.lookup y ((x, m) :: marks)).isSome) :
    (graph y).isSome := by
  rcases isSome_lookup_cons.mp hy with rfl | hy
  · exact hx
  · exact h.known y hy

/-- When both walks mark a node, the others and their inner nodes stay unvisited. -/
theorem unvisited_cons (h : Mirrors graph inner φ depth marks d marks' d')
    (hsplits : Splits graph graph' isBoundary isBoundary' inner) (hx : (graph x).isSome)
    (m m' : Mark) (y : ExprId) (hy : (graph y).isSome)
    (hnone : List.lookup y ((x, m) :: marks) = none) :
    List.lookup y ((x, m') :: marks') = none ∧
      ∀ i, inner y = some i → List.lookup i ((x, m') :: marks') = none := by
  obtain ⟨hyx, hnone⟩ := isNone_of_lookup_cons hnone
  obtain ⟨hy', hinner⟩ := h.unvisited y hy hnone
  rw [lookup_mark_cons, if_neg hyx]
  refine ⟨hy', fun i hi => ?_⟩
  rw [lookup_mark_cons, if_neg (hsplits.inner_ne hx hi)]
  exact hinner i hi

/-- Both walks enter a node; if it is split, the longer path goes on through the inner node. -/
theorem enter (h : Mirrors graph inner φ depth marks d marks' d')
    (hsplits : Splits graph graph' isBoundary isBoundary' inner) (hx : (graph x).isSome)
    (hnew : marks.lookup x = none) (hstretches : Stretches φ' (depth + 1))
    (hsame : ∀ j ≤ depth, φ' j = φ j) :
    Mirrors graph inner φ' (depth + 1) ((x, .onPath depth) :: marks)
      (d.observe isBoundary (.enter x depth)) ((x, .onPath (φ depth)) :: marks')
      (d'.observe isBoundary' (.enter x (φ depth))) := by
  refine
    { stretches := hstretches
      known := h.known_cons hx _
      unvisited := h.unvisited_cons hsplits hx _ _
      done := ?_
      path := ?_
      broken := ?_
      boundaries := ?_
      clear := (Detection.selected_enter ..).trans h.clear }
  · intro y hy
    have hnew' := (h.unvisited x hx hnew).1
    have hother : ∀ {z}, Done marks' z → Done ((x, .onPath (φ depth)) :: marks') z := by
      intro z hz
      refine (done_cons_ne ?_).mpr hz
      rintro rfl
      cases hnew'.symm.trans hz
    have hyx : y ≠ x := by
      rintro rfl
      rw [Done, lookup_mark_cons, if_pos rfl] at hy
      cases hy
    obtain ⟨hy', hinner⟩ := h.done y ((done_cons_ne hyx).mp hy)
    exact ⟨hother hy', fun i hi => hother (hinner i hi)⟩
  · intro y k hy
    by_cases hyx : y = x
    · subst hyx
      cases onPath_cons_self.mp hy
      rw [hsame depth le_rfl]
      exact ⟨Nat.lt_succ_self depth, onPath_cons_self.mpr rfl⟩
    · obtain ⟨hk, hy'⟩ := h.path y k ((onPath_cons_ne hyx).mp hy)
      rw [hsame k hk.le]
      exact ⟨Nat.lt_succ_of_lt hk, (onPath_cons_ne hyx).mpr hy'⟩
  · intro y k hy hinner
    rw [Detection.mem_boundaries_enter]
    by_cases hyx : y = x
    · subst hyx
      cases onPath_cons_self.mp hy
      obtain ⟨i, hi⟩ := Option.isSome_iff_exists.mp hinner
      exact .inl ⟨hsplits.breaks y i hi, hsame depth le_rfl⟩
    · have hy := (onPath_cons_ne hyx).mp hy
      rw [hsame k (h.path y k hy).1.le]
      exact .inr (h.broken y k hy hinner)
  · intro j hj
    rw [Detection.mem_boundaries_enter]
    rcases Detection.mem_boundaries_enter.mp hj with ⟨hboundary, rfl⟩ | hj
    · exact ⟨Nat.lt_succ_self j, .inl ⟨hsplits.boundary x hx hboundary, hsame j le_rfl⟩⟩
    · obtain ⟨hlt, hj⟩ := h.boundaries j hj
      rw [hsame j hlt.le]
      exact ⟨Nat.lt_succ_of_lt hlt, .inr hj⟩

/-- The inner node of one on the path may be marked in any way. -/
theorem mark_inner (h : Mirrors graph inner φ depth marks d marks' d')
    (hsplits : Splits graph graph' isBoundary isBoundary' inner) (hon : OnPath marks x k)
    (hi : inner x = some i) (m : Mark) :
    Mirrors graph inner φ depth marks d ((i, m) :: marks') d' := by
  have hne : ∀ y, (graph y).isSome → y ≠ i := fun y hy => (hsplits.inner_ne hy hi).symm
  have hinner : ∀ y j, inner y = some j → y ≠ x → j ≠ i := by
    rintro y j hj hyx rfl
    exact hyx (hsplits.injective y x j hj hi)
  refine { h with unvisited := ?_, done := ?_, path := ?_ }
  · intro y hy hnone
    have hyx : y ≠ x := by
      rintro rfl
      cases hnone.symm.trans hon
    obtain ⟨hy', hnew⟩ := h.unvisited y hy hnone
    rw [lookup_mark_cons, if_neg (hne y hy)]
    refine ⟨hy', fun j hj => ?_⟩
    rw [lookup_mark_cons, if_neg (hinner y j hj hyx)]
    exact hnew j hj
  · intro y hy
    have hyx : y ≠ x := by
      rintro rfl
      exact not_done_of_onPath hon hy
    obtain ⟨hy', hdone⟩ := h.done y hy
    have hknown := h.known y (Option.isSome_iff_exists.mpr ⟨_, hy⟩)
    exact ⟨(done_cons_ne (hne y hknown)).mpr hy',
      fun j hj => (done_cons_ne (hinner y j hj hyx)).mpr (hdone j hj)⟩
  · intro y l hy
    obtain ⟨hl, hy'⟩ := h.path y l hy
    have hknown := h.known y (Option.isSome_iff_exists.mpr ⟨_, hy⟩)
    exact ⟨hl, (onPath_cons_ne (hne y hknown)).mpr hy'⟩

/-- The second search may keep other depths, as long as it keeps the images of those that count. -/
theorem keep {d'' : Detection} (h : Mirrors graph inner φ depth marks d marks' d')
    (hkept : ∀ j < depth, φ j ∈ d'.boundaries → φ j ∈ d''.boundaries)
    (hclear : d''.selected = d'.selected) : Mirrors graph inner φ depth marks d marks' d'' :=
  { h with
    broken := fun x k hx hinner => hkept k (h.path x k hx).1 (h.broken x k hx hinner)
    boundaries := fun j hj => ⟨(h.boundaries j hj).1,
      hkept j (h.boundaries j hj).1 (h.boundaries j hj).2⟩
    clear := hclear.trans h.clear }

/-- The second walk enters the inner node of one on the path. -/
theorem enter_inner (h : Mirrors graph inner φ depth marks d marks' d')
    (hsplits : Splits graph graph' isBoundary isBoundary' inner) (hon : OnPath marks x k)
    (hi : inner x = some i) (l : Nat) :
    Mirrors graph inner φ depth marks d ((i, .onPath l) :: marks')
      (d'.observe isBoundary' (.enter i l)) := by
  refine (h.mark_inner hsplits hon hi _).keep (fun j _ hj => ?_) (Detection.selected_enter ..)
  exact Detection.mem_boundaries_enter.mpr (.inr hj)

/-- The second walk leaves the inner node of one on the path. -/
theorem leave_inner {l : Nat} (h : Mirrors graph inner φ depth marks d marks' d')
    (hsplits : Splits graph graph' isBoundary isBoundary' inner) (hon : OnPath marks x k)
    (hi : inner x = some i) (hl : ∀ j < depth, φ j ≠ l) (edges : List (ExprId × Bool)) :
    Mirrors graph inner φ depth marks d ((i, .done) :: marks')
      (d'.observe isBoundary' (.leave i l edges)) := by
  refine (h.mark_inner hsplits hon hi _).keep (fun j hj hmem => ?_) rfl
  exact Detection.mem_boundaries_leave.mpr ⟨hmem, hl j hj⟩

/-- A cycle closes in both walks; in the second there is a boundary on it. -/
theorem cutoff (h : Mirrors graph inner φ depth marks d marks' d') (hx : OnPath marks x k)
    (hselected : ∀ y ∈ (d.close x k).selected, (inner y).isSome) :
    Mirrors graph inner φ depth marks (d.close x k) marks' (d'.close x (φ k)) := by
  obtain ⟨hk, -⟩ := h.path x k hx
  by_cases hany : d.boundaries.any (k ≤ ·) = true
  · obtain ⟨j, hj, hkj⟩ : ∃ j ∈ d.boundaries, k ≤ j := by simpa using hany
    rw [Detection.close_broken hj hkj, Detection.close_broken (h.boundaries j hj).2
      (h.stretches.mono.monotone hkj)]
    exact h
  · have hsplit : (inner x).isSome := by
      refine hselected x ?_
      rw [Detection.close, if_neg hany]
      dsimp only
      split
      · rename_i hmem
        exact List.contains_iff_mem.mp hmem
      · exact List.mem_cons_self ..
    have hboundary := h.broken x k hx hsplit
    have hbegun : (d.close x k).boundaries = k :: d.boundaries := by
      rw [Detection.close, if_neg hany]
      dsimp only
      split <;> rfl
    rw [Detection.close_broken hboundary le_rfl]
    refine { h with boundaries := ?_ }
    intro j hj
    rw [hbegun] at hj
    rcases List.mem_cons.mp hj with rfl | hj
    · exact ⟨hk, hboundary⟩
    · exact h.boundaries j hj

/-- Both walks leave a node, and what is left on the path is as it was. -/
theorem leave {marks₀ marks₀' : Marks} {d₀ d₀' : Detection} {edges edges' : List (ExprId × Bool)}
    (h : Mirrors graph inner φ' (depth + 1) marks d marks' d')
    (h₀ : Mirrors graph inner φ depth marks₀ d₀ marks₀' d₀')
    (hsplits : Splits graph graph' isBoundary isBoundary' inner) (hsame : ∀ j ≤ depth, φ' j = φ j)
    (hx : (graph x).isSome) (hinner : ∀ i, inner x = some i → Done marks' i)
    (hpath : ∀ y k, OnPath marks y k → y ≠ x → OnPath marks₀ y k) :
    Mirrors graph inner φ depth ((x, .done) :: marks) (d.observe isBoundary (.leave x depth edges))
      ((x, .done) :: marks') (d'.observe isBoundary' (.leave x (φ depth) edges')) := by
  have hkept : ∀ j < depth, φ' j ∈ d'.boundaries →
      φ j ∈ (d'.observe isBoundary' (.leave x (φ depth) edges')).boundaries := by
    intro j hj hmem
    rw [hsame j hj.le] at hmem
    have hne : φ j ≠ φ depth := (h₀.stretches.mono hj).ne
    exact Detection.mem_boundaries_leave.mpr ⟨hmem, hne⟩
  refine
    { stretches := h₀.stretches
      known := h.known_cons hx _
      unvisited := h.unvisited_cons hsplits hx _ _
      done := ?_
      path := ?_
      broken := ?_
      boundaries := ?_
      clear := h.clear }
  · intro y hy
    by_cases hyx : y = x
    · subst hyx
      refine ⟨by rw [Done, lookup_mark_cons, if_pos rfl], fun i hi => ?_⟩
      exact (done_cons_ne (hsplits.inner_ne hx hi)).mpr (hinner i hi)
    · have hy := (done_cons_ne hyx).mp hy
      obtain ⟨hy', hdone⟩ := h.done y hy
      exact ⟨(done_cons_ne hyx).mpr hy',
        fun i hi => (done_cons_ne (hsplits.inner_ne hx hi)).mpr (hdone i hi)⟩
  · intro y k hy
    have hyx : y ≠ x := by
      rintro rfl
      cases onPath_cons_self.mp hy
    have hy := (onPath_cons_ne hyx).mp hy
    have hk := (h₀.path y k (hpath y k hy hyx)).1
    rw [← hsame k hk.le]
    exact ⟨hk, (onPath_cons_ne hyx).mpr (h.path y k hy).2⟩
  · intro y k hy hsplit
    have hyx : y ≠ x := by
      rintro rfl
      cases onPath_cons_self.mp hy
    have hy := (onPath_cons_ne hyx).mp hy
    have hk := (h₀.path y k (hpath y k hy hyx)).1
    exact hkept k hk (h.broken y k hy hsplit)
  · intro j hj
    obtain ⟨hj, hne⟩ := Detection.mem_boundaries_leave.mp hj
    obtain ⟨hlt, hmem⟩ := h.boundaries j hj
    have hlt : j < depth := by omega
    exact ⟨hlt, hkept j hlt hmem⟩

end Mirrors

/-! ## The walks -/

/-- What the search knows after some events. -/
abbrev seen (isBoundary : ExprId → Bool) (d : Detection) (events : List Event) : Detection :=
  events.foldl (Detection.observe isBoundary) d

/-- Wherever two visits begin that mirror each other, they end so, if all that the first search
    selects is split. -/
def VisitsMirror (graph graph' : Graph) (isBoundary isBoundary' : ExprId → Bool)
    (inner : ExprId → Option ExprId) (φ : Nat → Nat) (depth bound bound' : Nat) : Prop :=
  ∀ marks d marks' d' x, (graph x).isSome → HasPath graph depth marks →
    HasPath graph' (φ depth) marks' →
    (∀ y ∈ (seen isBoundary d (visit graph bound depth marks x).events).selected,
      (inner y).isSome) →
    Mirrors graph inner φ depth marks d marks' d' →
    Mirrors graph inner φ depth (visit graph bound depth marks x).marks
      (seen isBoundary d (visit graph bound depth marks x).events)
      (visit graph' bound' (φ depth) marks' x).marks
      (seen isBoundary' d' (visit graph' bound' (φ depth) marks' x).events)

/-- Following the same edges, whatever nodes they start from. -/
theorem followEdges_mirrors {bound bound' : Nat} (parent parent' : ExprId) (index : Nat)
    (hvisit : VisitsMirror graph graph' isBoundary isBoundary' inner φ depth bound bound')
    {children : List ExprId} (hchildren : ∀ c ∈ children, (graph c).isSome)
    (hpath : HasPath graph depth marks) (hpath' : HasPath graph' (φ depth) marks')
    (hselected : ∀ y ∈ (seen isBoundary d (followEdges (visit graph bound depth) parent index
      children marks).events).selected, (inner y).isSome)
    (h : Mirrors graph inner φ depth marks d marks' d') :
    Mirrors graph inner φ depth
      (followEdges (visit graph bound depth) parent index children marks).marks
      (seen isBoundary d (followEdges (visit graph bound depth) parent index children marks).events)
      (followEdges (visit graph' bound' (φ depth)) parent' index children marks').marks
      (seen isBoundary' d'
        (followEdges (visit graph' bound' (φ depth)) parent' index children marks').events) := by
  induction children generalizing index marks d marks' d' with
  | nil => exact h
  | cons child rest ih =>
      obtain ⟨hchild, hrest⟩ := List.forall_mem_cons.mp hchildren
      rw [followEdges] at hselected ⊢
      rw [followEdges]
      simp only [seen, List.foldl_cons, List.foldl_append, Detection.observe] at hselected ⊢
      -- what the edge meets is on both paths or on none
      have hcut : Mirrors graph inner φ depth marks
          ((cutoffEvents marks parent child).foldl (Detection.observe isBoundary) d) marks'
          ((cutoffEvents marks' parent' child).foldl (Detection.observe isBoundary') d') := by
        cases hmark : marks.lookup child with
        | none =>
            rw [cutoffEvents, hmark, cutoffEvents, (h.unvisited child hchild hmark).1]
            exact h
        | some mark =>
            cases mark with
            | done =>
                have hdone : marks'.lookup child = some .done := (h.done child hmark).1
                rw [cutoffEvents, hmark, cutoffEvents, hdone]
                exact h
            | onPath k =>
                have hon : marks'.lookup child = some (.onPath (φ k)) := (h.path child k hmark).2
                rw [cutoffEvents, hmark, cutoffEvents, hon]
                refine h.cutoff hmark fun y hy => hselected y ?_
                refine Detection.mem_selected_foldl (Detection.mem_selected_foldl ?_)
                rw [cutoffEvents, hmark]
                exact hy
      refine ih (index + 1) hrest ?_ ?_ hselected ?_
      · exact hpath.kept (visit_marked bound depth marks child).kept
      · exact hpath'.kept (visit_marked bound' (φ depth) marks' child).kept
      · refine hvisit _ _ _ _ child hchild hpath hpath' (fun y hy => hselected y ?_) hcut
        exact Detection.mem_selected_foldl hy

/-- A node that is not split is entered by both walks, and they follow the same edges. -/
theorem visit_plain_mirrors {bound bound' : Nat}
    (hsplits : Splits graph graph' isBoundary isBoundary' inner)
    (hvisit : VisitsMirror graph graph' isBoundary isBoundary' inner φ (depth + 1) bound bound')
    (hx : (graph x).isSome) (hnew : marks.lookup x = none) (hplain : inner x = none)
    (hpath : HasPath graph depth marks) (hpath' : HasPath graph' (φ depth) marks')
    (hselected : ∀ y ∈ (seen isBoundary d (visit graph (bound + 1) depth marks x).events).selected,
      (inner y).isSome)
    (h : Mirrors graph inner φ depth marks d marks' d') :
    Mirrors graph inner φ depth (visit graph (bound + 1) depth marks x).marks
      (seen isBoundary d (visit graph (bound + 1) depth marks x).events)
      (visit graph' (bound' + 1) (φ depth) marks' x).marks
      (seen isBoundary' d' (visit graph' (bound' + 1) (φ depth) marks' x).events) := by
  obtain ⟨children, hchildren⟩ := Option.isSome_iff_exists.mp hx
  have hnew' := (h.unvisited x hx hnew).1
  have hchildren' : graph' x = some children := (hsplits.plain x hx hplain).trans hchildren
  have hdeeper : φ (depth + 1) = φ depth + 1 := h.stretches.next depth le_rfl
  rw [visit_new hnew hchildren] at hselected ⊢
  rw [visit_new hnew' hchildren', ← hdeeper]
  simp only [seen, List.foldl_cons, List.foldl_append, List.foldl_nil] at hselected ⊢
  have hpathx : HasPath graph' (φ (depth + 1)) ((x, .onPath (φ depth)) :: marks') := by
    rw [hdeeper]
    exact hpath'.enter hnew' (by rw [hchildren']; rfl)
  have hentered := h.enter hsplits hx hnew h.stretches.succ fun _ _ => rfl
  have hfollowed := followEdges_mirrors x x 0 hvisit
    (fun c hc => hsplits.closed x c ⟨children, hchildren, hc⟩) (hpath.enter hnew hx) hpathx
    (fun y hy => hselected y (Detection.mem_selected_observe hy)) hentered
  refine hfollowed.leave h hsplits (fun _ _ => rfl) hx (fun i hi => ?_) fun y k hy hyx => ?_
  · cases hplain.symm.trans hi
  · exact (onPath_cons_ne hyx).mp ((followEdges_onPath fun _ _ _ _ => visit_onPath).mp hy)

/-- A split node is entered by the second walk and then the inner one, from which it follows the
    edges of the node. -/
theorem visit_split_mirrors {bound bound' : Nat}
    (hsplits : Splits graph graph' isBoundary isBoundary' inner)
    (hvisit : VisitsMirror graph graph' isBoundary isBoundary' inner (stretch φ depth) (depth + 1)
      bound bound')
    (hx : (graph x).isSome) (hnew : marks.lookup x = none) (hi : inner x = some i)
    (hpath : HasPath graph depth marks) (hpath' : HasPath graph' (φ depth) marks')
    (hselected : ∀ y ∈ (seen isBoundary d (visit graph (bound + 1) depth marks x).events).selected,
      (inner y).isSome)
    (h : Mirrors graph inner φ depth marks d marks' d') :
    Mirrors graph inner φ depth (visit graph (bound + 1) depth marks x).marks
      (seen isBoundary d (visit graph (bound + 1) depth marks x).events)
      (visit graph' (bound' + 2) (φ depth) marks' x).marks
      (seen isBoundary' d' (visit graph' (bound' + 2) (φ depth) marks' x).events) := by
  obtain ⟨children, hchildren⟩ := Option.isSome_iff_exists.mp hx
  obtain ⟨hnew', hnewi⟩ := h.unvisited x hx hnew
  have hnewi : List.lookup i ((x, .onPath (φ depth)) :: marks') = none := by
    rw [lookup_mark_cons, if_neg (hsplits.inner_ne hx hi)]
    exact hnewi i hi
  have hchildren' : graph' i = some children := (hsplits.moved x i hi).trans hchildren
  have hdeeper : stretch φ depth (depth + 1) = φ depth + 2 := by
    rw [stretch, if_neg (Nat.not_succ_le_self depth), h.stretches.next depth le_rfl]
  have hunmet : cutoffEvents ((x, .onPath (φ depth)) :: marks') x i = [] := by
    rw [cutoffEvents, hnewi]
  have hpathx := hpath'.enter hnew' (by rw [hsplits.outer x i hi]; rfl)
  have hpathi : HasPath graph' (stretch φ depth (depth + 1))
      ((i, .onPath (φ depth + 1)) :: (x, .onPath (φ depth)) :: marks') := by
    rw [hdeeper]
    exact hpathx.enter hnewi (by rw [hchildren']; rfl)
  rw [visit_new hnew hchildren] at hselected ⊢
  rw [visit_new hnew' (hsplits.outer x i hi)]
  simp only [followEdges, visit_new hnewi hchildren', hunmet, seen, List.foldl_cons,
    List.foldl_append, List.foldl_nil] at hselected ⊢
  rw [show φ depth + 1 + 1 = stretch φ depth (depth + 1) from hdeeper.symm]
  have hsame : ∀ j ≤ depth, stretch φ depth j = φ j := fun j hj => stretch_of_le hj
  have hshallow : ∀ j < depth + 1, stretch φ depth j ≠ φ depth + 1 := by
    intro j hj
    have hle := h.stretches.mono.monotone (Nat.le_of_lt_succ hj)
    rw [hsame j (Nat.le_of_lt_succ hj)]
    omega
  -- into the node and on into the inner one
  have hentered := h.enter hsplits hx hnew h.stretches.stretch hsame
  have hinside := hentered.enter_inner hsplits (onPath_cons_self.mpr rfl) hi (φ depth + 1)
  have hfollowed := followEdges_mirrors x i 0 hvisit
    (fun c hc => hsplits.closed x c ⟨children, hchildren, hc⟩) (hpath.enter hnew hx) hpathi
    (fun y hy => hselected y (Detection.mem_selected_observe hy)) hinside
  -- out of the inner node and out of the node
  have honPath : ∀ y k, OnPath (followEdges (visit graph bound (depth + 1)) x 0 children
      ((x, .onPath depth) :: marks)).marks y k ↔ OnPath ((x, .onPath depth) :: marks) y k :=
    fun y k => followEdges_onPath fun _ _ _ _ => visit_onPath
  have hon := (honPath x depth).mpr (onPath_cons_self.mpr rfl)
  refine (hfollowed.leave_inner hsplits hon hi hshallow []).leave h hsplits hsame hx
    (fun j hj => ?_) fun y k hy hyx => ?_
  · cases hi.symm.trans hj
    rw [Done, lookup_mark_cons, if_pos rfl]
  · exact (onPath_cons_ne hyx).mp ((honPath y k).mp hy)

/-- A path through a graph is no longer than the graph is large, so neither bound is met. -/
theorem visit_mirrors {size size' : Nat} (hsize : ∀ x, (graph x).isSome → x < size)
    (hsize' : ∀ x, (graph' x).isSome → x < size')
    (hsplits : Splits graph graph' isBoundary isBoundary' inner) (bound bound' : Nat)
    (hbound : depth + bound = size + 1) (hbound' : φ depth + bound' = size' + 1) :
    VisitsMirror graph graph' isBoundary isBoundary' inner φ depth bound bound' := by
  induction bound generalizing depth φ bound' with
  | zero =>
      intro marks d marks' d' x _ hpath
      have hle := hpath.le_size hsize
      omega
  | succ bound ih =>
      intro marks d marks' d' x hx hpath hpath' hselected h
      obtain ⟨b, rfl⟩ : ∃ b, bound' = b + 1 := by
        have hle := hpath'.le_size hsize'
        exact ⟨bound' - 1, by omega⟩
      cases hmark : marks.lookup x with
      | some mark =>
          rw [visit, visit]
          cases mark with
          | done =>
              have hdone : marks'.lookup x = some .done := (h.done x hmark).1
              rw [hmark, hdone]
              exact h
          | onPath k =>
              have hon : marks'.lookup x = some (.onPath (φ k)) := (h.path x k hmark).2
              rw [hmark, hon]
              exact h
      | none =>
          have hnew' := (h.unvisited x hx hmark).1
          have hdeeper := h.stretches.next depth le_rfl
          cases hinner : inner x with
          | none =>
              refine visit_plain_mirrors hsplits (ih b (by omega) (by omega)) hx hmark hinner hpath
                hpath' hselected h
          | some i =>
              -- the second walk has room for the inner node too
              obtain ⟨c, rfl⟩ : ∃ c, b = c + 1 := by
                have hle := (hpath'.enter hnew' (by rw [hsplits.outer x i hinner]; rfl)).le_size hsize'
                exact ⟨b - 1, by omega⟩
              have hstretch : stretch φ depth (depth + 1) = φ depth + 2 := by
                rw [stretch, if_neg (Nat.not_succ_le_self depth), hdeeper]
              refine visit_split_mirrors hsplits (ih c (by omega) (by omega)) hx hmark hinner hpath
                hpath' hselected h

/-- Roots in turn. -/
theorem visitAll_mirrors {size size' : Nat} (hsize : ∀ x, (graph x).isSome → x < size)
    (hsize' : ∀ x, (graph' x).isSome → x < size')
    (hsplits : Splits graph graph' isBoundary isBoundary' inner) {roots : List ExprId}
    (hroots : ∀ r ∈ roots, (graph r).isSome)
    (hselected : ∀ y ∈ (seen isBoundary d (visitAll graph (size + 1) roots marks).1).selected,
      (inner y).isSome)
    (h : Mirrors graph inner id 0 marks d marks' d') :
    Mirrors graph inner id 0 (visitAll graph (size + 1) roots marks).2
      (seen isBoundary d (visitAll graph (size + 1) roots marks).1)
      (visitAll graph' (size' + 1) roots marks').2
      (seen isBoundary' d' (visitAll graph' (size' + 1) roots marks').1) := by
  induction roots generalizing marks d marks' d' with
  | nil => exact h
  | cons root rest ih =>
      obtain ⟨hroot, hrest⟩ := List.forall_mem_cons.mp hroots
      have hvisit : VisitsMirror graph graph' isBoundary isBoundary' inner id 0 (size + 1)
          (size' + 1) :=
        visit_mirrors hsize hsize' hsplits _ _ (Nat.zero_add _) (Nat.zero_add _)
      simp only [visitAll, seen, List.foldl_append] at hselected ⊢
      refine ih hrest hselected ?_
      refine hvisit marks d marks' d' root hroot (hasPath_zero ..) (hasPath_zero ..) ?_ h
      exact fun y hy => hselected y (Detection.mem_selected_foldl hy)

theorem visitAll_append (graph : Graph) (bound : Nat) (roots later : List ExprId) (marks : Marks) :
    visitAll graph bound (roots ++ later) marks =
      ((visitAll graph bound roots marks).1 ++
        (visitAll graph bound later (visitAll graph bound roots marks).2).1,
      (visitAll graph bound later (visitAll graph bound roots marks).2).2) := by
  induction roots generalizing marks with
  | nil => rfl
  | cons root rest ih => simp only [List.cons_append, visitAll, ih, List.append_assoc]

/-- Nothing happens at roots that are done. -/
theorem visitAll_done {bound : Nat} {roots : List ExprId} (h : ∀ r ∈ roots, Done marks r) :
    visitAll graph (bound + 1) roots marks = ([], marks) := by
  induction roots with
  | nil => rfl
  | cons root rest ih =>
      obtain ⟨hroot, hrest⟩ := List.forall_mem_cons.mp h
      have hvisit : visit graph (bound + 1) 0 marks root =
          { closes := false, events := [], marks } := by
        rw [visit, hroot]
      rw [visitAll, hvisit]
      dsimp only
      rw [ih hrest]
      rfl

theorem mirrors_nil (graph : Graph) (inner : ExprId → Option ExprId) :
    Mirrors graph inner id 0 [] {} [] {} where
  stretches := ⟨strictMono_id, fun _ _ => rfl⟩
  known := fun _ h => by cases h
  unvisited := fun _ _ _ => ⟨rfl, fun _ _ => rfl⟩
  done := fun _ h => by cases h
  path := fun _ _ h => by cases h
  broken := fun _ _ h => by cases h
  boundaries := fun _ h => by cases h
  clear := rfl

end Walk

end Packrat
