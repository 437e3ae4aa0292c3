import Mathlib.Data.Finset.Card
import Mathlib.Logic.Relation
import Packrat.Analysis.LeftRecursion

/-! # What a walk sees of the cycles of its graph

    A walk is followed event by event.  At each moment the marks tell which nodes are on the
    current path and which are done, and three facts hold (`Surveyed`):

    * the nodes on the path lead to each other, from lower to higher depths;
    * an edge that leaves a done node either closed a cycle on the walk or leads to a node that
      was done earlier;
    * as long as the search for unbroken cycles has selected nothing, the depths it keeps are
      those of boundaries on the path, so every edge that closed a cycle closed one with a
      boundary on it.

    Each event keeps them, so the whole walk does.  Once it is over every node is done, and the
    order in which nodes were done decreases along all edges that closed no cycle: every cycle of
    the graph has an edge that closed one. -/

namespace Packrat.Detection

variable {d : Detection} {isBoundary : ExprId → Bool}

/-- A closing edge that selects nothing finds a boundary at the depth of its cycle. -/
theorem close_eq {id : ExprId} {k : Nat} (h : (d.close id k).selected = []) :
    d.close id k = d ∧ ∃ j ∈ d.boundaries, k ≤ j := by
  by_cases hany : d.boundaries.any (k ≤ ·) = true
  · refine ⟨?_, by simpa using hany⟩
    rw [close, if_pos hany]
  · exfalso
    rw [close, if_neg hany] at h
    dsimp only at h
    split at h
    · rename_i hmem
      rw [h] at hmem
      cases hmem
    · cases h

/-- Nothing that was selected is dropped. -/
theorem selected_of_observe {e : Walk.Event}
    (h : (d.observe isBoundary e).selected = []) : d.selected = [] := by
  cases e with
  | enter id depth =>
      rw [observe] at h
      split at h
      · exact h
      · exact h
  | cutoff parent child k =>
      rw [← (close_eq h).1]
      exact h
  | missing id => exact h
  | edge parent index child => exact h
  | edgeDone parent index child closes => exact h
  | leave id depth edges => exact h

end Packrat.Detection

namespace Packrat.Walk

open Relation

variable {graph : Graph} {isBoundary : ExprId → Bool} {depth : Nat} {events : List Event}
  {marks : Marks} {id parent child u v x y : ExprId} {k l : Nat}

/-! ## Edges and marks -/

/-- There is an edge from `u` to `v`. -/
def Edge (graph : Graph) (u v : ExprId) : Prop :=
  ∃ children, graph u = some children ∧ v ∈ children

/-- The children of a node are the ends of its edges. -/
theorem edge_iff : Edge graph u v ↔ v ∈ (graph u).getD [] := by
  cases hg : graph u with
  | none => simp [Edge, hg]
  | some children => simp [Edge, hg]

def OnPath (marks : Marks) (x : ExprId) (depth : Nat) : Prop :=
  marks.lookup x = some (.onPath depth)

def Done (marks : Marks) (x : ExprId) : Prop :=
  marks.lookup x = some .done

/-- An edge that led to a node on the path. -/
def Closes (events : List Event) (u v : ExprId) : Prop :=
  ∃ k, Event.cutoff u v k ∈ events

theorem lookup_mark_cons (x : ExprId) (m : Mark) (marks : Marks) (y : ExprId) :
    List.lookup y ((x, m) :: marks) = if y = x then some m else marks.lookup y := by
  rw [List.lookup_cons]
  by_cases h : y = x
  · rw [if_pos h, beq_iff_eq.mpr h]
  · rw [if_neg h, beq_eq_false_iff_ne.mpr h]

theorem onPath_cons_ne {m : Mark} (h : y ≠ x) : OnPath ((x, m) :: marks) y k ↔ OnPath marks y k := by
  rw [OnPath, OnPath, lookup_mark_cons, if_neg h]

theorem done_cons_ne {m : Mark} (h : y ≠ x) : Done ((x, m) :: marks) y ↔ Done marks y := by
  rw [Done, Done, lookup_mark_cons, if_neg h]

theorem onPath_cons_self {m : Mark} : OnPath ((x, m) :: marks) x k ↔ m = .onPath k := by
  rw [OnPath, lookup_mark_cons, if_pos rfl, Option.some.injEq]

theorem not_done_of_onPath (h : OnPath marks x k) : ¬ Done marks x := by
  intro hd
  cases h.symm.trans hd

theorem Closes.append (h : Closes events u v) (later : List Event) :
    Closes (events ++ later) u v := by
  obtain ⟨k, hk⟩ := h
  exact ⟨k, List.mem_append_left later hk⟩

/-- An event that is no cutoff adds no closing edge. -/
theorem closes_append_singleton {e : Event} (he : ∀ k, e ≠ .cutoff u v k) :
    Closes (events ++ [e]) u v ↔ Closes events u v := by
  refine ⟨?_, fun h => h.append [e]⟩
  rintro ⟨k, hk⟩
  rcases List.mem_append.mp hk with hk | hk
  · exact ⟨k, hk⟩
  · exact absurd (List.mem_singleton.mp hk).symm (he k)

/-! ## The search for unbroken cycles -/

/-- What the search has found after some events. -/
def detected (isBoundary : ExprId → Bool) (events : List Event) : Detection :=
  events.foldl (Detection.observe isBoundary) {}

theorem detected_append (events later : List Event) :
    detected isBoundary (events ++ later) =
      later.foldl (Detection.observe isBoundary) (detected isBoundary events) :=
  List.foldl_append ..

theorem detected_singleton (events : List Event) (e : Event) :
    detected isBoundary (events ++ [e]) = (detected isBoundary events).observe isBoundary e :=
  detected_append events [e]

/-! ## The invariant -/

/-- Edges of done nodes closed a cycle, or lead to nodes that were done earlier. -/
structure Ranked (graph : Graph) (events : List Event) (marks : Marks) (rank : ExprId → Nat) :
    Prop where
  bounded : ∀ u, Done marks u → rank u < marks.length
  descends : ∀ u v, Done marks u → Edge graph u v →
    Closes events u v ∨ Done marks v ∧ rank v < rank u

/-- Depths kept are those of boundaries on the path, and a boundary lies on the way back from the
    end of every closing edge to its start. -/
structure Broken (graph : Graph) (isBoundary : ExprId → Bool) (events : List Event)
    (marks : Marks) : Prop where
  kept : ∀ k ∈ (detected isBoundary events).boundaries, ∃ b, OnPath marks b k ∧ isBoundary b
  closed : ∀ u v, Closes events u v →
    ∃ b, isBoundary b ∧ ReflTransGen (Edge graph) v b ∧ ReflTransGen (Edge graph) b u

/-- What holds at each moment of a walk whose path has the given length. -/
structure Surveyed (graph : Graph) (isBoundary : ExprId → Bool) (depth : Nat)
    (events : List Event) (marks : Marks) : Prop where
  below : ∀ x k, OnPath marks x k → k < depth
  single : ∀ x y k, OnPath marks x k → OnPath marks y k → x = y
  linked : ∀ x y k l, OnPath marks x k → OnPath marks y l → k ≤ l → ReflTransGen (Edge graph) x y
  edges : ∀ u v, Closes events u v → Edge graph u v
  ranked : ∃ rank, Ranked graph events marks rank
  broken : (detected isBoundary events).selected = [] → Broken graph isBoundary events marks

theorem surveyed_nil (graph : Graph) (isBoundary : ExprId → Bool) :
    Surveyed graph isBoundary 0 [] [] where
  below := by
    intro x k h
    cases h
  single := by
    intro x y k h
    cases h
  linked := by
    intro x y k l h
    cases h
  edges := by
    rintro u v ⟨k, h⟩
    cases h
  ranked := by
    refine ⟨fun _ => 0, ?_, ?_⟩
    · intro u h
      cases h
    · intro u v h
      cases h
  broken := by
    intro _
    refine ⟨?_, ?_⟩
    · intro k h
      cases h
    · rintro u v ⟨k, h⟩
      cases h

namespace Surveyed

/-- An event that the search ignores and that closes nothing. -/
theorem quiet (h : Surveyed graph isBoundary depth events marks) {e : Event}
    (hignored : ∀ d : Detection, d.observe isBoundary e = d) (hcut : ∀ u v k, e ≠ .cutoff u v k) :
    Surveyed graph isBoundary depth (events ++ [e]) marks where
  below := h.below
  single := h.single
  linked := h.linked
  edges := by
    intro u v hclose
    exact h.edges u v ((closes_append_singleton (hcut u v)).mp hclose)
  ranked := by
    obtain ⟨rank, hrank⟩ := h.ranked
    refine ⟨rank, hrank.bounded, ?_⟩
    intro u v hu huv
    exact (hrank.descends u v hu huv).imp_left fun hclose => hclose.append [e]
  broken := by
    rw [detected_singleton, hignored]
    intro hnone
    have hbroken := h.broken hnone
    refine ⟨?_, ?_⟩
    · rw [detected_singleton, hignored]
      exact hbroken.kept
    · intro u v hclose
      exact hbroken.closed u v ((closes_append_singleton (hcut u v)).mp hclose)

/-- A node that was not visited is entered from the end of the path. -/
theorem enter (h : Surveyed graph isBoundary depth events marks) (hnew : marks.lookup id = none)
    (hreach : ∀ x k, OnPath marks x k → ReflTransGen (Edge graph) x id) :
    Surveyed graph isBoundary (depth + 1) (events ++ [.enter id depth])
      ((id, .onPath depth) :: marks) := by
  have hne : ∀ {x : ExprId} {m : Mark}, marks.lookup x = some m → x ≠ id := by
    rintro x m hx rfl
    cases hnew.symm.trans hx
  have hcases : ∀ {x : ExprId} {k : Nat}, OnPath ((id, .onPath depth) :: marks) x k →
      x = id ∧ k = depth ∨ x ≠ id ∧ OnPath marks x k := by
    intro x k hx
    by_cases hxid : x = id
    · subst hxid
      have hk := onPath_cons_self.mp hx
      exact Or.inl ⟨rfl, (Mark.onPath.inj hk).symm⟩
    · exact Or.inr ⟨hxid, (onPath_cons_ne hxid).mp hx⟩
  refine ⟨?_, ?_, ?_, ?_, ?_, ?_⟩
  · intro x k hx
    rcases hcases hx with ⟨-, rfl⟩ | ⟨-, hx⟩
    · exact Nat.lt_succ_self k
    · exact Nat.lt_succ_of_lt (h.below x k hx)
  · intro x y k hx hy
    rcases hcases hx with ⟨rfl, rfl⟩ | ⟨-, hold⟩
    · rcases hcases hy with ⟨rfl, -⟩ | ⟨-, hy⟩
      · rfl
      · exact absurd (h.below y k hy) (Nat.lt_irrefl k)
    · rcases hcases hy with ⟨-, rfl⟩ | ⟨-, hy⟩
      · exact absurd (h.below x k hold) (Nat.lt_irrefl k)
      · exact h.single x y k hold hy
  · intro x y k l hx hy hkl
    rcases hcases hx with ⟨rfl, rfl⟩ | ⟨-, hold⟩
    · rcases hcases hy with ⟨rfl, -⟩ | ⟨-, hy⟩
      · exact .refl
      · exact absurd (h.below y l hy) (Nat.not_lt.mpr hkl)
    · rcases hcases hy with ⟨rfl, -⟩ | ⟨-, hy⟩
      · exact hreach x k hold
      · exact h.linked x y k l hold hy hkl
  · intro u v hclose
    exact h.edges u v ((closes_append_singleton (by simp)).mp hclose)
  · obtain ⟨rank, hrank⟩ := h.ranked
    have hdone : ∀ {u : ExprId}, Done ((id, .onPath depth) :: marks) u → Done marks u := by
      intro u hu
      refine (done_cons_ne ?_).mp hu
      rintro rfl
      exact not_done_of_onPath (onPath_cons_self.mpr rfl) hu
    refine ⟨rank, ?_, ?_⟩
    · intro u hu
      exact Nat.lt_succ_of_lt (hrank.bounded u (hdone hu))
    · intro u v hu huv
      rcases hrank.descends u v (hdone hu) huv with hclose | ⟨hv, hlt⟩
      · exact Or.inl (hclose.append _)
      · exact Or.inr ⟨(done_cons_ne (hne hv)).mpr hv, hlt⟩
  · intro hnone
    have hbroken := h.broken (Detection.selected_of_observe (detected_singleton events _ ▸ hnone))
    refine ⟨?_, ?_⟩
    · intro k hk
      rw [detected_singleton, Detection.observe] at hk
      have hold : k ∈ (detected isBoundary events).boundaries →
          ∃ b, OnPath ((id, .onPath depth) :: marks) b k ∧ isBoundary b := by
        intro hk
        obtain ⟨b, hb, hboundary⟩ := hbroken.kept k hk
        exact ⟨b, (onPath_cons_ne (hne hb)).mpr hb, hboundary⟩
      split at hk
      · rename_i hid
        rcases List.mem_cons.mp hk with rfl | hk
        · exact ⟨id, onPath_cons_self.mpr rfl, hid⟩
        · exact hold hk
      · exact hold hk
    · intro u v hclose
      exact hbroken.closed u v ((closes_append_singleton (by simp)).mp hclose)

/-- An edge leads from the end of the path to a node on it. -/
theorem cutoff (h : Surveyed graph isBoundary (depth + 1) events marks)
    (hparent : OnPath marks parent depth) (hchild : OnPath marks child k)
    (hedge : Edge graph parent child) :
    Surveyed graph isBoundary (depth + 1) (events ++ [.cutoff parent child k]) marks := by
  have hcases : ∀ {u v : ExprId}, Closes (events ++ [.cutoff parent child k]) u v →
      Closes events u v ∨ u = parent ∧ v = child := by
    rintro u v ⟨j, hj⟩
    rcases List.mem_append.mp hj with hj | hj
    · exact Or.inl ⟨j, hj⟩
    · cases List.mem_singleton.mp hj
      exact Or.inr ⟨rfl, rfl⟩
  refine ⟨h.below, h.single, h.linked, ?_, ?_, ?_⟩
  · intro u v hclose
    rcases hcases hclose with hclose | ⟨rfl, rfl⟩
    · exact h.edges u v hclose
    · exact hedge
  · obtain ⟨rank, hrank⟩ := h.ranked
    refine ⟨rank, hrank.bounded, ?_⟩
    intro u v hu huv
    exact (hrank.descends u v hu huv).imp_left fun hclose => hclose.append _
  · intro hnone
    rw [detected_singleton] at hnone
    have hbroken := h.broken (Detection.selected_of_observe hnone)
    obtain ⟨hsame, j, hj, hkj⟩ := Detection.close_eq hnone
    refine ⟨?_, ?_⟩
    · rw [detected_singleton, Detection.observe, hsame]
      exact hbroken.kept
    · intro u v hclose
      rcases hcases hclose with hclose | ⟨rfl, rfl⟩
      · exact hbroken.closed u v hclose
      · -- the boundary stands on the path between the two ends of the edge
        obtain ⟨b, hb, hboundary⟩ := hbroken.kept j hj
        have hlow := h.linked v b k j hchild hb hkj
        have hhigh := h.linked b u j depth hb hparent (Nat.lt_succ_iff.mp (h.below b j hb))
        exact ⟨b, hboundary, hlow, hhigh⟩

/-- The node at the end of the path is done, with all its edges followed. -/
theorem leave (h : Surveyed graph isBoundary (depth + 1) events marks)
    (hid : OnPath marks id depth) (edges : List (ExprId × Bool))
    (hedges : ∀ v, Edge graph id v → Closes events id v ∨ Done marks v) :
    Surveyed graph isBoundary depth (events ++ [.leave id depth edges]) ((id, .done) :: marks) := by
  have hcases : ∀ {x : ExprId} {k : Nat}, OnPath ((id, .done) :: marks) x k →
      x ≠ id ∧ OnPath marks x k := by
    intro x k hx
    by_cases hxid : x = id
    · subst hxid
      cases onPath_cons_self.mp hx
    · exact ⟨hxid, (onPath_cons_ne hxid).mp hx⟩
  have hdone : ∀ {v : ExprId}, Done marks v → v ≠ id := by
    rintro v hv rfl
    exact not_done_of_onPath hid hv
  refine ⟨?_, ?_, ?_, ?_, ?_, ?_⟩
  · intro x k hx
    obtain ⟨hne, hx⟩ := hcases hx
    refine Nat.lt_of_le_of_ne (Nat.lt_succ_iff.mp (h.below x k hx)) ?_
    rintro rfl
    exact hne (h.single x id k hx hid)
  · intro x y k hx hy
    exact h.single x y k (hcases hx).2 (hcases hy).2
  · intro x y k l hx hy
    exact h.linked x y k l (hcases hx).2 (hcases hy).2
  · intro u v hclose
    exact h.edges u v ((closes_append_singleton (by simp)).mp hclose)
  · -- the node gets a rank above all that were done before
    obtain ⟨rank, hrank⟩ := h.ranked
    refine ⟨Function.update rank id marks.length, ?_, ?_⟩
    · intro u hu
      by_cases huid : u = id
      · subst huid
        rw [Function.update_self]
        exact Nat.lt_succ_self _
      · rw [Function.update_of_ne huid]
        exact Nat.lt_succ_of_lt (hrank.bounded u ((done_cons_ne huid).mp hu))
    · intro u v hu huv
      by_cases huid : u = id
      · subst huid
        rcases hedges v huv with hclose | hv
        · exact Or.inl (hclose.append _)
        · refine Or.inr ⟨(done_cons_ne (hdone hv)).mpr hv, ?_⟩
          rw [Function.update_self, Function.update_of_ne (hdone hv)]
          exact hrank.bounded v hv
      · rcases hrank.descends u v ((done_cons_ne huid).mp hu) huv with hclose | ⟨hv, hlt⟩
        · exact Or.inl (hclose.append _)
        · refine Or.inr ⟨(done_cons_ne (hdone hv)).mpr hv, ?_⟩
          rw [Function.update_of_ne huid, Function.update_of_ne (hdone hv)]
          exact hlt
  · intro hnone
    have hbroken := h.broken (Detection.selected_of_observe (detected_singleton events _ ▸ hnone))
    refine ⟨?_, ?_⟩
    · intro k hk
      rw [detected_singleton, Detection.observe] at hk
      obtain ⟨hk, hne⟩ := List.mem_filter.mp hk
      obtain ⟨b, hb, hboundary⟩ := hbroken.kept k hk
      refine ⟨b, (onPath_cons_ne ?_).mpr hb, hboundary⟩
      rintro rfl
      cases hb.symm.trans hid
      simp at hne
    · intro u v hclose
      exact hbroken.closed u v ((closes_append_singleton (by simp)).mp hclose)

end Surveyed

/-! ## The walk -/

/-- There are as many nodes of the graph on the path as its length says. -/
def HasPath (graph : Graph) (depth : Nat) (marks : Marks) : Prop :=
  ∃ path : Finset ExprId, path.card = depth ∧
    ∀ x ∈ path, (graph x).isSome ∧ (marks.lookup x).isSome

/-- A part of a walk: it keeps the invariant, the marks that were there and the path. -/
structure Walked (graph : Graph) (isBoundary : ExprId → Bool) (depth : Nat) (events : List Event)
    (marks : Marks) (added : List Event) (marks' : Marks) : Prop where
  surveyed : Surveyed graph isBoundary depth (events ++ added) marks'
  kept : ∀ x m, marks.lookup x = some m → marks'.lookup x = some m
  path : ∀ x k, OnPath marks' x k → OnPath marks x k

theorem Walked.trans {added added' : List Event} {marks' marks'' : Marks}
    (h : Walked graph isBoundary depth events marks added marks')
    (h' : Walked graph isBoundary depth (events ++ added) marks' added' marks'') :
    Walked graph isBoundary depth events marks (added ++ added') marks'' := by
  refine ⟨?_, ?_, ?_⟩
  · rw [← List.append_assoc]
    exact h'.surveyed
  · intro x m hx
    exact h'.kept x m (h.kept x m hx)
  · intro x k hx
    exact h.path x k (h'.path x k hx)

/-- Events that change no marks. -/
theorem Walked.of_surveyed {added : List Event}
    (h : Surveyed graph isBoundary depth (events ++ added) marks) :
    Walked graph isBoundary depth events marks added marks :=
  ⟨h, fun _ _ hx => hx, fun _ _ hx => hx⟩

/-- Whatever was visited still is. -/
theorem HasPath.kept {marks' : Marks} (h : HasPath graph l marks)
    (hkept : ∀ x, (marks.lookup x).isSome → (marks'.lookup x).isSome) : HasPath graph l marks' := by
  obtain ⟨path, hcard, hmem⟩ := h
  exact ⟨path, hcard, fun x hx => ⟨(hmem x hx).1, hkept x (hmem x hx).2⟩⟩

theorem Walked.hasPath {added : List Event} {marks' : Marks}
    (h : Walked graph isBoundary depth events marks added marks') (hpath : HasPath graph l marks) :
    HasPath graph l marks' := by
  refine hpath.kept fun x hx => ?_
  obtain ⟨m, hm⟩ := Option.isSome_iff_exists.mp hx
  exact Option.isSome_iff_exists.mpr ⟨m, h.kept x m hm⟩

/-- A path is no longer than the graph is large. -/
theorem HasPath.le_size {size : Nat} (h : HasPath graph depth marks)
    (hsize : ∀ x, (graph x).isSome → x < size) : depth ≤ size := by
  obtain ⟨path, hcard, hmem⟩ := h
  have hsub : path ⊆ Finset.range size := by
    intro x hx
    exact Finset.mem_range.mpr (hsize x (hmem x hx).1)
  have hle := Finset.card_le_card hsub
  rw [Finset.card_range] at hle
  omega

theorem HasPath.enter (h : HasPath graph depth marks) (hid : marks.lookup id = none)
    (hsome : (graph id).isSome) : HasPath graph (depth + 1) ((id, .onPath depth) :: marks) := by
  obtain ⟨path, hcard, hmem⟩ := h
  have hnew : id ∉ path := by
    intro hin
    have hvisited := (hmem id hin).2
    rw [hid] at hvisited
    cases hvisited
  refine ⟨insert id path, ?_, ?_⟩
  · rw [Finset.card_insert_of_notMem hnew, hcard]
  · intro x hx
    rw [lookup_mark_cons]
    rcases Finset.mem_insert.mp hx with rfl | hx
    · exact ⟨hsome, by simp⟩
    · refine ⟨(hmem x hx).1, ?_⟩
      split
      · rfl
      · exact (hmem x hx).2

/-- A node that was entered, left and marked as done. -/
theorem Walked.leave {entered added added' : List Event} {marks' : Marks}
    (hid : marks.lookup id = none)
    (h : Walked graph isBoundary (depth + 1) entered ((id, .onPath depth) :: marks) added marks')
    (hleft : Surveyed graph isBoundary depth (events ++ added') ((id, .done) :: marks')) :
    Walked graph isBoundary depth events marks added' ((id, .done) :: marks') := by
  refine ⟨hleft, ?_, ?_⟩
  · intro x m hx
    have hne : x ≠ id := by
      rintro rfl
      cases hid.symm.trans hx
    rw [lookup_mark_cons, if_neg hne]
    refine h.kept x m ?_
    rw [lookup_mark_cons, if_neg hne]
    exact hx
  · intro x k hx
    have hne : x ≠ id := by
      rintro rfl
      cases onPath_cons_self.mp hx
    have hbefore := h.path x k ((onPath_cons_ne hne).mp hx)
    exact (onPath_cons_ne hne).mp hbefore

/-- Visiting a node to which the path leads keeps the invariant and leaves the node visited. -/
def Visits (graph : Graph) (isBoundary : ExprId → Bool) (depth : Nat)
    (visitChild : Marks → ExprId → Step) : Prop :=
  ∀ events marks id, HasPath graph depth marks → Surveyed graph isBoundary depth events marks →
    (∀ x k, OnPath marks x k → ReflTransGen (Edge graph) x id) →
    Walked graph isBoundary depth events marks (visitChild marks id).events
      (visitChild marks id).marks ∧
    ((visitChild marks id).marks.lookup id).isSome

/-- Meeting a child: if it is on the path the edge closes a cycle. -/
theorem cutoffEvents_walked (h : Surveyed graph isBoundary (depth + 1) events marks)
    (hparent : OnPath marks parent depth) (hedge : Edge graph parent child) :
    Walked graph isBoundary (depth + 1) events marks (cutoffEvents marks parent child) marks ∧
      (Closes (events ++ cutoffEvents marks parent child) parent child ∨
        ∀ k, ¬ OnPath marks child k) := by
  rw [cutoffEvents]
  split
  · rename_i k hk
    refine ⟨.of_surveyed (h.cutoff hparent hk hedge), Or.inl ⟨k, ?_⟩⟩
    exact List.mem_append_right events (List.mem_singleton_self _)
  · rename_i hno
    refine ⟨.of_surveyed ?_, Or.inr hno⟩
    rw [List.append_nil]
    exact h

/-- Following the edges of the node at the end of the path: each closes a cycle, or its child is
    done afterwards. -/
theorem followEdges_walked {visitChild : Marks → ExprId → Step}
    (hvisit : Visits graph isBoundary (depth + 1) visitChild) (children : List ExprId) (index : Nat)
    (hchildren : ∀ c ∈ children, Edge graph parent c) (hparent : OnPath marks parent depth)
    (hpath : (graph parent).isSome → HasPath graph (depth + 1) marks)
    (h : Surveyed graph isBoundary (depth + 1) events marks) :
    Walked graph isBoundary (depth + 1) events marks
      (followEdges visitChild parent index children marks).events
      (followEdges visitChild parent index children marks).marks ∧
    ∀ c ∈ children,
      Closes (events ++ (followEdges visitChild parent index children marks).events) parent c ∨
        Done (followEdges visitChild parent index children marks).marks c := by
  induction children generalizing index events marks with
  | nil =>
      refine ⟨.of_surveyed ?_, ?_⟩
      · rw [followEdges, List.append_nil]
        exact h
      · intro c hc
        cases hc
  | cons child rest ih =>
      have hedge : Edge graph parent child := hchildren child (List.mem_cons_self ..)
      have hsome : (graph parent).isSome := by
        obtain ⟨children, hchildren, -⟩ := hedge
        rw [hchildren]
        rfl
      rw [followEdges]
      -- the edge, what closes there, the child, the end of the edge, and the other edges
      have hbegun : Walked graph isBoundary (depth + 1) events marks [.edge parent index child]
          marks := .of_surveyed (h.quiet (fun _ => rfl) (by simp))
      obtain ⟨hcut, hclosed⟩ := cutoffEvents_walked hbegun.surveyed hparent hedge
      have hmet := hbegun.trans hcut
      have hreach : ∀ x k, OnPath marks x k → ReflTransGen (Edge graph) x child := by
        intro x k hx
        have hup := h.linked x parent k depth hx hparent (Nat.lt_succ_iff.mp (h.below x k hx))
        exact hup.tail hedge
      obtain ⟨hstep, hvisited⟩ := hvisit _ marks child (hpath hsome) hmet.surveyed hreach
      have hchild := hmet.trans hstep
      have hended := hchild.trans (.of_surveyed (hchild.surveyed.quiet
        (e := .edgeDone parent index child (visitChild marks child).closes) (fun _ => rfl) (by simp)))
      obtain ⟨hlater, hrest⟩ := ih (index + 1) (fun c hc => hchildren c (List.mem_cons_of_mem _ hc))
        (hended.kept parent _ hparent) (fun hg => hended.hasPath (hpath hg)) hended.surveyed
      have hall := hended.trans hlater
      simp only [List.append_assoc, List.cons_append, List.nil_append] at hall hrest hclosed ⊢
      refine ⟨hall, ?_⟩
      intro c hc
      rcases List.mem_cons.mp hc with rfl | hc
      · rcases hclosed with ⟨k, hk⟩ | hoff
        · refine Or.inl ⟨k, ?_⟩
          simp only [List.mem_append, List.mem_cons] at hk ⊢
          tauto
        · -- the child was visited and is not on the path, so it is done
          obtain ⟨m, hm⟩ := Option.isSome_iff_exists.mp hvisited
          cases m with
          | onPath k => exact absurd (hstep.path c k hm) (hoff k)
          | done => exact Or.inr (hlater.kept c _ hm)
      · exact hrest c hc

/-- A path through the graph is no longer than the graph is large, so the bound is never met. -/
theorem visit_visits {size : Nat} (hsize : ∀ x, (graph x).isSome → x < size) (bound : Nat)
    (hbound : bound + depth = size + 1) :
    Visits graph isBoundary depth (visit graph bound depth) := by
  induction bound generalizing depth with
  | zero =>
      intro events marks id hpath
      have hle := hpath.le_size hsize
      omega
  | succ bound ih =>
      intro events marks id hpath h hreach
      rw [visit]
      cases hid : marks.lookup id with
      | some m =>
          have hstay : Walked graph isBoundary depth events marks [] marks := by
            refine .of_surveyed ?_
            rw [List.append_nil]
            exact h
          cases m with
          | onPath k => exact ⟨hstay, by simp [hid]⟩
          | done => exact ⟨hstay, by simp [hid]⟩
      | none =>
          dsimp only
          have hentered := h.enter hid hreach
          -- a node outside the graph is noted, which changes nothing
          have habsent : Surveyed graph isBoundary (depth + 1)
              (events ++ [.enter id depth] ++ if (graph id).isSome then [] else [.missing id])
              ((id, .onPath depth) :: marks) := by
            split
            · rw [List.append_nil]
              exact hentered
            · exact hentered.quiet (fun _ => rfl) (by simp)
          have hself : OnPath ((id, .onPath depth) :: marks) id depth := onPath_cons_self.mpr rfl
          have hchildren : ∀ c ∈ (graph id).getD [], Edge graph id c := fun c hc => edge_iff.mpr hc
          have hbound' : bound + (depth + 1) = size + 1 := by omega
          obtain ⟨hfollowed, hall⟩ := followEdges_walked (ih hbound')
            ((graph id).getD []) 0 hchildren hself (hpath.enter hid) habsent
          generalize followEdges (visit graph bound (depth + 1)) id 0 ((graph id).getD [])
            ((id, .onPath depth) :: marks) = followed at hfollowed hall ⊢
          have hleft := hfollowed.surveyed.leave (hfollowed.kept id _ hself) followed.edges (by
            rintro c ⟨children, hg, hc⟩
            exact hall c (by rw [hg]; exact hc))
          refine ⟨hfollowed.leave hid ?_, ?_⟩
          · simpa only [List.append_assoc, List.cons_append, List.nil_append] using hleft
          · rw [lookup_mark_cons, if_pos rfl]
            rfl

theorem hasPath_zero (graph : Graph) (marks : Marks) : HasPath graph 0 marks :=
  ⟨∅, rfl, fun _ hx => absurd hx (Finset.notMem_empty _)⟩

/-- Walking from several roots in turn leaves all of them visited. -/
theorem visitAll_walked {size : Nat} (hsize : ∀ x, (graph x).isSome → x < size)
    (roots : List ExprId) (h : Surveyed graph isBoundary 0 events marks) :
    Walked graph isBoundary 0 events marks (visitAll graph (size + 1) roots marks).1
      (visitAll graph (size + 1) roots marks).2 ∧
    ∀ r ∈ roots, ((visitAll graph (size + 1) roots marks).2.lookup r).isSome := by
  induction roots generalizing events marks with
  | nil =>
      refine ⟨.of_surveyed ?_, ?_⟩
      · rw [visitAll, List.append_nil]
        exact h
      · intro r hr
        cases hr
  | cons root rest ih =>
      have hreach : ∀ x k, OnPath marks x k → ReflTransGen (Edge graph) x root := by
        intro x k hx
        exact absurd (h.below x k hx) (Nat.not_lt_zero k)
      obtain ⟨hstep, hvisited⟩ :=
        visit_visits hsize (size + 1) rfl events marks root (hasPath_zero graph marks) h hreach
      obtain ⟨hlater, hrest⟩ := ih hstep.surveyed
      rw [visitAll]
      refine ⟨hstep.trans hlater, ?_⟩
      intro r hr
      rcases List.mem_cons.mp hr with rfl | hr
      · obtain ⟨m, hm⟩ := Option.isSome_iff_exists.mp hvisited
        exact Option.isSome_iff_exists.mpr ⟨m, hlater.kept r m hm⟩
      · exact hrest r hr

/-- After a walk from all nodes, some order decreases along every edge that closed no cycle. -/
theorem exists_rank {size : Nat} (hsize : ∀ x, (graph x).isSome → x < size) {roots : List ExprId}
    (hroots : ∀ x, (graph x).isSome → x ∈ roots) :
    ∃ rank : ExprId → Nat, ∀ u v, Edge graph u v →
      Closes (visitAll graph (size + 1) roots []).1 u v ∨ rank v < rank u := by
  obtain ⟨hwalked, hvisited⟩ :=
    visitAll_walked hsize roots (surveyed_nil graph fun _ => false)
  obtain ⟨rank, hrank⟩ := hwalked.surveyed.ranked
  refine ⟨rank, ?_⟩
  intro u v huv
  have hu : u ∈ roots := by
    obtain ⟨children, hchildren, -⟩ := huv
    exact hroots u (by rw [hchildren]; rfl)
  obtain ⟨m, hm⟩ := Option.isSome_iff_exists.mp (hvisited u hu)
  cases m with
  | onPath k => exact absurd (hwalked.surveyed.below u k hm) (Nat.not_lt_zero k)
  | done => exact (hrank.descends u v hm huv).imp_right And.right

/-- If the search selected nothing, every edge that closed a cycle closed one with a boundary. -/
theorem boundary_of_closes {size : Nat} (hsize : ∀ x, (graph x).isSome → x < size)
    {roots : List ExprId}
    (hnone : (detected isBoundary (visitAll graph (size + 1) roots []).1).selected = [])
    (hclose : Closes (visitAll graph (size + 1) roots []).1 u v) :
    Edge graph u v ∧
      ∃ b, isBoundary b ∧ ReflTransGen (Edge graph) v b ∧ ReflTransGen (Edge graph) b u := by
  have hwalked := (visitAll_walked hsize roots (surveyed_nil graph isBoundary)).1
  exact ⟨hwalked.surveyed.edges u v hclose, (hwalked.surveyed.broken hnone).closed u v hclose⟩

end Packrat.Walk
