import Packrat.Proofs.Histories

/-! # References are resolved once and for all

    Every edge to a reference is redirected to the end of its chain, which is no reference, and
    redirecting an edge makes no node a reference.  So no edge leads to a reference any more
    (`resolveReferences_resolved`), and where none does and no entry point is one, resolving changes
    nothing (`resolveReferences_again`). -/

namespace Packrat

open Relation

/-- A list on which no element faults is mapped as a whole. -/
theorem mapM_ok {α β : Type} {f : α → Except Fault β} {image : α → β} {l : List α}
    (h : ∀ a ∈ l, f a = .ok (image a)) : l.mapM f = .ok (l.map image) := by
  induction l with
  | nil => rfl
  | cons x rest ih =>
      obtain ⟨hx, hrest⟩ := List.forall_mem_cons.mp h
      rw [List.mapM_cons, hx, ih hrest]
      rfl

/-! ## Edits that succeed -/

/-- An edit goes on from what its first part answers. -/
theorem Edit.bind_of_ok {α β : Type} {x : Edit α} {f : α → Edit β} {g g' : Grammar} {a : α}
    (h : x g = .ok a g') : (x >>= f) g = f a g' := by
  simp only [Bind.bind, EStateM.bind, h]

theorem Edit.reading_of_ok {α : Type} {f : Grammar → Except Fault α} {g : Grammar} {a : α}
    (h : f g = .ok a) : Edit.reading f g = .ok a g := by
  rw [Edit.reading, h]

/-! ## Shapes with a child replaced -/

/-- Setting an item that is there is writing to the list. -/
theorem setItem?_some {α : Type} {items items' : List α} {index : Nat} {item : α}
    (h : setItem? items index item = some items') : items' = items.set index item := by
  rw [setItem?] at h
  split at h
  · exact (Option.some.inj h).symm
  · cases h

/-- Alternatives are counted over all groups, in a row. -/
theorem Group.alternatives_setChild? {α : Type} {groups groups' : List (Group α)} {index : Nat}
    {child : α} (h : Group.setChild? groups index child = some groups') :
    groups'.flatMap Group.alternatives = (groups.flatMap Group.alternatives).set index child := by
  induction groups generalizing index groups' with
  | nil => cases h
  | cons g rest ih =>
      rw [Group.setChild?] at h
      rw [List.flatMap_cons, List.set_append]
      split at h
      · rename_i hin
        cases h
        rw [if_pos hin, List.flatMap_cons]
      · rename_i hout
        obtain ⟨rest', hrest, rfl⟩ := Option.map_eq_some_iff.mp h
        rw [if_neg hout, List.flatMap_cons, ih hrest]

/-- One child is replaced, and the form stays. -/
theorem Shape.setChild?_some {α : Type} {s s' : Shape α} {index : Nat} {child : α}
    (h : s.setChild? index child = some s') :
    s'.children = s.children.set index child ∧ s'.isReference = s.isReference := by
  cases s with
  | literal | any | range | set | reference => cases h
  | sequence items | choice items | custom _ items =>
      obtain ⟨items', hitems, rfl⟩ := Option.map_eq_some_iff.mp h
      exact ⟨setItem?_some hitems, rfl⟩
  | cluster groups =>
      obtain ⟨groups', hgroups, rfl⟩ := Option.map_eq_some_iff.mp h
      exact ⟨Group.alternatives_setChild? hgroups, rfl⟩
  | optional | zeroMore | oneMore | lookahead | not | token | capture | leftRecursive
    | minPrecedence =>
      rw [setChild?] at h
      split at h
      · rename_i hzero
        cases h
        subst hzero
        exact ⟨rfl, rfl⟩
      · cases h

namespace Grammar

variable {g g' : Grammar} {limit : Nat} {u v : ExprId}

/-! ## Edges to references -/

/-- No edge leads to a reference. -/
def Resolved (g : Grammar) : Prop :=
  ∀ u s, g.shape? u = some s → ∀ v ∈ s.children, g.isReference v = false

/-- A node with a child replaced is the only one that changes. -/
theorem replaceChild_ok {parent target : ExprId} {index : Nat}
    (h : replaceChild parent index target g = .ok () g') :
    ∃ s s', g.shape? parent = some s ∧ s.setChild? index target = some s' ∧
      ∀ u, g'.shape? u = if u = parent then some s' else g.shape? u := by
  rw [replaceChild] at h
  split at h
  · cases h
  · rename_i e hnode
    split at h
    · cases h
    · rename_i s' hset
      cases h
      refine ⟨e.shape, s', shape?_of_node? hnode, hset, ?_⟩
      intro u
      have hinside : parent < g.nodes.size := lt_size_of_shape? (shape?_of_node? hnode)
      by_cases hu : u = parent
      · subst hu
        simp [shape?, node?, hinside]
      · simp [shape?, node?, Ne.symm hu, hu]

/-- Replacing a child turns no node into a reference, and no reference into another node. -/
theorem replaceChild_isReference {parent target : ExprId} {index : Nat}
    (h : replaceChild parent index target g = .ok () g') (v : ExprId) :
    g'.isReference v = g.isReference v := by
  obtain ⟨s, s', hs, hset, hshapes⟩ := replaceChild_ok h
  rw [isReference, isReference, hshapes]
  split
  · rename_i hv
    subst hv
    rw [hs]
    exact (Shape.setChild?_some hset).2
  · rfl

/-- If every edge to a reference is redirected, and to what is none, none is left. -/
theorem redirectEdges_resolved (edges : List (ExprId × Nat × ExprId))
    (hall : ∀ u s i v, g.shape? u = some s → s.children[i]? = some v → g.isReference v = true →
      ∃ target, (u, i, target) ∈ edges)
    (htargets : ∀ e ∈ edges, g.isReference e.2.2 = false)
    (h : redirectEdges edges g = .ok () g') : g'.Resolved := by
  induction edges generalizing g with
  | nil =>
      cases h
      intro u s hs v hv
      obtain ⟨i, hi⟩ := List.mem_iff_getElem?.mp hv
      by_contra href
      obtain ⟨_, hmem⟩ := hall u s i v hs hi (Bool.eq_true_of_not_eq_false href)
      cases hmem
  | cons edge rest ih =>
      obtain ⟨parent, index, target⟩ := edge
      obtain ⟨htarget, hrest⟩ := List.forall_mem_cons.mp htargets
      obtain ⟨⟨⟩, g₁, hfirst, h⟩ := Edit.bind_ok h
      have hsame := replaceChild_isReference hfirst
      refine ih ?_ (fun e he => by rw [hsame]; exact hrest e he) h
      intro u s i v hs hi hv
      rw [hsame] at hv
      obtain ⟨s₀, s₁, hs₀, hset, hshapes⟩ := replaceChild_ok hfirst
      rw [hshapes] at hs
      -- an edge to a reference is an edge of the node before, and not the one replaced
      have hbefore : ∃ t, g.shape? u = some t ∧ t.children[i]? = some v ∧
          ¬ (u = parent ∧ i = index) := by
        split at hs
        · rename_i hu
          cases hs
          subst hu
          rw [(Shape.setChild?_some hset).1, List.getElem?_set] at hi
          split at hi
          · split at hi
            · cases hi
              cases hv.symm.trans htarget
            · cases hi
          · rename_i hne
            exact ⟨s₀, hs₀, hi, fun hsame => hne hsame.2.symm⟩
        · rename_i hu
          exact ⟨s, hs, hi, fun hsame => hu hsame.1⟩
      obtain ⟨t, ht, hit, hne⟩ := hbefore
      obtain ⟨target', hmem⟩ := hall u t i v ht hit hv
      rcases List.mem_cons.mp hmem with heq | hmem
      · cases heq
        exact absurd ⟨rfl, rfl⟩ hne
      · exact ⟨target', hmem⟩

/-- Of the edges that were followed, those to references are redirected. -/
theorem mem_referenceEdges {events : List Walk.Event} {index : Nat} :
    (u, index, v) ∈ g.referenceEdges events ↔
      .edge u index v ∈ events ∧ g.isReference v = true := by
  induction events with
  | nil => simp [referenceEdges]
  | cons e rest ih =>
      cases e with
      | edge parent i child =>
          rw [referenceEdges]
          split
          · rename_i hchild
            simp only [List.mem_cons, Prod.mk.injEq, ih, Walk.Event.edge.injEq]
            grind
          · rename_i hchild
            simp only [List.mem_cons, ih, Walk.Event.edge.injEq]
            grind
      | enter | missing | cutoff | edgeDone | leave => simp [referenceEdges, ih]

theorem shape?_of_isReference (h : g.isReference v = true) :
    ∃ name, g.shape? v = some (.reference name) := by
  rw [isReference] at h
  cases hs : g.shape? v with
  | none =>
      rw [hs] at h
      cases h
  | some s =>
      rw [hs] at h
      cases s with
      | reference name => exact ⟨name, rfl⟩
      | _ => cases h

/-- What is at the end of a chain of references is none. -/
theorem followReference_resolved {names : List (String × ExprId)} {first : String} {hops : Nat}
    {id target : ExprId} (h : g.followReference names first limit hops id = .ok target) :
    g.isReference target = false := by
  induction hops generalizing id with
  | zero =>
      cases href : g.isReference id with
      | false => rw [followReference_self href h, href]
      | true =>
          obtain ⟨name, hs⟩ := shape?_of_isReference href
          rw [followReference.eq_def] at h
          simp only [hs] at h
          cases h
  | succ hops ih =>
      cases href : g.isReference id with
      | false => rw [followReference_self href h, href]
      | true =>
          obtain ⟨name, hs⟩ := shape?_of_isReference href
          rw [followReference.eq_def] at h
          simp only [hs] at h
          split at h
          · cases h
          · exact ih h

/-- What is no reference is its own target. -/
theorem followReference_eq {names : List (String × ExprId)} {first : String} {hops : Nat}
    {id : ExprId} (hid : id < g.size) (hresolved : g.isReference id = false) :
    g.followReference names first limit hops id = .ok id := by
  obtain ⟨e, hnode⟩ := node?_of_lt_size hid
  have hs := shape?_of_node? hnode
  rw [isReference, hs] at hresolved
  rw [followReference.eq_def]
  simp only [hs]
  cases hshape : e.shape with
  | reference name =>
      rw [hshape] at hresolved
      cases hresolved
  | _ => rfl

/-! ## Resolving -/

/-- Following references ends at a node that is none. -/
theorem referenceTarget_resolved {names : List (String × ExprId)} {id target : ExprId}
    (h : g.referenceTarget names limit id = .ok target) : g.isReference target = false :=
  followReference_resolved h

/-- Resolving leaves no edge to a reference. -/
theorem resolveReferences_resolved {count : Nat} (h : resolveReferences limit g = .ok count g') :
    g'.Resolved := by
  obtain ⟨_, _, hget, h⟩ := Edit.bind_ok h
  cases hget
  obtain ⟨events, _, hwalk, h⟩ := Edit.bind_ok h
  obtain ⟨hwalk, rfl⟩ := Edit.reading_ok hwalk
  obtain ⟨redirections, _, hredirections, h⟩ := Edit.bind_ok h
  obtain ⟨hredirections, rfl⟩ := Edit.reading_ok hredirections
  obtain ⟨entries, g₁, hentries, h⟩ := Edit.bind_ok h
  obtain ⟨-, rfl⟩ := Edit.reading_ok hentries
  obtain ⟨⟨⟩, g₂, hredirect, h⟩ := Edit.bind_ok h
  cases h
  -- the entry points are no part of the nodes
  change g₂.Resolved
  refine redirectEdges_resolved redirections ?_ ?_ hredirect
  · intro u s i v hs hi hv
    have hu : u ∈ g₁.ids := List.mem_range.mpr (lt_size_of_shape? hs)
    have hedge : Walk.Event.edge u i v ∈ events := by
      obtain ⟨rfl, -⟩ := walkOver_eq_ok.mp hwalk
      have hchildren : g₁.children? u = some s.children := by
        rw [children?, hs]
        rfl
      refine Walk.mem_visitAll ?_ hchildren hi
      exact Walk.mem_entered_of_reach (fun _ hx => lt_size_of_children? hx) hu .refl
    have hmem : (u, i, v) ∈ g₁.referenceEdges events := mem_referenceEdges.mpr ⟨hedge, hv⟩
    obtain ⟨e, he, hpair⟩ := exists_of_mapM_ok hredirections hmem
    obtain ⟨target, -, hpair⟩ := ok_of_bind hpair
    cases hpair
    exact ⟨target, he⟩
  · intro e he
    obtain ⟨⟨u, i, v⟩, -, htarget⟩ := (mem_of_mapM_ok hredirections e).mp he
    obtain ⟨target, hfollow, hpair⟩ := ok_of_bind htarget
    cases hpair
    exact referenceTarget_resolved hfollow

/-- Where no edge leads to a reference and no entry point is one, there is nothing to resolve. -/
theorem resolveReferences_again (hclosed : ∀ u s, g.shape? u = some s → ∀ v ∈ s.children, v < g.size)
    (hresolved : g.Resolved)
    (hentries : ∀ id ∈ g.entryPoints, id < g.size ∧ g.isReference id = false) :
    resolveReferences limit g = .ok 0 g := by
  have hknown : ∀ {x}, x < g.size → (g.children? x).isSome := by
    intro x hx
    obtain ⟨e, hnode⟩ := node?_of_lt_size hx
    rw [children?, shape?_of_node? hnode]
    rfl
  have hedge : ∀ u v, Walk.Edge g.children? u v → ∃ s, g.shape? u = some s ∧ v ∈ s.children := by
    rintro u v ⟨children, hchildren, hv⟩
    obtain ⟨s, hs, rfl⟩ := Option.map_eq_some_iff.mp hchildren
    exact ⟨s, hs, hv⟩
  have hwalk : g.walk g.ids = .ok (Walk.visitAll g.children? g.pathBound g.ids []).1 := by
    refine walkOver_ok (fun u v huv => ?_) fun r hr => hknown (List.mem_range.mp hr)
    obtain ⟨s, hs, hv⟩ := hedge u v huv
    exact hknown (hclosed u s hs v hv)
  have hnoEdges : g.referenceEdges (Walk.visitAll g.children? g.pathBound g.ids []).1 = [] := by
    rw [List.eq_nil_iff_forall_not_mem]
    rintro ⟨u, i, v⟩ hmem
    obtain ⟨hmem, hv⟩ := mem_referenceEdges.mp hmem
    obtain ⟨s, hs, hchild⟩ := hedge u v (Walk.edge_of_mem_visitAll rfl hmem)
    rw [hresolved u s hs v hchild] at hv
    cases hv
  generalize (Walk.visitAll g.children? g.pathBound g.ids []).1 = events at hwalk hnoEdges
  have hselves : (g.ruleIds ++ g.root.toList ++ g.whitespace.toList).mapM (m := Except Fault)
        (fun id => do return (id, ← g.referenceTarget (g.nameTable events) limit id)) =
      .ok ((g.ruleIds ++ g.root.toList ++ g.whitespace.toList).map fun id => (id, id)) := by
    refine mapM_ok fun id hid => ?_
    have hentry : id ∈ g.entryPoints := by
      simpa [entryPoints, or_comm, or_assoc, or_left_comm] using hid
    rw [referenceTarget, followReference_eq (hentries id hentry).1 (hentries id hentry).2]
    rfl
  have hsame : ∀ e ∈ (g.ruleIds ++ g.root.toList ++ g.whitespace.toList).map fun id => (id, id),
      e.2 = e.1 := by
    intro e he
    obtain ⟨id, -, rfl⟩ := List.mem_map.mp he
    rfl
  have hread : (get : Edit Grammar) g = .ok g g := rfl
  refine (Edit.bind_of_ok hread).trans ?_
  refine (Edit.bind_of_ok (Edit.reading_of_ok hwalk)).trans ?_
  dsimp only
  rw [hnoEdges]
  simp only [List.mapM_nil]
  have hnone : Edit.reading (fun _ => (pure [] : Except Fault (List (ExprId × Nat × ExprId)))) g =
      .ok [] g := rfl
  refine (Edit.bind_of_ok hnone).trans ?_
  refine (Edit.bind_of_ok (Edit.reading_of_ok hselves)).trans ?_
  exact congrArg (EStateM.Result.ok 0) (repoint_self hsame)

end Grammar

end Packrat
