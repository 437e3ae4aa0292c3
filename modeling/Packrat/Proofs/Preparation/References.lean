import Packrat.Proofs.Preparation.Chains

/-! # References are resolved all or none

    All chains are followed before anything is changed.  A walk over the whole grammar meets every
    edge once, so the edges that are redirected are exactly those to references, each at its own
    place among the children of its node (`Redirecting`).  Either every edge and every entry point
    leads somewhere, and then each of them is sent there and NOTHING ELSE CHANGES, or the grammar
    stays as it is (`resolveReferences_redirects`). -/

namespace Packrat.Edit

variable {g g' : Grammar} {e : Fault}

theorem reading_of_error {α : Type} {f : Grammar → Except Fault α} (h : f g = .error e) :
    reading f g = .error e g := by
  rw [reading, h]

theorem bind_of_error {α β : Type} {x : Edit α} {f : α → Edit β} (h : x g = .error e g') :
    (x >>= f) g = .error e g' := by
  simp only [bind, EStateM.bind, h]

end Packrat.Edit

namespace Packrat.Grammar

variable {g g' : Grammar} {limit : Nat} {id u v : ExprId}

/-! ## Following all chains -/

/-- What a chain leads to, and its start if it breaks. -/
def imageOf (target : ExprId → Except Fault ExprId) (id : ExprId) : ExprId :=
  match target id with
  | .ok image => image
  | .error _ => id

/-- Either all of a list of chains are followed to their ends, or the first that breaks is to
    blame. -/
theorem mapM_ends {α β : Type} (target : ExprId → Except Fault ExprId) (start : α → ExprId)
    (pair : α → ExprId → β) (l : List α) :
    ((∀ a ∈ l, ∃ image, target (start a) = .ok image) ∧
      l.mapM (fun a => do return pair a (← target (start a))) =
        .ok (l.map fun a => pair a (imageOf target (start a)))) ∨
    ∃ a ∈ l, ∃ e, target (start a) = .error e ∧
      l.mapM (fun a => do return pair a (← target (start a))) = .error e := by
  induction l with
  | nil => exact Or.inl ⟨List.forall_mem_nil _, rfl⟩
  | cons a rest ih =>
      rw [List.mapM_cons, List.map_cons, imageOf]
      cases ha : target (start a) with
      | error e => exact Or.inr ⟨a, List.mem_cons_self .., e, ha, rfl⟩
      | ok image =>
          rcases ih with ⟨hrest, hall⟩ | ⟨a', ha', e, hfail, hall⟩
          · refine Or.inl ⟨List.forall_mem_cons.mpr ⟨⟨image, ha⟩, hrest⟩, ?_⟩
            rw [hall]
            rfl
          · refine Or.inr ⟨a', List.mem_cons_of_mem _ ha', e, hfail, ?_⟩
            rw [hall]
            rfl

theorem child_iff_edge : g.Child u v ↔ Walk.Edge g.children? u v := by
  refine ⟨edge_of_child, ?_⟩
  rintro ⟨children, hchildren, hv⟩
  obtain ⟨s, hs, rfl⟩ := Option.map_eq_some_iff.mp hchildren
  exact ⟨s, hs, hv⟩

theorem referenceEdges_eq (events : List Walk.Event) :
    g.referenceEdges events = (Walk.followed events).filter fun edge => g.isReference edge.2.2 := by
  induction events with
  | nil => rfl
  | cons e rest ih =>
      cases e with
      | edge parent index child =>
          rw [referenceEdges, Walk.followed, List.filter_cons, ih]
      | enter | missing | cutoff | edgeDone | leave => exact ih

/-- Children of all nodes, one node after the other. -/
def allChildren (g : Grammar) : List ExprId :=
  g.ids.flatMap fun id => (g.children? id).getD []

/-- The edges to references that a walk over the grammar follows are all there are. -/
theorem length_referenceEdges {events : List Walk.Event} (h : g.walk g.ids = .ok events) :
    (g.referenceEdges events).length = g.allChildren.countP g.isReference := by
  have hends : g.allChildren = (g.ids.flatMap (Walk.edgesOf g.children?)).map (·.2.2) := by
    rw [List.map_flatMap]
    exact congrArg g.ids.flatMap (funext fun id => (Walk.edgesOf_ends g.children? id).symm)
  rw [referenceEdges_eq, ← List.countP_eq_length_filter, (walk_followed h).countP_eq, hends,
    List.countP_map]
  rfl

/-! ## Redirecting -/

/-- Every edge and every entry point goes to its image. -/
def redirected (g : Grammar) (m : ExprId → ExprId) : Grammar :=
  { g.repoint m with nodes := g.nodes.map fun e => { e with shape := e.shape.map m } }

/-- Some edges go to their images, and nothing else is changed. -/
structure Redirecting (g : Grammar) (m : ExprId → ExprId) (done : List (ExprId × Nat))
    (h : Grammar) : Prop where
  size : h.size = g.size
  node : ∀ u e, g.node? u = some e → ∃ s, h.node? u = some { e with shape := s } ∧
    s.form = e.shape.form ∧
    ∀ i, s.children[i]? = e.shape.children[i]?.map fun c => if (u, i) ∈ done then m c else c
  rules : h.rules = g.rules
  root : h.root = g.root
  whitespace : h.whitespace = g.whitespace
  mark : h.prepared = (g.prepared && done.isEmpty)

section Redirections

variable {m : ExprId → ExprId} {done : List (ExprId × Nat)} {h : Grammar}

theorem Redirecting.refl (g : Grammar) (m : ExprId → ExprId) : Redirecting g m [] g where
  size := rfl
  node := by
    intro u e he
    exact ⟨e.shape, he, rfl, fun i => by simp⟩
  rules := rfl
  root := rfl
  whitespace := rfl
  mark := (Bool.and_true _).symm

/-- An edge of the grammar can be redirected, whatever was redirected before. -/
theorem Redirecting.step {i : Nat} {e : Expr} (hdone : Redirecting g m done h)
    (he : g.node? u = some e) (hv : e.shape.children[i]? = some v) :
    ∃ h', replaceChild u i (m v) h = .ok () h' ∧ Redirecting g m ((u, i) :: done) h' := by
  obtain ⟨s, hs, hform, hchildren⟩ := hdone.node u e he
  obtain ⟨hindex, -⟩ := List.getElem?_eq_some_iff.mp ((hchildren i).trans (congrArg _ hv))
  obtain ⟨t, ht⟩ := Shape.exists_setChild? hindex (m v)
  have hnode := node?_setIfInBounds hs { e with shape := t } false
  refine ⟨_, replaceChild_eq hs ht, by simpa [Grammar.size] using hdone.size, ?_, hdone.rules,
    hdone.root, hdone.whitespace, by simp⟩
  intro w ew hw
  by_cases hwu : w = u
  · subst hwu
    cases he.symm.trans hw
    refine ⟨t, (hnode w).trans (if_pos rfl), (Shape.setChild?_form ht).trans hform, fun j => ?_⟩
    rw [(Shape.setChild?_some ht).1, List.getElem?_set]
    split
    · rename_i hij
      subst hij
      simp [hv]
    · rename_i hij
      rw [hchildren]
      simp [Ne.symm hij]
  · obtain ⟨s', hs', hform', hchildren'⟩ := hdone.node w ew hw
    refine ⟨s', (hnode w).trans ((if_neg hwu).trans hs'), hform', fun j => ?_⟩
    rw [hchildren']
    simp [hwu]

/-- All edges listed are redirected. -/
theorem redirectEdges_redirecting (edges : List (ExprId × Nat × ExprId))
    (hedges : ∀ e ∈ edges, ∃ s, g.shape? e.1 = some s ∧ s.children[e.2.1]? = some e.2.2)
    (hdone : Redirecting g m done h) :
    ∃ h', redirectEdges (edges.map fun e => (e.1, e.2.1, m e.2.2)) h = .ok () h' ∧
      Redirecting g m ((edges.map fun e => (e.1, e.2.1)).reverse ++ done) h' := by
  induction edges generalizing done h with
  | nil => exact ⟨h, rfl, hdone⟩
  | cons edge rest ih =>
      obtain ⟨u, i, v⟩ := edge
      obtain ⟨⟨s, hs, hv⟩, hrest⟩ := List.forall_mem_cons.mp hedges
      obtain ⟨e, he, rfl⟩ := Option.map_eq_some_iff.mp hs
      obtain ⟨h₁, hfirst, hdone₁⟩ := hdone.step he hv
      obtain ⟨h', hrun, hall⟩ := ih hrest hdone₁
      refine ⟨h', (Edit.bind_of_ok hfirst).trans hrun, ?_⟩
      simpa using hall

/-- If what was not redirected is its own image, all edges go to their images. -/
theorem Redirecting.nodes (hdone : Redirecting g m done h)
    (hrest : ∀ u s i v, g.shape? u = some s → s.children[i]? = some v → (u, i) ∉ done → m v = v) :
    h.nodes = (g.redirected m).nodes := by
  refine Array.ext_getElem? fun u => ?_
  rw [redirected, Array.getElem?_map]
  cases hu : g.nodes[u]? with
  | none =>
      rw [Array.getElem?_eq_none_iff] at hu
      exact Array.getElem?_eq_none_iff.mpr (hdone.size.trans_le hu)
  | some e =>
      obtain ⟨s, hs, hform, hchildren⟩ := hdone.node u e hu
      obtain rfl : s = e.shape.map m := by
        refine Shape.ext_children (hform.trans (e.shape.form_map m).symm) ?_
        refine List.ext_getElem? fun i => ?_
        rw [hchildren, Shape.children_map, List.getElem?_map]
        cases hi : e.shape.children[i]? with
        | none => rfl
        | some v =>
            rw [Option.map_some, Option.map_some]
            split
            · rfl
            · rename_i hnot
              rw [hrest u e.shape i v (shape?_of_node? hu) hi hnot]
      exact hs

end Redirections

/-! ## Entry points -/

theorem perm_insertRule (r : String × ExprId) (rules : List (String × ExprId)) :
    (insertRule r rules).Perm (r :: rules) := by
  induction rules with
  | nil => exact .refl _
  | cons s rest ih =>
      rw [insertRule]
      split
      · exact (ih.cons s).trans (.swap r s rest)
      · exact .refl _

theorem perm_sortedRules (g : Grammar) : g.sortedRules.Perm g.rules := by
  rw [sortedRules]
  induction g.rules with
  | nil => exact .refl _
  | cons r rest ih => exact (perm_insertRule r _).trans (ih.cons r)

theorem mem_entryPoints :
    v ∈ g.entryPoints ↔ (∃ name, (name, v) ∈ g.rules) ∨ g.root = some v ∨ g.whitespace = some v := by
  simp only [entryPoints, ruleIds, List.mem_append, Option.mem_toList, List.mem_map,
    g.perm_sortedRules.mem_iff, Prod.exists, exists_eq_right]
  tauto

theorem repoint_congr {f f' : ExprId → ExprId} (h : ∀ v ∈ g.entryPoints, f v = f' v) :
    g.repoint f = g.repoint f' := by
  rw [repoint, repoint]
  congr 1
  · refine List.map_congr_left fun r hr => ?_
    exact congrArg (r.1, ·) (h r.2 (mem_entryPoints.mpr (Or.inl ⟨r.1, hr⟩)))
  · exact Option.map_congr fun v hv => h v (mem_entryPoints.mpr (Or.inr (Or.inl hv)))
  · exact Option.map_congr fun v hv => h v (mem_entryPoints.mpr (Or.inr (Or.inr hv)))

theorem lookup_images (m : ExprId → ExprId) {ids : List ExprId} (hv : v ∈ ids) :
    (ids.map fun id => (id, m id)).lookup v = some (m v) := by
  induction ids with
  | nil => cases hv
  | cons id rest ih =>
      rw [List.map_cons, List.lookup_cons]
      cases heq : v == id with
      | true => rw [beq_iff_eq.mp heq]
      | false =>
          refine ih ((List.mem_cons.mp hv).resolve_left ?_)
          exact beq_eq_false_iff_ne.mp heq

/-! ## Resolving -/

theorem imageOf_self (names : List (String × ExprId)) (limit : Nat)
    (hid : g.isReference id = false) : imageOf (g.referenceTarget names limit) id = id := by
  rw [imageOf]
  cases htarget : g.referenceTarget names limit id with
  | ok target => exact followReference_self hid htarget
  | error e => rfl

section Walked

variable {events : List Walk.Event} (hwalk : g.walk g.ids = .ok events)
include hwalk

theorem mem_referenceEdges_walk {i : Nat} :
    (u, i, v) ∈ g.referenceEdges events ↔
      (∃ s, g.shape? u = some s ∧ s.children[i]? = some v) ∧ g.isReference v = true := by
  rw [referenceEdges_eq, List.mem_filter, mem_followed_walk hwalk]

theorem child_lt_size_of_walk (h : g.Child u v) : v < g.size := by
  have hu : u ∈ g.ids := by
    obtain ⟨s, hs, -⟩ := h
    exact List.mem_range.mpr (lt_size_of_shape? hs)
  exact lt_size_of_children? (walk_reaches hwalk hu (.single (edge_of_child h))).2

/-- Once all edges to references are redirected, nothing but the entry points is left. -/
theorem redirectEdges_all {m : ExprId → ExprId} (hself : ∀ v, g.isReference v = false → m v = v) :
    ∃ h, redirectEdges ((g.referenceEdges events).map fun e => (e.1, e.2.1, m e.2.2)) g = .ok () h ∧
      h.entryPoints = g.entryPoints ∧ h.repoint m =
        { g.redirected m with prepared := g.prepared && (g.referenceEdges events).length == 0 } := by
  have hedges : ∀ e ∈ g.referenceEdges events,
      ∃ s, g.shape? e.1 = some s ∧ s.children[e.2.1]? = some e.2.2 :=
    fun e he => ((mem_referenceEdges_walk hwalk).mp he).1
  obtain ⟨h, hrun, hdone⟩ :=
    redirectEdges_redirecting (g.referenceEdges events) hedges (.refl g m)
  have hentries : h.entryPoints = g.entryPoints := by
    rw [entryPoints, entryPoints, ruleIds, ruleIds, sortedRules, sortedRules, hdone.rules, hdone.root,
      hdone.whitespace]
  refine ⟨h, hrun, hentries, ?_⟩
  have hnodes := hdone.nodes fun u s i v hs hv hnot => hself v <| by
    by_contra href
    have hmem := (mem_referenceEdges_walk hwalk).mpr ⟨⟨s, hs, hv⟩, Bool.eq_true_of_not_eq_false href⟩
    simp only [List.append_nil, List.mem_reverse] at hnot
    exact hnot (List.mem_map_of_mem hmem)
  have hmark : h.prepared = (g.prepared && (g.referenceEdges events).length == 0) := by
    rw [hdone.mark]
    cases g.referenceEdges events <;> simp
  rw [repoint, hdone.rules, hdone.root, hdone.whitespace, hnodes, hmark]
  rfl

/-- If the chains of edges and entry points resolve, all that is held does. -/
theorem held_resolves {m : ExprId → ExprId} (hself : ∀ v, g.isReference v = false → m v = v)
    (hentries : ∀ v ∈ g.entryPoints, g.ResolvesTo limit v (m v))
    (hedges : ∀ e ∈ g.referenceEdges events, g.ResolvesTo limit e.2.2 (m e.2.2)) (hv : g.Held v) :
    g.ResolvesTo limit v (m v) := by
  rcases hv with hentry | ⟨u, s, hs, hchild⟩
  · exact hentries v hentry
  · cases href : g.isReference v with
    | true =>
        obtain ⟨i, hi⟩ := List.mem_iff_getElem?.mp hchild
        exact hedges _ ((mem_referenceEdges_walk hwalk).mpr ⟨⟨s, hs, hi⟩, href⟩)
    | false =>
        rw [hself v href]
        exact ⟨⟨0, Nat.zero_le _, .here v⟩, child_lt_size_of_walk hwalk ⟨s, hs, hchild⟩, href⟩

end Walked

/-- A walk that fails meets a node that is held and is not in the grammar. -/
theorem breaks_of_walk {e : Fault} (hwalk : g.walk g.ids = .error e) (limit : Nat) :
    ∃ v, g.Held v ∧ g.Breaks limit v e := by
  obtain ⟨x, rfl, habsent, hmet⟩ := stranger_of_walkOver hwalk
  have houtside : g.shape? x = none := by simpa [children?] using habsent
  refine ⟨x, Or.inr ?_, .outside (.here x) (Nat.zero_le _) houtside⟩
  rcases hmet with hroot | ⟨u, hedge⟩
  · obtain ⟨e, he⟩ := node?_of_lt_size (List.mem_range.mp hroot)
    cases houtside.symm.trans (shape?_of_node? he)
  · exact ⟨u, child_iff_edge.mpr hedge⟩

/-- Either all that is held resolves and is sent where it leads, or one chain breaks, and nothing is
    changed. -/
theorem resolveReferences_ends (hrules : (g.rules.map Prod.fst).Nodup) (limit : Nat) :
    (∃ m : ExprId → ExprId, (∀ v, g.Held v → g.ResolvesTo limit v (m v)) ∧
      (∀ v, g.isReference v = false → m v = v) ∧
      ∃ count, count = g.allChildren.countP g.isReference ∧
        resolveReferences limit g =
          .ok count { g.redirected m with prepared := g.prepared && count == 0 }) ∨
    ∃ v e, g.Held v ∧ g.Breaks limit v e ∧ resolveReferences limit g = .error e g := by
  have hread : (get : Edit Grammar) g = .ok g g := rfl
  rw [resolveReferences, Edit.bind_of_ok hread]
  cases hwalk : g.walk g.ids with
  | error e =>
      obtain ⟨v, hheld, hbreaks⟩ := breaks_of_walk hwalk limit
      exact Or.inr ⟨v, e, hheld, hbreaks, Edit.bind_of_error (Edit.reading_of_error hwalk)⟩
  | ok events =>
      rw [Edit.bind_of_ok (Edit.reading_of_ok hwalk)]
      dsimp only
      have hends := referenceTarget_ends (lookup_nameTable hrules hwalk) limit
      generalize g.nameTable events = names at hends
      have hentry : ∀ {v}, v ∈ g.ruleIds ++ g.root.toList ++ g.whitespace.toList ↔
          v ∈ g.entryPoints := by
        simp [entryPoints, or_comm, or_assoc]
      -- the first chain that breaks is the one of an edge, or of an entry point after all edges
      rcases mapM_ends (g.referenceTarget names limit) (fun e => e.2.2)
          (fun e image => (e.1, e.2.1, image)) (g.referenceEdges events) with
        ⟨hedges, hall⟩ | ⟨⟨u, i, v⟩, hmem, e, hfail, hall⟩
      swap
      · obtain ⟨⟨s, hs, hv⟩, -⟩ := (mem_referenceEdges_walk hwalk).mp hmem
        have hbreaks := hends v
        rw [hfail] at hbreaks
        exact Or.inr ⟨v, e, Or.inr ⟨u, s, hs, List.mem_of_getElem? hv⟩, hbreaks,
          Edit.bind_of_error (Edit.reading_of_error hall)⟩
      rw [Edit.bind_of_ok (Edit.reading_of_ok hall)]
      rcases mapM_ends (g.referenceTarget names limit) id (fun id image => (id, image))
          (g.ruleIds ++ g.root.toList ++ g.whitespace.toList) with
        ⟨hentries, hall'⟩ | ⟨v, hmem, e, hfail, hall'⟩
      swap
      · have hbreaks := hends (id v)
        rw [hfail] at hbreaks
        exact Or.inr ⟨v, e, Or.inl (hentry.mp hmem), hbreaks,
          Edit.bind_of_error (Edit.reading_of_error hall')⟩
      rw [Edit.bind_of_ok (Edit.reading_of_ok hall')]
      have hresolves : ∀ {v}, (∃ image, g.referenceTarget names limit v = .ok image) →
          g.ResolvesTo limit v (imageOf (g.referenceTarget names limit) v) := by
        rintro v ⟨image, himage⟩
        have hresolves := hends v
        rw [himage] at hresolves
        rwa [imageOf, himage]
      have hself : ∀ v, g.isReference v = false →
          imageOf (g.referenceTarget names limit) v = v := fun v hv => imageOf_self names limit hv
      generalize imageOf (g.referenceTarget names limit) = m at hall hall' hresolves hself ⊢
      obtain ⟨h, hrun, hsame, hrepoint⟩ := redirectEdges_all hwalk hself
      rw [Edit.bind_of_ok hrun]
      refine Or.inl ⟨m, ?_, hself, _, length_referenceEdges hwalk, ?_⟩
      · exact fun v hv => held_resolves hwalk hself
          (fun v hv => hresolves (hentries v (hentry.mpr hv)))
          (fun e he => hresolves (hedges e he)) hv
      · rw [← hrepoint]
        refine congrArg (EStateM.Result.ok _) (repoint_congr fun v hv => ?_)
        rw [hsame] at hv
        simp only [id_eq]
        rw [lookup_images m (hentry.mpr hv)]
        rfl

/-! ## What is resolved -/

theorem shape?_redirected (m : ExprId → ExprId) (u : ExprId) :
    (g.redirected m).shape? u = (g.shape? u).map (Shape.map m) := by
  rw [shape?, shape?, node?, node?, redirected, Array.getElem?_map, Option.map_map, Option.map_map]
  rfl

theorem isReference_redirected (m : ExprId → ExprId) (u : ExprId) :
    (g.redirected m).isReference u = g.isReference u := by
  rw [isReference, isReference, shape?_redirected]
  cases g.shape? u with
  | none => rfl
  | some s => cases s <;> rfl

/-- What is held after redirecting is the image of what was held before. -/
theorem held_redirected {m : ExprId → ExprId} (hv : (g.redirected m).Held v) :
    ∃ w, g.Held w ∧ m w = v := by
  rcases hv with hentry | ⟨u, t, ht, hchild⟩
  · rw [mem_entryPoints] at hentry
    rcases hentry with ⟨name, hrule⟩ | hroot | hwhitespace
    · obtain ⟨⟨other, w⟩, hw, heq⟩ := List.mem_map.mp hrule
      cases heq
      exact ⟨w, Or.inl (mem_entryPoints.mpr (Or.inl ⟨_, hw⟩)), rfl⟩
    · obtain ⟨w, hw, rfl⟩ := Option.map_eq_some_iff.mp hroot
      exact ⟨w, Or.inl (mem_entryPoints.mpr (Or.inr (Or.inl hw))), rfl⟩
    · obtain ⟨w, hw, rfl⟩ := Option.map_eq_some_iff.mp hwhitespace
      exact ⟨w, Or.inl (mem_entryPoints.mpr (Or.inr (Or.inr hw))), rfl⟩
  · rw [shape?_redirected] at ht
    obtain ⟨s, hs, rfl⟩ := Option.map_eq_some_iff.mp ht
    rw [Shape.children_map] at hchild
    obtain ⟨w, hw, rfl⟩ := List.mem_map.mp hchild
    exact ⟨w, Or.inr ⟨u, s, hs, hw⟩, rfl⟩

/-- Where all that was held resolves, no reference is held any more. -/
theorem redirected_resolved {m : ExprId → ExprId} (hm : ∀ v, g.Held v → g.ResolvesTo limit v (m v))
    (hv : (g.redirected m).Held v) : (g.redirected m).isReference v = false := by
  obtain ⟨w, hw, rfl⟩ := held_redirected hv
  rw [isReference_redirected]
  exact (hm w hw).final

/-- References resolve if and only if all that edges, rules, root and whitespace refer to leads to a
    node that is no reference.  Then each of them is sent to that node, the edges to references are
    counted, and nothing else changes but the mark.  Otherwise one of the chains that break is the
    fault, and the grammar is as before. -/
theorem resolveReferences_redirects (hrules : (g.rules.map Prod.fst).Nodup) (limit : Nat) :
    ((∃ count g', resolveReferences limit g = .ok count g') ↔
      ∀ v, g.Held v → ∃ target, g.ResolvesTo limit v target) ∧
    (∀ count g', resolveReferences limit g = .ok count g' →
      count = g.allChildren.countP g.isReference ∧
      (∃ m : ExprId → ExprId, (∀ v, g.Held v → g.ResolvesTo limit v (m v)) ∧
        (∀ v, g.isReference v = false → m v = v) ∧
        g' = { g.redirected m with prepared := g.prepared && count == 0 }) ∧
      ∀ v, g'.Held v → g'.isReference v = false) ∧
    ∀ e g', resolveReferences limit g = .error e g' →
      g' = g ∧ ∃ v, g.Held v ∧ g.Breaks limit v e := by
  rcases resolveReferences_ends hrules limit with
    ⟨m, hm, hself, count, hcount, hrun⟩ | ⟨v, e, hheld, hbreaks, hrun⟩
  · refine ⟨⟨fun _ v hv => ⟨m v, hm v hv⟩, fun _ => ⟨_, _, hrun⟩⟩, ?_, ?_⟩
    · intro count' g' h
      cases hrun.symm.trans h
      exact ⟨hcount, ⟨m, hm, hself, rfl⟩, fun v hv => redirected_resolved hm hv⟩
    · intro e g' h
      cases hrun.symm.trans h
  · refine ⟨⟨?_, fun hall => ?_⟩, ?_, ?_⟩
    · rintro ⟨count, g', h⟩
      cases hrun.symm.trans h
    · obtain ⟨target, htarget⟩ := hall v hheld
      exact absurd htarget hbreaks.not_resolvesTo
    · intro count g' h
      cases hrun.symm.trans h
    · intro e' g' h
      cases hrun.symm.trans h
      exact ⟨rfl, v, hheld, hbreaks⟩

/-- A rule that is an alias of a name that only a node has.  The sequence leads to that node over
    two references. -/
def aliased : Grammar :=
  { nodes := #[.ofShape (.sequence [1, 2]), .ofShape (.reference "alias"),
      { name := some "word", shape := .literal "w", flags := {} }, .ofShape (.reference "word")]
    rules := [("top", 0), ("alias", 3)]
    root := some 0 }

theorem resolveReferences_aliased :
    (∃ g', resolveReferences 2 aliased = .ok 1 g') ∧ resolveReferences 1 aliased =
      .error (.grammar (.referenceChainTooLong "alias" 1)) aliased :=
  ⟨⟨_, by cbv⟩, by cbv⟩

theorem resolveReferences_redirects_aliased :
    (aliased.rules.map Prod.fst).Nodup ∧
      (∀ v, aliased.Held v → ∃ target, aliased.ResolvesTo 2 v target) ∧
      ∃ v, aliased.Held v ∧ aliased.Breaks 1 v (.grammar (.referenceChainTooLong "alias" 1)) := by
  have hrules : (aliased.rules.map Prod.fst).Nodup := by decide
  obtain ⟨⟨g', hwithin⟩, hbeyond⟩ := resolveReferences_aliased
  exact ⟨hrules, (resolveReferences_redirects hrules 2).1.mp ⟨1, g', hwithin⟩,
    ((resolveReferences_redirects hrules 1).2.2 _ _ hbeyond).2⟩

end Packrat.Grammar
