import Mathlib.Data.Finset.Card
import Mathlib.Data.Finset.Range
import Mathlib.Data.Set.Card
import Packrat.Grammar.Copy
import Packrat.Proofs.Relabeling.Invocation
import Packrat.Proofs.Relabeling.Shapes

/-! # A copy is the original under other ids

    Copying a sub-graph only adds nodes.  Every node that is met gets one duplicate, which in the
    end has the shape of the node over the duplicates of its children.  A child may still be at work
    when its parent is done, but its duplicate is there already, so what is said of a finished
    duplicate stays true while others are made (`Duplicate.later`).  Every call finishes the
    duplicates that it made and leaves the others alone (`copyFrom_copies`); a copy has no others,
    so it is the original under the ids of the duplicates (`deepCopy_copies`).

    Shared nodes are never met and stand for themselves.  What is met is what can be reached
    WITHOUT PASSING THROUGH A SHARED NODE (`Unshared`), node by node, and the copy is isomorphic to
    that region (`deepCopySharing_isomorphic`). -/

namespace Packrat.Grammar

open Finset Relation

variable {g g' h h₁ h₂ h' : Grammar} {copies copies₁ copies₂ copies' : Copies}
variable {id copy : ExprId} {e : Expr} {region : ExprId → Prop}

/-! ## Redirecting a duplicate -/

/-- One node may differ from before, and nothing else. -/
structure Redirected (copy : ExprId) (e : Expr) (h h' : Grammar) : Prop where
  node : ∀ i, h'.node? i = if i = copy then some e else h.node? i
  size : h'.size = h.size
  rules : h'.rules = h.rules
  root : h'.root = h.root
  whitespace : h'.whitespace = h.whitespace

/-- The children after those that are done are replaced by the targets. -/
theorem redirect_children {targets done rest : List ExprId} (he : h.node? copy = some e)
    (hchildren : e.shape.children = done ++ rest) (hlength : rest.length = targets.length) :
    ∃ s, s.form = e.shape.form ∧ s.children = done ++ targets ∧
      Redirected copy { e with shape := s } h (redirect copy done.length targets h) := by
  induction targets generalizing h e done rest with
  | nil =>
      obtain rfl : rest = [] := List.length_eq_zero_iff.mp hlength
      refine ⟨e.shape, rfl, hchildren, ?_, rfl, rfl, rfl, rfl⟩
      intro i
      split
      · rename_i hi
        exact hi ▸ he
      · rfl
  | cons target targets ih =>
      obtain ⟨child, rest, rfl⟩ : ∃ child rest', rest = child :: rest' :=
        List.exists_cons_of_length_eq_add_one hlength
      have hindex : done.length < e.shape.children.length := by rw [hchildren]; simp
      obtain ⟨s, hs⟩ := Shape.exists_setChild? hindex target
      have hnode := node?_setIfInBounds he { e with shape := s } false
      have hset : s.children = (done ++ [target]) ++ rest := by
        rw [(Shape.setChild?_some hs).1, hchildren]
        simp
      obtain ⟨s', hform, hs', hrest⟩ := ih (e := { e with shape := s })
        ((hnode copy).trans (if_pos rfl)) hset (Nat.succ.inj hlength)
      rw [List.length_append, List.length_singleton] at hrest
      refine ⟨s', hform.trans (Shape.setChild?_form hs), by rw [hs', List.append_assoc]; rfl, ?_⟩
      rw [redirect, replaceChild_eq he hs]
      refine ⟨?_, hrest.size.trans ?_, hrest.rules, hrest.root, hrest.whitespace⟩
      · intro i
        rw [hrest.node]
        split
        · rfl
        · rename_i hi
          rw [hnode, if_neg hi]
      · simp [Grammar.size]

/-- All children are replaced by their images. -/
theorem redirect_map (he : h.node? copy = some e) (f : ExprId → ExprId) :
    Redirected copy { e with shape := e.shape.map f } h
      (redirect copy 0 (e.shape.children.map f) h) := by
  have hchildren : e.shape.children = [] ++ e.shape.children := rfl
  obtain ⟨s, hform, hs, hredirected⟩ :=
    redirect_children he hchildren (e.shape.children.length_map f).symm
  obtain rfl : s = e.shape.map f := by
    refine Shape.ext_children (hform.trans (e.shape.form_map f).symm) ?_
    rw [hs, Shape.children_map]
    rfl
  exact hredirected

/-! ## Copies at work -/

/-- The nodes of the original are as they were, and so are its entry points.  Nodes that were met
    are in a region, and have duplicates of their own behind the original, which are all that is
    there. -/
structure Copying (g : Grammar) (region : ExprId → Prop) (copies : Copies) (h : Grammar) :
    Prop where
  size : h.size = g.size + copies.length
  originals : ∀ i < g.size, h.node? i = g.node? i
  rules : h.rules = g.rules
  root : h.root = g.root
  whitespace : h.whitespace = g.whitespace
  once : (copies.map Prod.fst).Nodup
  sources : ∀ i c, copies.lookup i = some c → region i
  fresh : ∀ i c, copies.lookup i = some c → g.size ≤ c ∧ c < h.size
  injective : ∀ i j c, copies.lookup i = some c → copies.lookup j = some c → i = j

theorem Copying.size_le (h : Copying g region copies h₁) : g.size ≤ h₁.size :=
  (Nat.le_add_right ..).trans h.size.ge

/-- The duplicate has the shape of the node over what stands for its children; those of the region
    have duplicates. -/
def Duplicate (g : Grammar) (region : ExprId → Prop) (copies : Copies) (h : Grammar)
    (i c : ExprId) : Prop :=
  ∃ e, g.node? i = some e ∧ h.node? c = some { e with shape := e.shape.map copies.target } ∧
    ∀ child ∈ e.shape.children, region child → (copies.lookup child).isSome

/-- More was copied: nodes and duplicates that were there stay, and the new duplicates are
    finished. -/
structure Copied (g : Grammar) (region : ExprId → Prop) (copies : Copies) (h : Grammar)
    (copies' : Copies) (h' : Grammar) : Prop where
  size : h.size ≤ h'.size
  kept : ∀ i < h.size, h'.node? i = h.node? i
  found : ∀ i c, copies.lookup i = some c → copies'.lookup i = some c
  finished : ∀ i c, copies'.lookup i = some c →
    copies.lookup i = some c ∨ region i ∧ h.size ≤ c ∧ g.Duplicate region copies' h' i c

theorem Copied.refl : Copied g region copies h copies h :=
  ⟨le_rfl, fun _ _ => rfl, fun _ _ hc => hc, fun _ _ => .inl⟩

theorem Copied.isSome (hcopied : Copied g region copies h copies' h')
    (hid : (copies.lookup id).isSome) : (copies'.lookup id).isSome := by
  obtain ⟨c, hc⟩ := Option.isSome_iff_exists.mp hid
  rw [hcopied.found id c hc]
  rfl

/-- A finished duplicate stays what it is: of its children, those of the region have their
    duplicates, and the others get none. -/
theorem Duplicate.later {i c : ExprId} (hduplicate : g.Duplicate region copies h i c)
    (hcopied : Copied g region copies h copies' h') (hc : c < h.size) :
    g.Duplicate region copies' h' i c := by
  obtain ⟨e, he, hnode, hchildren⟩ := hduplicate
  refine ⟨e, he, ?_, fun child hchild hin => hcopied.isSome (hchildren child hchild hin)⟩
  have htargets : ∀ child ∈ e.shape.children, copies.target child = copies'.target child := by
    intro child hchild
    rw [Copies.target, Copies.target]
    congr 1
    cases hnew : copies'.lookup child with
    | none =>
        refine Option.eq_none_iff_forall_ne_some.mpr fun d hd => ?_
        cases hnew.symm.trans (hcopied.found child d hd)
    | some d =>
        rcases hcopied.finished child d hnew with hold | ⟨hin, -⟩
        · exact hold
        · obtain ⟨d', hd'⟩ := Option.isSome_iff_exists.mp (hchildren child hchild hin)
          rw [← hnew, hd', hcopied.found child d' hd']
  rw [hcopied.kept c hc, hnode, Shape.map_congr htargets]

theorem Copied.trans (hfirst : Copied g region copies h copies₁ h₁)
    (hcopying : Copying g region copies₁ h₁) (hsecond : Copied g region copies₁ h₁ copies₂ h₂) :
    Copied g region copies h copies₂ h₂ where
  size := hfirst.size.trans hsecond.size
  kept i hi := (hsecond.kept i (hi.trans_le hfirst.size)).trans (hfirst.kept i hi)
  found i c hc := hsecond.found i c (hfirst.found i c hc)
  finished i c hc := by
    rcases hsecond.finished i c hc with hold | ⟨hle, hnew⟩
    · refine (hfirst.finished i c hold).imp_right fun ⟨hin, hle, hduplicate⟩ => ⟨hin, hle, ?_⟩
      exact hduplicate.later hsecond (hcopying.fresh i c hold).2
    · exact .inr ⟨hle, hfirst.size.trans hnew.1, hnew.2⟩

/-! ## Meeting a node -/

theorem lookup_copies_cons (copies : Copies) (id copy i : ExprId) :
    List.lookup i ((id, copy) :: copies) = if i = id then some copy else copies.lookup i :=
  Ordered.lookup_cons_eq i id copy copies

theorem node?_push (h : Grammar) (e : Expr) (i : ExprId) :
    (h.push e).2.node? i = if i = h.size then some e else h.node? i :=
  Array.getElem?_push ..

theorem size_push (h : Grammar) (e : Expr) : (h.push e).2.size = h.size + 1 :=
  Array.size_push ..

/-- A node that is met gets a duplicate of its own. -/
theorem Copying.push (hcopying : Copying g region copies h) (hid : region id)
    (hnew : copies.lookup id = none) (e : Expr) :
    Copying g region ((id, h.size) :: copies) (h.push e).2 where
  size := by rw [size_push, hcopying.size, List.length_cons, Nat.add_assoc]
  originals i hi := by
    rw [node?_push, if_neg (hi.trans_le hcopying.size_le).ne, hcopying.originals i hi]
  rules := hcopying.rules
  root := hcopying.root
  whitespace := hcopying.whitespace
  once := by
    refine List.nodup_cons.mpr ⟨fun hmem => ?_, hcopying.once⟩
    rw [← Ordered.isSome_lookup, hnew] at hmem
    cases hmem
  sources i c hc := by
    rw [lookup_copies_cons] at hc
    split at hc
    · rename_i hi
      exact hi ▸ hid
    · exact hcopying.sources i c hc
  fresh i c hc := by
    rw [size_push]
    rw [lookup_copies_cons] at hc
    split at hc
    · cases hc
      exact ⟨hcopying.size_le, Nat.lt_succ_self _⟩
    · exact (hcopying.fresh i c hc).imp_right Nat.lt_succ_of_lt
  injective i j c hi hj := by
    -- the new duplicate is behind all others
    have hbehind : ∀ k, copies.lookup k ≠ some h.size := fun k hk =>
      (hcopying.fresh k _ hk).2.ne rfl
    rw [lookup_copies_cons] at hi hj
    split at hi <;> split at hj
    · simp_all
    · cases hi
      exact (hbehind j hj).elim
    · cases hj
      exact (hbehind i hi).elim
    · exact hcopying.injective i j c hi hj

/-- When a duplicate is redirected, the other nodes stay. -/
theorem Copying.redirected (hcopying : Copying g region copies h) (hcopy : g.size ≤ copy)
    (hredirected : Redirected copy e h h') : Copying g region copies h' where
  size := hredirected.size.trans hcopying.size
  originals i hi := by
    rw [hredirected.node, if_neg (hi.trans_le hcopy).ne, hcopying.originals i hi]
  rules := hredirected.rules.trans hcopying.rules
  root := hredirected.root.trans hcopying.root
  whitespace := hredirected.whitespace.trans hcopying.whitespace
  once := hcopying.once
  sources := hcopying.sources
  fresh i c hc := hredirected.size ▸ hcopying.fresh i c hc
  injective := hcopying.injective

/-- A node is copied when a duplicate was added, its children were copied and the duplicate was
    redirected to theirs. -/
theorem Copied.node (hid : region id) (hnew : copies.lookup id = none) (he : g.node? id = some e)
    (hchildren : Copied g region ((id, h.size) :: copies) (h.push e).2 copies' h₁)
    (hthere : ∀ child ∈ e.shape.children, region child → (copies'.lookup child).isSome)
    (hredirected : Redirected h.size { e with shape := e.shape.map copies'.target } h₁ h') :
    Copied g region copies h copies' h' := by
  have hlarger : h.size + 1 ≤ h₁.size := size_push h e ▸ hchildren.size
  have hself : copies'.lookup id = some h.size :=
    hchildren.found id h.size ((lookup_copies_cons ..).trans (if_pos rfl))
  have hother : ∀ i, i ≠ id → List.lookup i ((id, h.size) :: copies) = copies.lookup i :=
    fun i hi => (lookup_copies_cons ..).trans (if_neg hi)
  refine ⟨hredirected.size ▸ (Nat.le_succ _).trans hlarger, ?_, ?_, ?_⟩
  · intro i hi
    rw [hredirected.node, if_neg hi.ne, hchildren.kept i (by rw [size_push]; omega), node?_push,
      if_neg hi.ne]
  · intro i c hc
    have hi : i ≠ id := by
      rintro rfl
      cases hnew.symm.trans hc
    exact hchildren.found i c ((hother i hi).trans hc)
  · intro i c hc
    by_cases hi : i = id
    · subst hi
      obtain rfl : h.size = c := Option.some.inj (hself.symm.trans hc)
      exact .inr ⟨hid, le_rfl, e, he, (hredirected.node _).trans (if_pos rfl), hthere⟩
    · refine (hchildren.finished i c hc).imp (fun hold => (hother i hi).symm.trans hold) ?_
      rintro ⟨hin, hle, e', he', hnode, hbelow⟩
      rw [size_push] at hle
      have hne : c ≠ h.size := (Nat.lt_of_succ_le hle).ne'
      refine ⟨hin, Nat.le_of_succ_le hle, e', he', ?_, hbelow⟩
      rw [hredirected.node, if_neg hne, hnode]

/-! ## Copying -/

/-- Number of nodes that were not met. -/
def unmet (g : Grammar) (copies : Copies) : Nat :=
  #{i ∈ range g.size | copies.lookup i = none}

theorem Copied.unmet_le (hcopied : Copied g region copies h copies' h') :
    g.unmet copies' ≤ g.unmet copies := by
  refine card_le_card fun i hi => ?_
  obtain ⟨hrange, hnone⟩ := mem_filter.mp hi
  refine mem_filter.mpr ⟨hrange, ?_⟩
  by_contra hsome
  obtain ⟨c, hc⟩ := Option.ne_none_iff_exists'.mp hsome
  cases hnone.symm.trans (hcopied.found i c hc)

theorem unmet_cons_lt (hid : id < g.size) (hnew : copies.lookup id = none) (copy : ExprId) :
    g.unmet ((id, copy) :: copies) < g.unmet copies := by
  refine card_lt_card ⟨fun i hi => ?_, fun hsubset => ?_⟩
  · obtain ⟨hrange, hnone⟩ := mem_filter.mp hi
    rw [lookup_copies_cons] at hnone
    split at hnone
    · cases hnone
    · exact mem_filter.mpr ⟨hrange, hnone⟩
  · have hmem := hsubset (mem_filter.mpr ⟨mem_range.mpr hid, hnew⟩)
    have hnone := (mem_filter.mp hmem).2
    rw [lookup_copies_cons, if_pos rfl] at hnone
    cases hnone

/-- Copying ends with a duplicate of each node that it was to meet, and all duplicates made on the
    way are finished. -/
def Copies.Made (g : Grammar) (region : ExprId → Prop) (copies : Copies) (h : Grammar)
    (run : Edit Copies) (met : ExprId → Prop) : Prop :=
  ∃ copies' h', run h = .ok copies' h' ∧ Copying g region copies' h' ∧
    Copied g region copies h copies' h' ∧ ∀ i, met i → region i → (copies'.lookup i).isSome

variable {shared : List ExprId}

theorem copyEach_copies {copyChild : ExprId → Copies → Edit Copies} {bound : Nat}
    (hchild : ∀ {id copies h}, Copying g region copies h → id ∈ shared ∨ region id →
      g.unmet copies < bound → copies.Made g region h (copyChild id copies) (· = id))
    (children : List ExprId) (hcopying : Copying g region copies h)
    (hregion : ∀ i ∈ children, i ∈ shared ∨ region i) (hbound : g.unmet copies < bound) :
    copies.Made g region h (copyEach copyChild children copies) (· ∈ children) := by
  induction children generalizing copies h with
  | nil => exact ⟨copies, h, rfl, hcopying, .refl, fun i hi => absurd hi List.not_mem_nil⟩
  | cons child rest ih =>
      obtain ⟨hhead, hrest⟩ := List.forall_mem_cons.mp hregion
      obtain ⟨copies₁, h₁, hrun, hcopying₁, hcopied₁, hmet⟩ := hchild hcopying hhead hbound
      obtain ⟨copies₂, h₂, hruns, hcopying₂, hcopied₂, hmets⟩ :=
        ih hcopying₁ hrest (hcopied₁.unmet_le.trans_lt hbound)
      refine ⟨copies₂, h₂, ?_, hcopying₂, hcopied₁.trans hcopying₁ hcopied₂, ?_⟩
      · rw [copyEach, Edit.bind_of_ok hrun, hruns]
      · exact List.forall_mem_cons.mpr
          ⟨fun hin => hcopied₂.isSome (hmet child rfl hin), hmets⟩

/-- With a bound above the number of nodes that were not met, copying ends. -/
theorem copyFrom_copies (hinside : ∀ i, region i → i < g.size) (hapart : ∀ i, region i → i ∉ shared)
    (hclosed : ∀ i e, region i → g.node? i = some e →
      ∀ child ∈ e.shape.children, child ∈ shared ∨ region child)
    (bound : Nat) (hcopying : Copying g region copies h) (hid : id ∈ shared ∨ region id)
    (hbound : g.unmet copies < bound) :
    copies.Made g region h (copyFrom shared bound id copies) (· = id) := by
  induction bound generalizing id copies h with
  | zero => omega
  | succ bound ih =>
      rw [copyFrom]
      by_cases hskip : (shared.contains id || (copies.lookup id).isSome) = true
      · rw [if_pos hskip]
        refine ⟨copies, h, rfl, hcopying, .refl, ?_⟩
        rintro _ rfl hin
        simpa [hapart _ hin] using hskip
      · rw [if_neg hskip]
        obtain ⟨hplain, hnew⟩ : id ∉ shared ∧ copies.lookup id = none := by
          rwa [Bool.or_eq_true, not_or, List.contains_iff_mem, Option.not_isSome_iff_eq_none]
            at hskip
        have hin : region id := hid.resolve_left hplain
        obtain ⟨e, he⟩ := node?_of_lt_size (hinside id hin)
        have hnode : h.node? id = some e := (hcopying.originals id (hinside id hin)).trans he
        have hstep := unmet_cons_lt (hinside id hin) hnew h.size
        obtain ⟨copies', h₁, hrun, hcopying₁, hcopied, hthere⟩ :=
          copyEach_copies ih e.shape.children (hcopying.push hin hnew e) (hclosed id e hin he)
            (by omega)
        have hself : copies'.lookup id = some h.size :=
          hcopied.found id h.size ((lookup_copies_cons ..).trans (if_pos rfl))
        -- the duplicate was not touched while the children were copied
        have hcopy : h₁.node? h.size = some e := by
          rw [hcopied.kept h.size (by rw [size_push]; omega), node?_push, if_pos rfl]
        have hredirected := redirect_map hcopy copies'.target
        refine ⟨copies', redirect h.size 0 (e.shape.children.map copies'.target) h₁, ?_,
          hcopying₁.redirected hcopying.size_le hredirected,
          .node hin hnew he hcopied hthere hredirected, ?_⟩
        · have hread : Edit.reading (·.node id) h = .ok e h :=
            Edit.reading_of_ok (by rw [Grammar.node, hnode])
          rw [Edit.bind_of_ok hread]
          change (copyEach (copyFrom shared bound) e.shape.children ((id, h.size) :: copies) >>= _)
            (h.push e).2 = _
          rw [Edit.bind_of_ok hrun]
          rfl
        · rintro _ rfl -
          rw [hself]
          rfl

/-! ## Copies of a region -/

/-- The node can be reached without passing through a shared node, and is none. -/
def Unshared (g : Grammar) (shared : List ExprId) (root x : ExprId) : Prop :=
  root ∉ shared ∧ ReflTransGen (fun u v => g.Child u v ∧ v ∉ shared) root x

theorem Unshared.not_mem {root x : ExprId} (h : g.Unshared shared root x) : x ∉ shared := by
  obtain ⟨hroot, hreach⟩ := h
  cases hreach with
  | refl => exact hroot
  | tail _ hedge => exact hedge.2

theorem Unshared.child {root x child : ExprId} (h : g.Unshared shared root x)
    (hx : g.node? x = some e) (hchild : child ∈ e.shape.children) :
    child ∈ shared ∨ g.Unshared shared root child := by
  by_cases hshared : child ∈ shared
  · exact Or.inl hshared
  · exact Or.inr ⟨h.1, h.2.tail ⟨⟨e.shape, shape?_of_node? hx, hchild⟩, hshared⟩⟩

theorem copying_nil (g : Grammar) (region : ExprId → Prop) : Copying g region [] g where
  size := rfl
  originals _ _ := rfl
  rules := rfl
  root := rfl
  whitespace := rfl
  once := List.nodup_nil
  sources i c hc := by cases hc
  fresh i c hc := by cases hc
  injective i j c hi := by cases hi

/-- Copying ends with finished duplicates of the nodes that can be reached without passing through a
    shared one. -/
theorem deepCopySharing_copies {root : ExprId}
    (hinside : ∀ i, g.Unshared shared root i → i < g.size) :
    ∃ copies g', deepCopySharing root shared g = .ok (Copies.target copies root) g' ∧
      Copying g (g.Unshared shared root) copies g' ∧
      Copied g (g.Unshared shared root) [] g copies g' ∧
      (g.Unshared shared root root → (copies.lookup root).isSome) := by
  have hbound : g.unmet [] < 2 * (g.size + g.edgeCount) + 2 := by
    have hle : g.unmet [] ≤ g.size := (card_filter_le ..).trans (card_range g.size).le
    omega
  have hroot : root ∈ shared ∨ g.Unshared shared root root := by
    by_cases hshared : root ∈ shared
    · exact Or.inl hshared
    · exact Or.inr ⟨hshared, .refl⟩
  obtain ⟨copies, g', hrun, hcopying, hcopied, hmet⟩ :=
    copyFrom_copies hinside (fun _ hi => hi.not_mem) (fun _ _ hi he _ hchild => hi.child he hchild)
      _ (copying_nil g _) hroot hbound
  refine ⟨copies, g', ?_, hcopying, hcopied, hmet root rfl⟩
  change (copyFrom shared (2 * (g.size + g.edgeCount) + 2) root [] >>= _) g = _
  rw [Edit.bind_of_ok hrun]
  rfl

theorem unshared_nil {root x : ExprId} :
    g.Unshared [] root x ↔ ReflTransGen g.Child root x := by
  have hedge : (fun u v => g.Child u v ∧ v ∉ ([] : List ExprId)) = g.Child := by
    funext u v
    simp
  rw [Unshared, hedge, and_iff_right List.not_mem_nil]

/-- Copying a sub-graph that lies in the grammar ends with finished duplicates of nodes of it. -/
theorem deepCopy_copies {root : ExprId}
    (hinside : ∀ i, ReflTransGen g.Child root i → i < g.size) :
    ∃ copies g', deepCopy root g = .ok (Copies.target copies root) g' ∧
      Copying g (ReflTransGen g.Child root) copies g' ∧
      Copied g (ReflTransGen g.Child root) [] g copies g' ∧ (copies.lookup root).isSome := by
  have hregion : g.Unshared [] root = ReflTransGen g.Child root := funext fun _ => propext unshared_nil
  have hunshared : ∀ i, g.Unshared [] root i → i < g.size := hregion ▸ hinside
  obtain ⟨copies, g', hrun, hcopying, hcopied, hmet⟩ := deepCopySharing_copies hunshared
  exact ⟨copies, g', hrun, hregion ▸ hcopying, hregion ▸ hcopied,
    hmet (unshared_nil.mpr .refl)⟩

/-- A node that was met, and its duplicate. -/
theorem Copied.duplicate (h : Copied g region [] g copies g') {id : ExprId}
    (hid : (copies.lookup id).isSome) : g.Duplicate region copies g' id (copies.target id) := by
  obtain ⟨c, hc⟩ := Option.isSome_iff_exists.mp hid
  rw [Copies.target, hc]
  rcases h.finished id c hc with hold | ⟨-, -, hduplicate⟩
  · cases hold
  · exact hduplicate

/-- With the root, everything that can be reached without passing through a shared node was met. -/
theorem Copied.met_unshared {root : ExprId}
    (h : Copied g (g.Unshared shared root) [] g copies g')
    (hroot : g.Unshared shared root root → (copies.lookup root).isSome) {x : ExprId}
    (hx : g.Unshared shared root x) : (copies.lookup x).isSome := by
  obtain ⟨hplain, hreach⟩ := hx
  induction hreach with
  | refl => exact hroot ⟨hplain, .refl⟩
  | @tail u v hu hedge ih =>
      obtain ⟨⟨s, hs, hchild⟩, hv⟩ := hedge
      obtain ⟨e, he, -, hchildren⟩ := h.duplicate ih
      obtain rfl : e.shape = s := Option.some.inj ((shape?_of_node? he).symm.trans hs)
      exact hchildren v hchild ⟨hplain, hu.tail ⟨⟨e.shape, hs, hchild⟩, hv⟩⟩

theorem target_of_new (hnew : copies.lookup id = none) : copies.target id = id := by
  rw [Copies.target, hnew]
  rfl

theorem target_of_found (hfound : copies.lookup id = some copy) : copies.target id = copy := by
  rw [Copies.target, hfound]
  rfl

/-- The duplicates are as many as the nodes of the region, if all of them were met. -/
theorem Copying.length_eq (h : Copying g region copies g')
    (hmet : ∀ x, region x → (copies.lookup x).isSome) : copies.length = {x | region x}.ncard := by
  have hdomain : {x | region x} = ((copies.map Prod.fst).toFinset : Set ExprId) := by
    ext x
    show region x ↔ x ∈ ((copies.map Prod.fst).toFinset : Set ExprId)
    rw [mem_coe, List.mem_toFinset, ← Ordered.isSome_lookup]
    constructor
    · exact hmet x
    · intro hx
      obtain ⟨c, hc⟩ := Option.isSome_iff_exists.mp hx
      exact h.sources x c hc
  rw [hdomain, Set.ncard_coe_finset, List.toFinset_card_of_nodup h.once, List.length_map]

/-- **AN ISOMORPHIC COPY**: if what can be reached without passing through a shared node lies in the
    grammar, then copying adds one node for each of it, with its name, its flags and its form, over
    the new nodes of its children, where shared children stand for themselves.  Nothing else
    changes. -/
theorem deepCopySharing_isomorphic {root : ExprId}
    (hinside : ∀ x, g.Unshared shared root x → x < g.size) :
    ∃ (m : ExprId → ExprId) (g' : Grammar), deepCopySharing root shared g = .ok (m root) g' ∧
      g'.size = g.size + {x | g.Unshared shared root x}.ncard ∧
      (∀ x < g.size, g'.node? x = g.node? x) ∧
      g'.rules = g.rules ∧ g'.root = g.root ∧ g'.whitespace = g.whitespace ∧
      (∀ x, ¬ g.Unshared shared root x → m x = x) ∧
      (∀ x, g.Unshared shared root x → g.size ≤ m x ∧ m x < g'.size) ∧
      Set.InjOn m {x | g.Unshared shared root x} ∧
      ∀ x, g.Unshared shared root x → ∃ e, g.node? x = some e ∧
        g'.node? (m x) = some { e with shape := e.shape.map m } := by
  obtain ⟨copies, g', hrun, hcopying, hcopied, hroot⟩ := deepCopySharing_copies hinside
  have hmet : ∀ x, g.Unshared shared root x → ∃ c, copies.lookup x = some c :=
    fun x hx => Option.isSome_iff_exists.mp (hcopied.met_unshared hroot hx)
  refine ⟨copies.target, g', hrun, ?_, hcopying.originals, hcopying.rules, hcopying.root,
    hcopying.whitespace, ?_, ?_, ?_, ?_⟩
  · rw [hcopying.size, hcopying.length_eq fun x hx => hcopied.met_unshared hroot hx]
  · intro x hx
    refine target_of_new (Option.eq_none_iff_forall_ne_some.mpr fun c hc => hx ?_)
    exact hcopying.sources x c hc
  · intro x hx
    obtain ⟨c, hc⟩ := hmet x hx
    rw [target_of_found hc]
    exact hcopying.fresh x c hc
  · intro x hx y hy heq
    obtain ⟨c, hc⟩ := hmet x hx
    obtain ⟨d, hd⟩ := hmet y hy
    rw [target_of_found hc, target_of_found hd] at heq
    exact hcopying.injective x y c hc (heq ▸ hd)
  · intro x hx
    obtain ⟨c, hc⟩ := hmet x hx
    obtain ⟨e, he, hnode, -⟩ := hcopied.duplicate (hcopied.met_unshared hroot hx)
    exact ⟨e, he, hnode⟩

/-- A rule that refers to itself, to a node it shares with a choice, and to that choice, which leads
    back to it. -/
def braided : Grammar :=
  { nodes := #[.ofShape (.literal "k"), .ofShape (.literal "a"),
      { name := some "S", shape := .sequence [1, 2, 3], flags := .rule },
      .ofShape (.choice [2, 1, 0])]
    rules := [("S", 2)]
    root := some 2 }

theorem braided_child {u v : ExprId} (h : braided.Child u v) : v < braided.size := by
  obtain ⟨s, hs, hv⟩ := h
  obtain ⟨e, he, rfl⟩ := Option.map_eq_some_iff.mp hs
  have hall : ∀ e ∈ braided.nodes, ∀ v ∈ e.shape.children, v < braided.size := by decide
  exact hall e (Array.mem_of_getElem? he) v hv

theorem braided_edges : (braided.Child 2 3 ∧ 3 ∉ [0]) ∧ braided.Child 2 1 ∧ 1 ∉ [0] :=
  ⟨⟨⟨_, rfl, by decide⟩, by decide⟩, ⟨_, rfl, by decide⟩, by decide⟩

/-- The copy of a braid around a shared node is a braid around that node. -/
theorem deepCopySharing_isomorphic_braided :
    (∀ x, braided.Unshared [0] 2 x → x < braided.size) ∧
      ∃ (m : ExprId → ExprId) (g' : Grammar), deepCopySharing 2 [0] braided = .ok (m 2) g' ∧
        braided.size ≤ m 1 ∧ m 1 ≠ m 2 ∧ m 2 ≠ m 3 ∧
        g'.node? (m 2) =
          some { name := some "S", shape := .sequence [m 1, m 2, m 3], flags := .rule } ∧
        g'.node? (m 3) = some (.ofShape (.choice [m 2, m 1, 0])) := by
  have hinside : ∀ x, braided.Unshared [0] 2 x → x < braided.size := by
    rintro x ⟨-, hreach⟩
    cases hreach with
    | refl => decide
    | tail _ hedge => exact braided_child hedge.1
  have hroot : braided.Unshared [0] 2 2 := ⟨by decide, .refl⟩
  have hchoice : braided.Unshared [0] 2 3 := ⟨by decide, .single braided_edges.1⟩
  have hleaf : braided.Unshared [0] 2 1 := ⟨by decide, .single braided_edges.2⟩
  obtain ⟨m, g', hrun, -, -, -, -, -, hsame, hfresh, hinjective, hnodes⟩ :=
    deepCopySharing_isomorphic hinside
  obtain ⟨e, he, hnode⟩ := hnodes 2 hroot
  obtain ⟨e', he', hnode'⟩ := hnodes 3 hchoice
  cases he
  cases he'
  refine ⟨hinside, m, g', hrun, (hfresh 1 hleaf).1, ?_, ?_, hnode, ?_⟩
  · exact fun heq => absurd (hinjective hleaf hroot heq) (by decide)
  · exact fun heq => absurd (hinjective hroot hchoice heq) (by decide)
  · have hshared : m 0 = 0 := hsame 0 fun h => h.not_mem (by decide)
    rw [hnode']
    show some (Expr.ofShape (.choice [m 2, m 1, m 0])) = _
    rw [hshared]

end Packrat.Grammar
