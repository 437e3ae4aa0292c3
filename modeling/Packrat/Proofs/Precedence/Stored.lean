import Packrat.Proofs.Histories
import Packrat.Proofs.Layout.Reading
import Packrat.Proofs.Precedence.Levels

/-! # The order in which groups are stored

    Preparation refuses a cluster with two NEIGHBOURING groups of one precedence, and the engine
    leaves the groups of a cluster at the first one below the floor.  Both look at all groups only if
    these are STORED in descending order.  Laying out a term sorts them, and no pass, copy or
    replaced child disturbs them; a shape that is added or written as it is need not be sorted.

    * **`Edit.KeepsAt`** — edits that keep a property of grammars, also where they fail.
    * **`Operation.Orderly`** — operations that write no group out of order.
    * **`History.prepare_levels`** — what a prepared cluster runs, and when that is every group its
      floor admits. -/

namespace Packrat

variable {α β : Type}

/-! ## Order -/

/-- The groups of the shape are in descending order, if it is a cluster. -/
def Shape.Ordered (s : Shape ExprId) : Prop :=
  ∀ groups, s = .cluster groups → Growth.Descending groups

/-- The groups of every cluster are stored in descending order. -/
def Grammar.Ordered (g : Grammar) : Prop :=
  ∀ e ∈ g.nodes, e.shape.Ordered

namespace Growth

variable {groups groups' : List (Group ExprId)}

/-- Being in order does not depend on the alternatives. -/
theorem Descending.of_form (h : Descending groups)
    (hform : groups'.map (Group.map fun _ => ()) = groups.map (Group.map fun _ => ())) :
    Descending groups' := by
  have hprecedences : groups'.map Group.precedence = groups.map Group.precedence := by
    simpa [Function.comp_def, Group.map] using congrArg (List.map Group.precedence) hform
  rw [Descending, ← List.pairwise_map (f := Group.precedence) (R := fun p q => q ≤ p)] at h ⊢
  rwa [hprecedences]

/-- Merge sort by the order of groups leaves their precedences descending. -/
theorem descending_mergeSort (groups : List (Group ExprId)) :
    Descending (groups.mergeSort Group.mayPrecede) := by
  have hsorted := List.pairwise_mergeSort Group.mayPrecede_trans Group.mayPrecede_total groups
  exact hsorted.imp fun h => of_decide_eq_true h

end Growth

namespace Shape

variable {s t : Shape ExprId}

/-- Whether groups are in order is seen from the form alone. -/
theorem Ordered.of_form (h : s.Ordered) (hform : t.form = s.form) : t.Ordered := by
  rintro groups rfl
  cases s with
  | cluster groups' => exact (h groups' rfl).of_form (Shape.cluster.inj hform)
  | _ => cases hform

/-- A shape is stored in order, whatever order its groups came in. -/
theorem ordered_sortGroups (s : Shape ExprId) : s.sortGroups.Ordered := by
  intro groups hs
  cases s with
  | cluster groups' =>
      cases hs
      exact Growth.descending_mergeSort groups'
  | _ => cases hs

end Shape

/-! ## What a cluster runs -/

namespace Growth

variable {groups : List (Group ExprId)}

/-- A cluster that runs the groups which `select` picks for its floor. -/
def selecting (call : Caller) (text : Text) (id : ExprId)
    (select : Precedence → List (Group ExprId)) : Matching Bool := do
  let begun ← Matching.state
  let key : SeedKey := { expr := id, position := begun.stop }
  match begun.seeds.get? key with
  | some seed => replay seed
  | none =>
      Matching.onSeeds (·.insert key none)
      let admitted := select (begun.floors.floor id)
      let best ← Matching.thenAlways (climbAll call text key admitted none) fun s =>
        { s with
          floors := s.floors.reset id (begun.floors.explicit? id)
          seeds := s.seeds.remove key }
      replay best

/-- A cluster in order runs the groups that its floor admits, and no others. -/
theorem dispatch_descending (setting : Setting) (call : Caller) (id : ExprId)
    (h : Descending groups) :
    Engine.dispatch setting call id (.cluster groups) =
      selecting call setting.text id fun floor =>
        groups.filter fun group => floor ≤ group.precedence := by
  have hselected : (fun floor => groups.filter fun group => floor ≤ group.precedence) =
      fun floor => groups.takeWhile fun group => floor ≤ group.precedence :=
    funext fun floor => (h.takeWhile_eq floor).symm
  rw [hselected]
  rfl

/-- Out of order, a cluster misses a group under some floor. -/
theorem descending_of_takeWhile_eq
    (h : ∀ floor : Precedence, (groups.takeWhile fun group => floor ≤ group.precedence) =
      groups.filter fun group => floor ≤ group.precedence) : Descending groups := by
  induction groups with
  | nil => exact .nil
  | cons group rest ih =>
      refine List.pairwise_cons.mpr ⟨fun a ha => ?_, ih fun floor => ?_⟩
      · -- under the floor of a later group, that group is admitted, so the first one is
        by_contra hlower
        have hfirst := h a.precedence
        rw [List.takeWhile_cons_of_neg (by simpa using hlower), eq_comm,
          List.filter_eq_nil_iff] at hfirst
        exact hfirst a (List.mem_cons_of_mem _ ha) (by simp)
      · by_cases hadmitted : floor ≤ group.precedence
        · have hboth := h floor
          rw [List.takeWhile_cons_of_pos (by simpa using hadmitted),
            List.filter_cons_of_pos (by simpa using hadmitted)] at hboth
          exact (List.cons.inj hboth).2
        · have hnone := h floor
          rw [List.takeWhile_cons_of_neg (by simpa using hadmitted), eq_comm,
            List.filter_cons_of_neg (by simpa using hadmitted), List.filter_eq_nil_iff] at hnone
          rw [List.filter_eq_nil_iff.mpr hnone, List.takeWhile_eq_nil_iff]
          intro hlength hfirst
          exact hnone _ (List.getElem_mem hlength) hfirst

/-- In order, groups are apart if neighbours are. -/
theorem Descending.apart (h : Descending groups)
    (hneighbours : groups.IsChain fun a b => a.precedence ≠ b.precedence) :
    groups.Pairwise fun a b => b.precedence < a.precedence := by
  induction groups with
  | nil => exact .nil
  | cons a rest ih =>
      obtain ⟨hhead, hrest⟩ := List.pairwise_cons.mp h
      cases rest with
      | nil => exact List.pairwise_singleton _ a
      | cons b rest =>
          obtain ⟨hne, hlater⟩ := List.isChain_cons_cons.mp hneighbours
          have hapart := ih hrest hlater
          have hnext : b.precedence < a.precedence :=
            UInt32.lt_of_le_of_ne (hhead b (List.mem_cons_self ..)) hne.symm
          refine List.pairwise_cons.mpr ⟨fun c hc => ?_, hapart⟩
          rcases List.mem_cons.mp hc with rfl | hc
          · exact hnext
          · exact UInt32.lt_trans ((List.pairwise_cons.mp hapart).1 c hc) hnext

end Growth

/-- The check of a cluster is about neighbours. -/
theorem Group.sharedPrecedence?_eq_none {groups : List (Group α)}
    (h : sharedPrecedence? groups = none) :
    groups.IsChain fun a b => a.precedence ≠ b.precedence := by
  induction groups with
  | nil => exact .nil
  | cons a rest ih =>
      cases rest with
      | nil => exact .singleton a
      | cons b rest =>
          rw [sharedPrecedence?] at h
          split at h
          · cases h
          · rename_i hne
            exact .cons_cons hne (ih h)

/-! ## Edits that keep a property -/

namespace Edit

variable {P : Grammar → Prop} {x : Edit α} {f : α → Edit β} {g : Grammar}

/-- What the edit leaves of the grammar, whether or not it fails, has the property if the grammar
    has. -/
def KeepsAt (P : Grammar → Prop) (x : Edit α) (g : Grammar) : Prop :=
  P g → P (x.left g)

/-- An edit that leaves the grammar as it was keeps every property. -/
theorem KeepsAt.of_left_eq (h : x.left g = g) : x.KeepsAt P g :=
  fun hP => h.symm ▸ hP

theorem KeepsAt.pure (a : α) (g : Grammar) : (pure a : Edit α).KeepsAt P g :=
  .of_left_eq rfl

theorem KeepsAt.throw (e : Fault) (g : Grammar) : (throw e : Edit α).KeepsAt P g :=
  .of_left_eq rfl

theorem KeepsAt.reading (r : Grammar → Except Fault α) (g : Grammar) :
    (Edit.reading r).KeepsAt P g := by
  refine .of_left_eq ?_
  rw [left, Edit.reading]
  cases r g <;> rfl

/-- An edit keeps a property if its parts do, the second wherever the first can end. -/
theorem KeepsAt.bind (hx : x.KeepsAt P g) (hf : ∀ a g', x g = .ok a g' → (f a).KeepsAt P g') :
    (x >>= f).KeepsAt P g := by
  intro hP
  have hfirst := hx hP
  simp only [left, Bind.bind, EStateM.bind] at hfirst ⊢
  cases hrun : x g with
  | error e g' =>
      rw [hrun] at hfirst
      exact hfirst
  | ok a g' =>
      rw [hrun] at hfirst
      exact hf a g' hrun hfirst

theorem KeepsAt.silent (hx : x.KeepsAt P g) : x.silent.KeepsAt P g :=
  hx.bind fun _ g' _ => .pure () g'

end Edit

/-! ## Edits that keep groups in order -/

namespace Grammar

variable {g g' : Grammar} {e : Expr} {id : ExprId}

/-- Only the nodes bear on the order of groups. -/
theorem Ordered.of_nodes (h : g.Ordered) (hnodes : g'.nodes = g.nodes) : g'.Ordered := by
  rwa [Ordered, hnodes]

theorem Ordered.node (h : g.Ordered) (hnode : g.node? id = some e) : e.shape.Ordered :=
  h e (Array.mem_of_getElem? hnode)

/-- A new node in order leaves the arena in order. -/
theorem Ordered.push (h : g.Ordered) (he : e.shape.Ordered) : (g.push e).2.Ordered := by
  intro e' hmem
  rcases Array.mem_push.mp hmem with hmem | rfl
  · exact h e' hmem
  · exact he

/-- Writing a node in order leaves the arena in order. -/
theorem Ordered.set (h : g.Ordered) (he : e.shape.Ordered) (id : ExprId)
    (hnodes : g'.nodes = g.nodes.setIfInBounds id e) : g'.Ordered := by
  intro e' hmem
  rw [hnodes] at hmem
  rcases Array.mem_or_eq_of_mem_setIfInBounds hmem with hmem | rfl
  · exact h e' hmem
  · exact he

/-- A change of one node that keeps its groups in order keeps all of them in order. -/
theorem modifyNode_ordered {f : Expr → Expr} (hf : ∀ e, e.shape.Ordered → (f e).shape.Ordered)
    (g : Grammar) : (modifyNode id f).KeepsAt Ordered g := by
  intro hg
  simp only [Edit.left, modifyNode]
  cases hnode : ({ g with prepared := false } : Grammar).node? id with
  | none => exact hg
  | some e => exact hg.set (hf e (hg.node hnode)) id rfl

/-- Replacing a child keeps the form of its parent, and so the order of its groups. -/
theorem replaceChild_ordered (parent : ExprId) (index : Nat) (child : ExprId) (g : Grammar) :
    (replaceChild parent index child).KeepsAt Ordered g := by
  intro hg
  simp only [Edit.left, replaceChild]
  cases hnode : g.node? parent with
  | none => exact hg
  | some e =>
      dsimp only
      cases hset : e.shape.setChild? index child with
      | none => exact hg
      | some s =>
          have hs : s.Ordered := (hg.node hnode).of_form (Shape.setChild?_form hset)
          exact hg.set (e := { e with shape := s }) hs parent rfl

/-- A wrapper is no cluster, and what it wraps moves to a new node as it is. -/
theorem wrapInPlace_ordered {wrap : ExprId → Shape ExprId} (hwrap : ∀ i, (wrap i).Ordered)
    (g : Grammar) : (wrapInPlace id wrap).KeepsAt Ordered g := by
  intro hg
  simp only [Edit.left, wrapInPlace]
  cases hnode : g.node? id with
  | none => exact hg
  | some e =>
      have hshape : e.shape.Ordered := hg.node hnode
      have hmoved : (g.push (Expr.ofShape e.shape)).2.Ordered :=
        hg.push (e := Expr.ofShape e.shape) hshape
      exact hmoved.set (hwrap g.size) id rfl

theorem defineRule_ordered (name : String) (id : ExprId) (g : Grammar) :
    (defineRule name id).KeepsAt Ordered g := by
  intro hg
  rw [Edit.left, defineRule]
  by_cases htaken : (g.rule? name).any (· ≠ id)
  · rw [if_pos htaken]
    exact hg
  · let named (e : Expr) : Expr := { e with name := some name, flags := e.flags.union .rule }
    have hnamed : ((modifyNode id named).left g).Ordered :=
      modifyNode_ordered (f := named) (fun _ he => he) g hg
    rw [Edit.left] at hnamed
    rw [if_neg htaken]
    cases hrun : modifyNode id named g with
    | ok _ g' =>
        rw [hrun] at hnamed
        exact hnamed.of_nodes rfl
    | error _ g' =>
        rw [hrun] at hnamed
        exact hnamed

/-! ### Copies -/

/-- Redirected children leave the form of the copy alone. -/
theorem redirect_ordered (copy : ExprId) (targets : List ExprId) (index : Nat) (h : g.Ordered) :
    (redirect copy index targets g).Ordered := by
  induction targets generalizing index g with
  | nil => exact h
  | cons target rest ih =>
      have hstep := replaceChild_ordered copy index target g h
      rw [Edit.left] at hstep
      rw [redirect]
      cases hrun : replaceChild copy index target g
      all_goals
        rw [hrun] at hstep
        exact ih (index + 1) hstep

/-- Copying children one by one keeps the order if each copy does. -/
theorem copyEach_ordered {copyChild : ExprId → Copies → Edit Copies}
    (h : ∀ id copies g, (copyChild id copies).KeepsAt Ordered g) (children : List ExprId)
    (copies : Copies) (g : Grammar) : (copyEach copyChild children copies).KeepsAt Ordered g := by
  induction children generalizing copies g with
  | nil => exact .pure copies g
  | cons child rest ih => exact (h child copies g).bind fun copies g' _ => ih copies g'

/-- A duplicate has the groups of its original. -/
theorem copyFrom_ordered (shared : List ExprId) (bound : Nat) (id : ExprId) (copies : Copies)
    (g : Grammar) : (copyFrom shared bound id copies).KeepsAt Ordered g := by
  induction bound generalizing id copies g with
  | zero => exact .throw _ g
  | succ bound ih =>
      rw [copyFrom]
      split
      · exact .pure copies g
      · intro hg
        refine Edit.KeepsAt.bind (.reading _ g) (fun e g₁ hread => ?_) hg
        obtain ⟨hnode, rfl⟩ := Edit.reading_ok hread
        refine Edit.KeepsAt.bind (fun hg => hg.push (hg.node (node_ok hnode))) fun copy g₂ _ => ?_
        refine (copyEach_ordered ih _ _ g₂).bind fun copies g₃ _ => ?_
        refine Edit.KeepsAt.bind ?_ fun _ g₄ _ => .pure copies g₄
        exact redirect_ordered copy _ 0

/-- A copy has the forms of its originals, so its groups are in order like theirs. -/
theorem deepCopySharing_ordered (root : ExprId) (shared : List ExprId) (g : Grammar) :
    (deepCopySharing root shared).KeepsAt Ordered g := by
  refine Edit.KeepsAt.bind (.of_left_eq rfl) fun read g₁ _ => ?_
  refine (copyFrom_ordered shared _ root [] g₁).bind fun copies g₂ _ => ?_
  exact .pure _ g₂

/-! ### Passes -/

theorem redirectEdges_ordered (edges : List (ExprId × Nat × ExprId)) (g : Grammar) :
    (redirectEdges edges).KeepsAt Ordered g := by
  induction edges generalizing g with
  | nil => exact .pure () g
  | cons edge rest ih => exact (replaceChild_ordered _ _ _ g).bind fun _ g' _ => ih g'

/-- Resolution replaces children, and nothing else. -/
theorem resolveReferences_ordered (limit : Nat) (g : Grammar) :
    (resolveReferences limit).KeepsAt Ordered g := by
  refine Edit.KeepsAt.bind (.of_left_eq rfl) fun read g₁ _ => ?_
  refine Edit.KeepsAt.bind (.reading _ g₁) fun events g₂ _ => ?_
  refine Edit.KeepsAt.bind (.reading _ g₂) fun redirections g₃ _ => ?_
  refine Edit.KeepsAt.bind (.reading _ g₃) fun entries g₄ _ => ?_
  refine (redirectEdges_ordered redirections g₄).bind fun _ g₅ _ => ?_
  exact Edit.KeepsAt.bind (fun hg => hg.of_nodes rfl) fun _ g₆ _ => .pure _ g₆

/-- Wrapping several nodes is wrapping one after the other. -/
theorem wrapAll_ordered (leftAssociative : Bool) (selected : List ExprId) (g : Grammar) :
    (wrapAll leftAssociative selected).KeepsAt Ordered g := by
  induction selected generalizing g with
  | nil => exact .pure () g
  | cons id rest ih =>
      have hboundary : ∀ i, Shape.Ordered (.leftRecursive i leftAssociative) :=
        fun i groups hs => by cases hs
      exact (wrapInPlace_ordered hboundary g).bind fun _ g' _ => ih g'

/-- Breaking cycles wraps nodes, and keeps the order of the rest. -/
theorem breakLeftRecursion_ordered (n : Nullability) (options : LeftRecursionOptions)
    (g : Grammar) : (breakLeftRecursion n options).KeepsAt Ordered g := by
  refine Edit.KeepsAt.bind (.reading _ g) fun selected g₁ _ => ?_
  exact (wrapAll_ordered _ selected g₁).bind fun _ g₂ _ => .pure selected g₂

/-- Preparation keeps groups in order, in a pass that succeeds and in one that fails. -/
theorem prepare_ordered (options : PrepareOptions) (g : Grammar) :
    (prepare options).KeepsAt Ordered g := by
  refine Edit.KeepsAt.bind (.of_left_eq rfl) fun read g₁ _ => ?_
  dsimp only
  split
  · exact .throw _ g₁
  · refine (resolveReferences_ordered _ g₁).bind fun references g₂ _ => ?_
    refine Edit.KeepsAt.bind (.reading _ g₂) fun before g₃ _ => ?_
    -- the checks and the mark end preparation, whether or not nodes were wrapped before
    have hchecks : ∀ wrapped g₃, Edit.KeepsAt Ordered (do
        let after ← Edit.reading Grammar.nullability
        Edit.reading fun g => g.validate after options
        modify fun g => { g with prepared := true }
        return { references, leftRecursive := wrapped, nullable := after.count } :
          Edit PrepareReport) g₃ := by
      intro wrapped g₃
      refine Edit.KeepsAt.bind (.reading _ g₃) fun after g₄ _ => ?_
      refine Edit.KeepsAt.bind (.reading _ g₄) fun _ g₅ _ => ?_
      exact Edit.KeepsAt.bind (fun hg => hg.of_nodes rfl) fun _ g₆ _ => .pure _ g₆
    split
    · exact (breakLeftRecursion_ordered before _ g₃).bind fun wrapped g₄ _ => hchecks wrapped g₄
    · exact Edit.KeepsAt.bind (.pure _ g₃) fun wrapped g₄ _ => hchecks wrapped g₄

end Grammar

/-! ### Terms -/

/-- Terms are inserted in order one after the other. -/
theorem Term.insertAll_ordered {terms : List Term} {g : Grammar}
    (h : ∀ t ∈ terms, ∀ g : Grammar, g.Ordered → (t.insert g).2.Ordered) (hg : g.Ordered) :
    (insertAll terms g).2.Ordered := by
  induction terms generalizing g with
  | nil =>
      rw [insertAll_nil]
      exact hg
  | cons t rest ih =>
      obtain ⟨hhead, htail⟩ := List.forall_mem_cons.mp h
      rw [insertAll_cons]
      exact ih htail (hhead g hg)

/-- Terms are laid out with their groups in order. -/
theorem Term.insert_ordered (t : Term) {g : Grammar} (h : g.Ordered) : (t.insert g).2.Ordered := by
  induction t using tree_induction generalizing g with
  | existing id =>
      rw [insert]
      exact h
  | node s ih =>
      obtain ⟨laid, hrun, -, -⟩ := insertShape_eq s g
      rw [insert_node, hrun]
      exact (insertAll_ordered (fun t ht g hg => ih t ht hg) h).push laid.ordered_sortGroups

/-! ## Histories -/

namespace Operation

/-- The operation writes no group out of order: what is added, written or put around a node is in
    order.  Every other operation is orderly. -/
def Orderly : Operation → Prop
  | .add shape => shape.Ordered
  | .write _ f => ∀ e : Expr, e.shape.Ordered → (f e).shape.Ordered
  | .wrapInPlace _ wrap => ∀ inner, (wrap inner).Ordered
  | _ => True

/-- Every operation that orders the groups it is given keeps the arena in order. -/
theorem edit_ordered {op : Operation} (h : op.Orderly) (g : Grammar) :
    op.edit.KeepsAt Grammar.Ordered g := by
  cases op with
  | add shape => exact fun hg => hg.push h
  | insert term => exact fun hg => term.insert_ordered hg
  | write id f => exact Grammar.modifyNode_ordered h g
  | replaceChild parent index child => exact Grammar.replaceChild_ordered parent index child g
  | wrapInPlace id wrap => exact (Grammar.wrapInPlace_ordered h g).silent
  | defineRule name id => exact (Grammar.defineRule_ordered name id g).silent
  | setRoot id => exact fun hg => hg.of_nodes rfl
  | setWhitespace id => exact fun hg => hg.of_nodes rfl
  | deepCopy root => exact (Grammar.deepCopySharing_ordered root [] g).silent
  | deepCopySharing root shared => exact (Grammar.deepCopySharing_ordered root shared g).silent
  | resolveReferences limit => exact (Grammar.resolveReferences_ordered limit g).silent
  | breakLeftRecursion n options => exact (Grammar.breakLeftRecursion_ordered n options g).silent
  | prepare options => exact (Grammar.prepare_ordered options g).silent

end Operation

namespace History

variable {ops : List Operation}

/-- So does every step of a history, and with it every history. -/
theorem after_ordered {h : History} {op : Operation} (hop : op.Orderly)
    (hordered : h.grammar.Ordered) : (h.after op).grammar.Ordered := by
  have hstep := op.edit_ordered hop h.grammar hordered
  rw [Edit.left] at hstep
  rw [after]
  cases hrun : op.edit h.grammar
  all_goals
    rw [hrun] at hstep
    exact hstep

/-- Orderly operations leave every cluster in order. -/
theorem of_ordered (h : ∀ op ∈ ops, op.Orderly) : (of ops).grammar.Ordered := by
  have hfrom : ∀ start : History, start.grammar.Ordered →
      (ops.foldl History.after start).grammar.Ordered := by
    induction ops with
    | nil => exact fun start hstart => hstart
    | cons op rest ih =>
        obtain ⟨hop, hrest⟩ := List.forall_mem_cons.mp h
        exact fun start hstart => ih hrest _ (after_ordered hop hstart)
  exact hfrom {} fun e he => by simp at he

end History

/-! ## Prepared clusters -/

namespace Grammar

variable {g g' : Grammar} {options : PrepareOptions} {report : PrepareReport} {id : ExprId}
  {groups : List (Group ExprId)}

/-- Preparation checks neighbours: of two groups in a row, no precedence is the same. -/
theorem prepare_neighbours (h : prepare options g = .ok report g') (hid : g'.InUse id)
    (hs : g'.shape? id = some (.cluster groups)) :
    groups.IsChain fun a b => a.precedence ≠ b.precedence := by
  obtain ⟨g₁, n, rfl, -, hvalid⟩ := prepare_validates h
  obtain ⟨e, hnode, hcheck⟩ := ok_of_bind ((validate_ok hvalid).1 id hid)
  have hshape : e.shape = .cluster groups := by
    have hboth := (shape?_of_node? (node_ok hnode)).symm.trans hs
    exact Option.some.inj hboth
  rw [hshape] at hcheck
  cases hshared : Group.sharedPrecedence? groups with
  | none => exact Group.sharedPrecedence?_eq_none hshared
  | some precedence =>
      simp only [hshared] at hcheck
      obtain ⟨_, _, hthrow⟩ := ok_of_bind hcheck
      cases hthrow

end Grammar

namespace History

variable {ops : List Operation} {options : PrepareOptions} {report : PrepareReport} {g : Grammar}
  {id : ExprId} {groups : List (Group ExprId)}

/-- **A CLUSTER IN ORDER IS UNAMBIGUOUS**: in whatever way a grammar was built, neighbouring groups
    of the clusters that its preparation lets pass differ in precedence.  Groups in descending order
    then have pairwise different precedences, and a match of the cluster runs those that its floor
    admits; only groups in descending order are run so under every floor.  If nothing was written
    out of order, the groups of every cluster are in descending order. -/
theorem prepare_levels (hprepare : Grammar.prepare options (of ops).grammar = .ok report g)
    (hid : g.InUse id) (hs : g.shape? id = some (.cluster groups)) :
    groups.IsChain (fun a b => a.precedence ≠ b.precedence) ∧
      (Growth.Descending groups → (groups.map Group.precedence).Nodup ∧
        ∀ setting call, Engine.dispatch setting call id (.cluster groups) =
          Growth.selecting call setting.text id fun floor =>
            groups.filter fun group => floor ≤ group.precedence) ∧
      ((∀ floor : Precedence, (groups.takeWhile fun group => floor ≤ group.precedence) =
        groups.filter fun group => floor ≤ group.precedence) → Growth.Descending groups) ∧
      ((∀ op ∈ ops, op.Orderly) → Growth.Descending groups) := by
  have hneighbours := Grammar.prepare_neighbours hprepare hid hs
  refine ⟨hneighbours, fun hordered => ⟨?_, ?_⟩, Growth.descending_of_takeWhile_eq, ?_⟩
  · refine List.pairwise_map.mpr ((hordered.apart hneighbours).imp fun hlt heq => ?_)
    exact UInt32.ne_of_lt hlt heq.symm
  · exact fun setting call => Growth.dispatch_descending setting call id hordered
  · intro horderly
    have hleft := Grammar.prepare_ordered options _ (of_ordered horderly)
    rw [Edit.left, hprepare] at hleft
    obtain ⟨e, hnode, hshape⟩ := Option.map_eq_some_iff.mp hs
    exact hleft.node hnode groups hshape

/-- Precedences of the groups of a cluster. -/
def levels (g : Grammar) (id : ExprId) : List Precedence :=
  match g.shape? id with
  | some (.cluster groups) => groups.map Group.precedence
  | _ => []

/-- A node with levels is a cluster. -/
theorem shape?_of_levels {p : Precedence} {rest : List Precedence} (h : levels g id = p :: rest) :
    ∃ groups, g.shape? id = some (.cluster groups) ∧ groups.map Group.precedence = p :: rest := by
  rw [levels] at h
  split at h
  · rename_i groups hs
    exact ⟨groups, hs, h⟩
  · cases h

/-- What was read off a successful edit comes from its answer. -/
theorem exists_of_edited {x : EStateM.Result Fault Grammar α} {f : Grammar → β} {b : β}
    (h : (match x with | .ok _ g => some (f g) | .error _ _ => none) = some b) :
    ∃ a g, x = .ok a g ∧ f g = b := by
  cases x with
  | ok a g => exact ⟨a, g, rfl, Option.some.inj h⟩
  | error e g => cases h

/-- Sums and products of two digits, written from the lowest level up.  The rule is copied, and a
    digit is replaced by its copy. -/
def levelOperations : List Operation :=
  [.insert (.cluster
      [{ precedence := 1, kind := .leftAssociative
         alternatives := [.seq [.rule "expr", .lit "+", .rule "expr"]] },
        { precedence := 2, kind := .leftAssociative
          alternatives := [.seq [.rule "expr", .lit "*", .rule "expr"]] },
        { precedence := 3, kind := .once, alternatives := [.lit "0", .lit "1"] }]),
    .defineRule "expr" 10, .setRoot 10, .deepCopy 10, .replaceChild 10 0 12]

/-- Three levels of digits: every hypothesis holds, and a floor admits the levels at or above it. -/
theorem prepare_levels_digits :
    ∃ report g groups, Grammar.prepare {} (of levelOperations).grammar = .ok report g ∧
      g.InUse 10 ∧ g.shape? 10 = some (.cluster groups) ∧
      (∀ op ∈ levelOperations, op.Orderly) ∧ groups.map Group.precedence = [3, 2, 1] ∧
      (groups.map Group.precedence).Nodup ∧
      ∀ setting call, Engine.dispatch setting call 10 (.cluster groups) =
        Growth.selecting call setting.text 10 fun floor =>
          groups.filter fun group => floor ≤ group.precedence := by
  obtain ⟨report, g, hprepare, hresult⟩ := exists_of_edited
    (x := Grammar.prepare {} (of levelOperations).grammar) (f := fun g => (g.root, levels g 10))
    (b := (some 10, [3, 2, 1])) (by decide +kernel)
  obtain ⟨hroot, hlevels⟩ := Prod.mk.inj hresult
  obtain ⟨groups, hs, hgroups⟩ := shape?_of_levels hlevels
  have hid : g.InUse 10 := ⟨10, by simp [Grammar.entryPoints, hroot], .refl⟩
  have horderly : ∀ op ∈ levelOperations, op.Orderly := by
    simp [levelOperations, Operation.Orderly]
  obtain ⟨-, hdescending, -, hordered⟩ := prepare_levels hprepare hid hs
  obtain ⟨hdistinct, hdispatch⟩ := hdescending (hordered horderly)
  exact ⟨report, g, groups, hprepare, hid, hs, horderly, hgroups, hdistinct, hdispatch⟩

/-- A cluster of one letter, added as it is, with two groups of one precedence that are no
    neighbours. -/
def misplacedOperations : List Operation :=
  [.add (.literal "a"),
    .add (.cluster
      [{ precedence := 2, kind := .once, alternatives := [0] },
        { precedence := 1, kind := .once, alternatives := [0] },
        { precedence := 2, kind := .once, alternatives := [0] }]),
    .setRoot 1]

/-- A cluster that was added out of order passes preparation with two groups of one precedence, of
    which it runs only the first under their floor. -/
theorem prepare_misplaced :
    ∃ report g groups, Grammar.prepare {} (of misplacedOperations).grammar = .ok report g ∧
      g.InUse 1 ∧ g.shape? 1 = some (.cluster groups) ∧
      ¬(groups.map Group.precedence).Nodup ∧
      (groups.takeWhile fun group => (2 : Precedence) ≤ group.precedence) ≠
        groups.filter fun group => (2 : Precedence) ≤ group.precedence := by
  have hprepare : Grammar.prepare {} (of misplacedOperations).grammar =
      .ok ⟨0, [], 0⟩ { (of misplacedOperations).grammar with prepared := true } := by
    cbv
  refine ⟨_, _, _, hprepare, ⟨1, by decide, .refl⟩, rfl, by decide, fun hsame => ?_⟩
  exact absurd (congrArg List.length hsame) (by decide)

end History

end Packrat
