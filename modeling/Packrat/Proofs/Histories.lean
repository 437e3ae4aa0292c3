import Packrat.Grammar.Copy
import Packrat.Grammar.Term
import Packrat.Proofs.Peg.Agreement
import Packrat.Proofs.ReportContents

/-! # The mark of a prepared grammar

    A grammar is marked as prepared by preparation alone, and nothing else may leave the mark on a
    grammar that it changed.  Every operation is HONEST in this sense: the grammar that it leaves,
    also when it fails, is the one that it was given or has no mark.  Resolving references is honest
    only where no entry point is a reference, since it repoints the rules without taking the mark
    away; preparation has checked that of every grammar that it marked.

    * **`Operation`**, **`History`** — a grammar built from nothing by any operations.
    * **`History.prepared_latest`** — a mark vouches for what the latest preparation left. -/

namespace Packrat

open Relation

variable {α β : Type}

/-! ## Honest edits -/

namespace Edit

/-- The grammar that an edit leaves, whether or not it fails. -/
def left (x : Edit α) (g : Grammar) : Grammar :=
  match x g with
  | .ok _ g' | .error _ g' => g'

/-- An edit without its answer. -/
def silent (x : Edit α) : Edit Unit := do
  let _ ← x
  return

/-- What is left of a marked grammar is the grammar itself or bears no mark; an unmarked one is not
    marked. -/
def HonestAt (x : Edit α) (g : Grammar) : Prop :=
  (x.left g).prepared = true → x.left g = g

variable {x : Edit α} {f : α → Edit β} {g : Grammar}

/-- An edit that leaves the grammar as it was is honest about its mark. -/
theorem HonestAt.of_left_eq (h : x.left g = g) : x.HonestAt g :=
  fun _ => h

/-- An edit that takes the mark away is honest, whatever else it did. -/
theorem HonestAt.of_unmarked (h : (x.left g).prepared = false) : x.HonestAt g :=
  fun hmark => absurd (h.symm.trans hmark) Bool.false_ne_true

theorem HonestAt.pure (a : α) (g : Grammar) : (pure a : Edit α).HonestAt g :=
  .of_left_eq rfl

theorem HonestAt.throw (e : Fault) (g : Grammar) : (throw e : Edit α).HonestAt g :=
  .of_left_eq rfl

theorem HonestAt.reading (r : Grammar → Except Fault α) (g : Grammar) :
    (Edit.reading r).HonestAt g := by
  refine .of_left_eq ?_
  rw [left, Edit.reading]
  cases r g <;> rfl

/-- An honest edit followed by one that is honest wherever the first may lead. -/
theorem HonestAt.bind (hx : x.HonestAt g)
    (hf : ∀ a g', x g = .ok a g' → (f a).HonestAt g') : (x >>= f).HonestAt g := by
  rw [HonestAt, left] at hx ⊢
  simp only [Bind.bind, EStateM.bind]
  cases hrun : x g with
  | error e g' =>
      rw [hrun] at hx
      exact hx
  | ok a g' =>
      rw [hrun] at hx
      change (left (f a) g').prepared = true → left (f a) g' = g
      intro hmark
      have hsecond : left (f a) g' = g' := hf a g' hrun hmark
      have hfirst : g' = g := hx (hsecond ▸ hmark)
      exact hsecond.trans hfirst

theorem HonestAt.silent (hx : x.HonestAt g) : x.silent.HonestAt g :=
  hx.bind fun _ g' _ => .pure () g'

/-- An edit that is honest when it fails. -/
def FailsHonestlyAt (x : Edit α) (g : Grammar) : Prop :=
  ∀ e g', x g = .error e g' → g'.prepared = true → g' = g

/-- An edit that is honest is honest where it fails. -/
theorem HonestAt.failsHonestly (hx : x.HonestAt g) : x.FailsHonestlyAt g := by
  intro e g' hrun
  rw [HonestAt, left, hrun] at hx
  exact hx

/-- For a failure, what came before it must not have left the mark on a changed grammar either. -/
theorem FailsHonestlyAt.bind (hx : x.HonestAt g)
    (hf : ∀ a g', x g = .ok a g' → (f a).FailsHonestlyAt g') : (x >>= f).FailsHonestlyAt g := by
  intro e g₂ hrun hmark
  simp only [Bind.bind, EStateM.bind] at hrun
  rw [HonestAt, left] at hx
  cases hfirst : x g with
  | error e' g' =>
      rw [hfirst] at hx hrun
      cases hrun
      exact hx hmark
  | ok a g' =>
      rw [hfirst] at hx hrun
      have hsecond : g₂ = g' := hf a g' hfirst e g₂ hrun hmark
      exact hsecond.trans (hx (hsecond ▸ hmark))

theorem FailsHonestlyAt.silent (hx : x.FailsHonestlyAt g) : x.silent.FailsHonestlyAt g := by
  intro e g' hrun
  refine hx e g' ?_
  simp only [Edit.silent, Bind.bind, EStateM.bind] at hrun
  cases hfirst : x g with
  | ok a g₁ =>
      rw [hfirst] at hrun
      cases hrun
  | error e' g₁ =>
      rw [hfirst] at hrun
      cases hrun
      rfl

end Edit

namespace Grammar

variable {g g' : Grammar} {id : ExprId} {n : Nullability} {options : PrepareOptions}

/-- A changed node takes the mark away. -/
theorem modifyNode_honest (id : ExprId) (f : Expr → Expr) (g : Grammar) :
    (modifyNode id f).HonestAt g := by
  refine .of_unmarked ?_
  simp only [Edit.left, modifyNode, node?]
  cases g.nodes[id]? <;> rfl

/-- A replaced child takes the mark away, and an edit that fails changes nothing. -/
theorem replaceChild_honest (parent : ExprId) (index : Nat) (child : ExprId) (g : Grammar) :
    (replaceChild parent index child).HonestAt g := by
  simp only [Edit.HonestAt, Edit.left, replaceChild]
  cases g.node? parent with
  | none => exact fun _ => rfl
  | some e =>
      dsimp only
      cases e.shape.setChild? index child with
      | none => exact fun _ => rfl
      | some shape => exact fun hmark => by cases hmark

/-- A wrapped node takes the mark away. -/
theorem wrapInPlace_honest (id : ExprId) (wrap : ExprId → Shape ExprId) (g : Grammar) :
    (wrapInPlace id wrap).HonestAt g := by
  simp only [Edit.HonestAt, Edit.left, wrapInPlace]
  cases g.node? id with
  | none => exact fun _ => rfl
  | some e => exact fun hmark => by cases hmark

/-- A new rule takes the mark away. -/
theorem defineRule_honest (name : String) (id : ExprId) (g : Grammar) :
    (defineRule name id).HonestAt g := by
  by_cases htaken : (g.rule? name).any (· ≠ id)
  · refine .of_left_eq ?_
    rw [Edit.left, defineRule, if_pos htaken]
  · refine .of_unmarked ?_
    rw [Edit.left, defineRule, if_neg htaken]
    simp only [modifyNode, node?]
    cases g.nodes[id]? <;> rfl

/-! ## Copies -/

/-- Redirecting a child takes the mark away, unless there was nothing to redirect. -/
theorem redirect_honest (copy : ExprId) (targets : List ExprId) (index : Nat) (g : Grammar) :
    (redirect copy index targets g).prepared = true → redirect copy index targets g = g := by
  induction targets generalizing index g with
  | nil => exact fun _ => rfl
  | cons target rest ih =>
      have hhonest := replaceChild_honest copy index target g
      simp only [Edit.HonestAt, Edit.left] at hhonest
      rw [redirect]
      cases hrun : replaceChild copy index target g
      all_goals
        rw [hrun] at hhonest
        intro hmark
        have hrest := ih (index + 1) _ hmark
        exact hrest.trans (hhonest (hrest ▸ hmark))

theorem copyEach_honest {copyChild : ExprId → Copies → Edit Copies}
    (h : ∀ id copies g, (copyChild id copies).HonestAt g) (children : List ExprId) (copies : Copies)
    (g : Grammar) : (copyEach copyChild children copies).HonestAt g := by
  induction children generalizing copies g with
  | nil => exact .pure copies g
  | cons child rest ih => exact (h child copies g).bind fun copies g' _ => ih copies g'

/-- A new node takes the mark away. -/
theorem push_honest (e : Expr) (g : Grammar) :
    (modifyGet (·.push e) : Edit ExprId).HonestAt g :=
  .of_unmarked rfl

theorem copyFrom_honest (shared : List ExprId) (bound : Nat) (id : ExprId) (copies : Copies)
    (g : Grammar) : (copyFrom shared bound id copies).HonestAt g := by
  induction bound generalizing id copies g with
  | zero => exact .throw _ g
  | succ bound ih =>
      rw [copyFrom]
      split
      · exact .pure copies g
      · refine (Edit.HonestAt.reading _ g).bind fun e g₁ _ => ?_
        refine (push_honest e g₁).bind fun copy g₂ _ => ?_
        refine (copyEach_honest ih _ _ g₂).bind fun copies g₃ _ => ?_
        refine Edit.HonestAt.bind ?_ fun _ g₄ _ => .pure copies g₄
        exact redirect_honest copy _ 0 g₃

/-- A copy adds nodes, and so takes the mark away; sharing everything adds none. -/
theorem deepCopySharing_honest (root : ExprId) (shared : List ExprId) (g : Grammar) :
    (deepCopySharing root shared).HonestAt g := by
  refine Edit.HonestAt.bind (.of_left_eq rfl) fun read g₁ _ => ?_
  refine (copyFrom_honest shared _ root [] g₁).bind fun copies g₂ _ => ?_
  exact .pure _ g₂

/-! ## Passes -/

/-- Redirecting edges is replacing children one by one. -/
theorem redirectEdges_honest (edges : List (ExprId × Nat × ExprId)) (g : Grammar) :
    (redirectEdges edges).HonestAt g := by
  induction edges generalizing g with
  | nil => exact .pure () g
  | cons edge rest ih => exact (replaceChild_honest _ _ _ g).bind fun _ g' _ => ih g'

theorem wrapAll_honest (leftAssociative : Bool) (selected : List ExprId) (g : Grammar) :
    (wrapAll leftAssociative selected).HonestAt g := by
  induction selected generalizing g with
  | nil => exact .pure () g
  | cons id rest ih => exact (wrapInPlace_honest id _ g).bind fun _ g' _ => ih g'

/-- Where nothing is wrapped nothing is changed. -/
theorem breakLeftRecursion_honest (n : Nullability) (options : LeftRecursionOptions) (g : Grammar) :
    (breakLeftRecursion n options).HonestAt g := by
  refine (Edit.HonestAt.reading _ g).bind fun selected g₁ _ => ?_
  exact (wrapAll_honest _ selected g₁).bind fun _ g₂ _ => .pure selected g₂

/-- No rule, root or whitespace is a reference. -/
def EntriesResolved (g : Grammar) : Prop :=
  ∀ id ∈ g.entryPoints, g.isReference id = false

/-- An expression that is no reference leads to itself. -/
theorem followReference_self {names : List (String × ExprId)} {first : String} {limit hops : Nat}
    {target : ExprId} (hid : g.isReference id = false)
    (h : g.followReference names first limit hops id = .ok target) : target = id := by
  rw [followReference.eq_def] at h
  rw [isReference] at hid
  cases hs : g.shape? id with
  | none =>
      simp only [hs] at h
      cases h
  | some s =>
      rw [hs] at hid
      cases s with
      | reference name => cases hid
      | _ =>
          simp only [hs] at h
          cases h
          rfl

/-- Where every entry point leads to itself, none is repointed. -/
theorem repoint_self {entries : List (ExprId × ExprId)} (h : ∀ e ∈ entries, e.2 = e.1) :
    (g.repoint fun id => (entries.lookup id).getD id) = g := by
  have hsame : ∀ id, (entries.lookup id).getD id = id := by
    intro id
    cases hlookup : entries.lookup id with
    | none => rfl
    | some target =>
        obtain ⟨_, _, hsplit, -⟩ := List.lookup_eq_some_iff.mp hlookup
        exact h (id, target) (by simp [hsplit])
  simp [repoint, hsame]

/-- References are resolved without a change that the mark would hide, if no entry point of a marked
    grammar is one. -/
theorem resolveReferences_honest (limit : Nat) (hresolved : g.prepared = true → g.EntriesResolved) :
    (resolveReferences limit).HonestAt g := by
  refine Edit.HonestAt.bind (.of_left_eq rfl) fun read g₁ hread => ?_
  cases hread
  refine (Edit.HonestAt.reading _ g).bind fun events g₁ hwalk => ?_
  obtain ⟨-, rfl⟩ := Edit.reading_ok hwalk
  refine (Edit.HonestAt.reading _ g₁).bind fun redirections g₂ hredirections => ?_
  obtain ⟨-, rfl⟩ := Edit.reading_ok hredirections
  refine (Edit.HonestAt.reading _ g₂).bind fun entries g₃ hentries => ?_
  obtain ⟨htargets, rfl⟩ := Edit.reading_ok hentries
  have hedges := redirectEdges_honest redirections g₃
  refine hedges.bind fun _ g₄ hredirect => ?_
  refine Edit.HonestAt.bind ?_ fun _ g₅ _ => .pure _ g₅
  -- the entry points are repointed on a marked grammar only if no edge was redirected
  intro hmark
  have hsame : g₄ = g₃ := by
    rw [Edit.HonestAt, Edit.left, hredirect] at hedges
    exact hedges hmark
  subst hsame
  refine repoint_self fun e he => ?_
  obtain ⟨id, hid, htarget⟩ := (mem_of_mapM_ok htargets e).mp he
  obtain ⟨target, hfollow, hpair⟩ := ok_of_bind htarget
  cases hpair
  refine followReference_self (hresolved hmark id ?_) hfollow
  simpa [entryPoints, or_comm, or_assoc, or_left_comm] using hid

/-- Preparation that fails is honest like its passes. -/
theorem prepare_failsHonestly (hresolved : g.prepared = true → g.EntriesResolved) :
    (prepare options).FailsHonestlyAt g := by
  refine .bind (.of_left_eq rfl) fun read g₁ hread => ?_
  cases hread
  dsimp only
  split
  · exact (Edit.HonestAt.throw _ g).failsHonestly
  · refine .bind (resolveReferences_honest _ hresolved) fun references g₁ _ => ?_
    refine .bind (.reading _ g₁) fun before g₂ _ => ?_
    -- the checks and the mark end preparation, whether or not nodes were wrapped before
    have hchecks : ∀ wrapped g₃, (do
        let after ← Edit.reading Grammar.nullability
        Edit.reading fun g => g.validate after options
        modify fun g => { g with prepared := true }
        return { references, leftRecursive := wrapped, nullable := after.count } :
          Edit PrepareReport).FailsHonestlyAt g₃ := by
      intro wrapped g₃
      refine .bind (.reading _ g₃) fun after g₄ _ => ?_
      refine .bind (.reading _ g₄) fun _ g₅ _ => ?_
      intro e g' hrun
      cases hrun
    split
    · exact .bind (breakLeftRecursion_honest before _ g₂) fun wrapped g₃ _ => hchecks wrapped g₃
    · exact .bind (.pure _ g₂) fun wrapped g₃ _ => hchecks wrapped g₃

/-- A reference in use is refused. -/
theorem validateNode_resolved (h : g.validateNode n options id = .ok ()) :
    g.isReference id = false := by
  obtain ⟨e, hnode, h⟩ := ok_of_bind h
  rw [isReference, shape?_of_node? (node_ok hnode)]
  cases hs : e.shape with
  | reference name =>
      rw [hs] at h
      cases h
  | _ => rfl

/-- What preparation marks has no entry point that is a reference. -/
theorem prepare_entriesResolved {report : PrepareReport} (h : prepare options g = .ok report g') :
    g'.EntriesResolved := by
  obtain ⟨g₁, n, rfl, -, hvalid⟩ := prepare_validates h
  intro id hentry
  have hnode := (validate_ok hvalid).1 id ⟨id, hentry, .refl⟩
  exact validateNode_resolved (g := g₁) hnode

end Grammar

/-! ## Histories -/

/-- An operation on a grammar. -/
inductive Operation where
  | add (shape : Shape ExprId)
  | insert (term : Term)
  /-- Whatever is written through access to a node. -/
  | write (id : ExprId) (f : Expr → Expr)
  | replaceChild (parent : ExprId) (index : Nat) (child : ExprId)
  | wrapInPlace (id : ExprId) (wrap : ExprId → Shape ExprId)
  | defineRule (name : String) (id : ExprId)
  | setRoot (id : ExprId)
  | setWhitespace (id : ExprId)
  | deepCopy (root : ExprId)
  | deepCopySharing (root : ExprId) (shared : List ExprId)
  | resolveReferences (limit : Nat)
  /-- The analysis may be that of another grammar. -/
  | breakLeftRecursion (n : Nullability) (options : LeftRecursionOptions)
  | prepare (options : PrepareOptions)

namespace Operation

/-- What an operation does to a grammar, whatever it returns. -/
def edit : Operation → Edit Unit
  | .add shape => modify fun g => (g.add shape).2
  | .insert term => modify fun g => (term.insert g).2
  | .write id f => Grammar.modifyNode id f
  | .replaceChild parent index child => Grammar.replaceChild parent index child
  | .wrapInPlace id wrap => Edit.silent (Grammar.wrapInPlace id wrap)
  | .defineRule name id => Edit.silent (Grammar.defineRule name id)
  | .setRoot id => modify (·.setRoot id)
  | .setWhitespace id => modify (·.setWhitespace id)
  | .deepCopy root => Edit.silent (Grammar.deepCopy root)
  | .deepCopySharing root shared => Edit.silent (Grammar.deepCopySharing root shared)
  | .resolveReferences limit => Edit.silent (Grammar.resolveReferences limit)
  | .breakLeftRecursion n options => Edit.silent (Grammar.breakLeftRecursion n options)
  | .prepare options => Edit.silent (Grammar.prepare options)

/-- Whether the operation is a preparation. -/
def prepares : Operation → Bool
  | .prepare _ => true
  | _ => false

end Operation

/-- A grammar under edit, and what the latest successful preparation made of it. -/
structure History where
  grammar : Grammar := {}
  latest : Option Grammar := none

namespace History

/-- One more operation.  A failing one changes the grammar as far as it got. -/
def after (h : History) (op : Operation) : History :=
  match op.edit h.grammar with
  | .ok _ g => { grammar := g, latest := if op.prepares then some g else h.latest }
  | .error _ g => { h with grammar := g }

/-- The history of a grammar that began empty. -/
def of (ops : List Operation) : History :=
  ops.foldl after {}

/-- A marked grammar is what the latest preparation made, and only preparation makes one the
    latest. -/
structure Sound (h : History) : Prop where
  marked : h.grammar.prepared = true → h.latest = some h.grammar
  made : ∀ g, h.latest = some g → ∃ options g₀ report, Grammar.prepare options g₀ = .ok report g

end History

namespace Operation

variable {g g' : Grammar}

/-- Of the operations only preparation sets the mark.  Resolution may leave it in place, where the
    entries are resolved and there is nothing to redirect. -/
theorem edit_honest (op : Operation) (hop : op.prepares = false)
    (hresolved : g.prepared = true → g.EntriesResolved) : op.edit.HonestAt g := by
  cases op with
  | add shape => exact .of_unmarked rfl
  | insert term =>
      cases term with
      | existing id => exact .of_left_eq rfl
      | node shape => exact .of_unmarked rfl
  | write id f => exact Grammar.modifyNode_honest id f g
  | replaceChild parent index child => exact Grammar.replaceChild_honest parent index child g
  | wrapInPlace id wrap => exact (Grammar.wrapInPlace_honest id wrap g).silent
  | defineRule name id => exact (Grammar.defineRule_honest name id g).silent
  | setRoot id => exact .of_unmarked rfl
  | setWhitespace id => exact .of_unmarked rfl
  | deepCopy root => exact (Grammar.deepCopySharing_honest root [] g).silent
  | deepCopySharing root shared => exact (Grammar.deepCopySharing_honest root shared g).silent
  | resolveReferences limit => exact (Grammar.resolveReferences_honest limit hresolved).silent
  | breakLeftRecursion n options =>
      exact (Grammar.breakLeftRecursion_honest n options g).silent
  | prepare options => cases hop

end Operation

namespace History

theorem sound_empty : Sound {} where
  marked := fun hmark => by cases hmark
  made := fun g hg => by cases hg

/-- No operation breaks the trust in the mark. -/
theorem Sound.after {h : History} (hsound : h.Sound) (op : Operation) : (h.after op).Sound := by
  have hresolved : h.grammar.prepared = true → h.grammar.EntriesResolved := by
    intro hmark
    obtain ⟨options, g₀, report, hprepare⟩ := hsound.made _ (hsound.marked hmark)
    exact Grammar.prepare_entriesResolved hprepare
  -- what fails honestly, or is honest and no preparation, keeps the latest preparation
  have hkept : ∀ g, (g.prepared = true → g = h.grammar) → Sound { h with grammar := g } := by
    intro g hsame
    refine ⟨fun hmark => ?_, hsound.made⟩
    obtain rfl := hsame hmark
    exact hsound.marked hmark
  cases hop : op.prepares with
  | false =>
      have hhonest := op.edit_honest hop hresolved
      rw [Edit.HonestAt, Edit.left] at hhonest
      rw [History.after]
      cases hrun : op.edit h.grammar with
      | ok _ g =>
          rw [hrun] at hhonest
          simpa [hop] using hkept g hhonest
      | error e g =>
          rw [hrun] at hhonest
          exact hkept g hhonest
  | true =>
      obtain ⟨options, rfl⟩ : ∃ options, op = .prepare options := by
        cases op <;> first | exact ⟨_, rfl⟩ | cases hop
      have hfails : (Operation.prepare options).edit.FailsHonestlyAt h.grammar :=
        (Grammar.prepare_failsHonestly hresolved).silent
      rw [History.after]
      cases hrun : (Operation.prepare options).edit h.grammar with
      | error e g => exact hkept g (hfails e g hrun)
      | ok _ g =>
          obtain ⟨report, _, hprepare, hreturn⟩ := Edit.bind_ok hrun
          cases hreturn
          refine ⟨fun _ => rfl, ?_⟩
          rintro _ ⟨⟩
          exact ⟨options, h.grammar, report, hprepare⟩

/-- A history ends with a grammar whose mark can be trusted. -/
theorem sound_of (ops : List Operation) : (of ops).Sound := by
  have hfrom : ∀ (h : History), h.Sound → (ops.foldl History.after h).Sound := by
    induction ops with
    | nil => exact fun h hsound => hsound
    | cons op rest ih => exact fun h hsound => ih _ (hsound.after op)
  exact hfrom _ sound_empty

/-- Whatever is done to a grammar, in whatever order and with whatever success: while it is marked
    as prepared, it has the expressions, the rules, the root and the whitespace that the latest
    successful preparation left. -/
theorem prepared_latest (ops : List Operation) (hmark : (of ops).grammar.prepared = true) :
    ∃ g, (of ops).latest = some g ∧ (of ops).grammar.nodes = g.nodes ∧
      (of ops).grammar.rules = g.rules ∧ (of ops).grammar.root = g.root ∧
      (of ops).grammar.whitespace = g.whitespace :=
  ⟨_, (sound_of ops).marked hmark, rfl, rfl, rfl, rfl⟩

/-- Sums of `n` by a left-recursive rule, prepared.  Then an edit fails and references are resolved
    once more, which leaves the mark. -/
def sumOperations : List Operation :=
  [.insert (.choice [.seq [.rule "sum", .lit "+", .lit "n"], .lit "n"]), .defineRule "sum" 5,
    .setRoot 5, .prepare {}, .replaceChild 3 9 0, .resolveReferences 100]

/-- A history ending in a preparation: the mark is there, and the grammar is the one that
    preparation left. -/
theorem prepared_latest_sum :
    (of sumOperations).grammar.prepared = true ∧
      ∃ g, (of sumOperations).latest = some g ∧ (of sumOperations).grammar.nodes = g.nodes ∧
        (of sumOperations).grammar.rules = g.rules ∧ (of sumOperations).grammar.root = g.root ∧
        (of sumOperations).grammar.whitespace = g.whitespace := by
  have hmark : (of sumOperations).grammar.prepared = true := by decide +kernel
  exact ⟨hmark, prepared_latest sumOperations hmark⟩

end History

end Packrat
