import Packrat.Proofs.Peg.Agreement
import Packrat.Proofs.FirstCycles

/-! # Who says that a cycle is left

    Of all that preparation does only the last check complains of a cycle of first positions that no
    boundary breaks, and it does so only where the search selects a node (`validate_unblamed`). -/

namespace Packrat

/-- The fault that a cycle of first positions is left. -/
def Fault.isUnbroken : Fault → Bool
  | .grammar (.unbrokenLeftRecursion _) => true
  | _ => false

/-- Whatever fault there is has a property. -/
def Raises {α : Type} (P : Fault → Prop) (r : Except Fault α) : Prop :=
  ∀ e, r = .error e → P e

/-- Whatever fault there is, it is not that a cycle is left. -/
abbrev Unblamed {α : Type} (r : Except Fault α) : Prop :=
  Raises (fun e => e.isUnbroken = false) r

/-- The same of an edit of a grammar. -/
def Edit.UnblamedAt {α : Type} (x : Edit α) (g : Grammar) : Prop :=
  ∀ e g', x g = .error e g' → e.isUnbroken = false

namespace Raises

variable {α β : Type} {P : Fault → Prop} {r : Except Fault α} {f : α → Except Fault β}

theorem ok (a : α) : Raises P (.ok a) := by
  intro e h
  cases h

theorem error {e : Fault} (he : P e) : Raises P (.error e : Except Fault α) := by
  intro e' h
  cases h
  exact he

/-- A fault of a bind comes from the first part or, after an answer of it, from the second. -/
theorem bind (hr : Raises P r) (hf : ∀ a, r = .ok a → Raises P (f a)) : Raises P (r >>= f) := by
  intro e h
  cases hrun : r with
  | error e' =>
      rw [hrun] at h
      cases h
      exact hr e hrun
  | ok a =>
      rw [hrun] at h
      exact hf a hrun e h

theorem mapM (hf : ∀ a, Raises P (f a)) (l : List α) : Raises P (l.mapM f) := by
  induction l with
  | nil => exact ok []
  | cons a rest ih =>
      rw [List.mapM_cons]
      exact (hf a).bind fun b _ => ih.bind fun bs _ => ok (b :: bs)

/-- A check of a list faults as one of its elements does. -/
theorem forM {f : α → Except Fault PUnit} {l : List α} (hf : ∀ a ∈ l, Raises P (f a)) :
    Raises P (l.forM f) := by
  induction l with
  | nil => exact ok _
  | cons a rest ih =>
      obtain ⟨ha, hrest⟩ := List.forall_mem_cons.mp hf
      exact ha.bind fun _ _ => ih hrest

end Raises

namespace Edit.UnblamedAt

variable {α β : Type} {x : Edit α} {f : α → Edit β} {g : Grammar}

theorem pure (a : α) (g : Grammar) : (pure a : Edit α).UnblamedAt g := by
  intro e g' h
  cases h

/-- Reading a grammar faults as what is read does. -/
theorem reading {r : Grammar → Except Fault α} (h : Unblamed (r g)) : (Edit.reading r).UnblamedAt g := by
  intro e g' hrun
  rw [Edit.reading] at hrun
  cases hr : r g with
  | ok a =>
      rw [hr] at hrun
      cases hrun
  | error e' =>
      rw [hr] at hrun
      cases hrun
      exact h e hr

/-- An edit that fails after an edit that does not is to be judged where that one ended. -/
theorem bind (hx : x.UnblamedAt g) (hf : ∀ a g', x g = .ok a g' → (f a).UnblamedAt g') :
    (x >>= f).UnblamedAt g := by
  intro e g₂ h
  simp only [Bind.bind, EStateM.bind] at h
  cases hrun : x g with
  | error e' g' =>
      rw [hrun] at h
      cases h
      exact hx e g₂ hrun
  | ok a g' =>
      rw [hrun] at h
      exact hf a g' hrun e g₂ h

end Edit.UnblamedAt

namespace Grammar

variable {g : Grammar} {n : Nullability} {options : PrepareOptions}

/-- An id without a node is a crash. -/
theorem node_unblamed (g : Grammar) (id : ExprId) : Unblamed (g.node id) := by
  rw [node]
  split
  · exact .ok _
  · exact .error rfl

/-- A walk only complains of ids that have no node. -/
theorem walkOver_unblamed (g : Grammar) (graph : Walk.Graph) (roots : List ExprId) :
    Unblamed (g.walkOver graph roots) := by
  rw [walkOver]
  dsimp only
  split
  · exact .error rfl
  · exact .ok _

/-- A reference that is followed is unknown, follows too many others, or dangles. -/
theorem followReference_unblamed (names : List (String × ExprId)) (first : String)
    (limit hops : Nat) (id : ExprId) : Unblamed (g.followReference names first limit hops id) := by
  induction hops generalizing id with
  | zero =>
      rw [followReference.eq_def]
      cases hs : g.shape? id with
      | none =>
          simp only [hs]
          exact .error rfl
      | some s =>
          simp only [hs]
          cases s with
          | reference name => exact .error rfl
          | _ => exact .ok id
  | succ hops ih =>
      rw [followReference.eq_def]
      cases hs : g.shape? id with
      | none =>
          simp only [hs]
          exact .error rfl
      | some s =>
          simp only [hs]
          cases s with
          | reference name =>
              dsimp only
              cases names.lookup name with
              | none => exact .error rfl
              | some next => exact ih next
          | _ => exact .ok id

theorem redirectEdges_unblamed (edges : List (ExprId × Nat × ExprId)) (g : Grammar) :
    (redirectEdges edges).UnblamedAt g := by
  induction edges generalizing g with
  | nil => exact .pure () g
  | cons edge rest ih =>
      refine Edit.UnblamedAt.bind ?_ fun _ g' _ => ih g'
      intro e g' h
      rw [replaceChild] at h
      split at h
      · cases h
        rfl
      · split at h <;> cases h
        rfl

/-- Resolution only complains of references. -/
theorem resolveReferences_unblamed (limit : Nat) (g : Grammar) :
    (resolveReferences limit).UnblamedAt g := by
  refine Edit.UnblamedAt.bind (fun e g' h => by cases h) fun read g₁ _ => ?_
  refine .bind (.reading (walkOver_unblamed _ _ _)) fun events g₂ _ => ?_
  refine .bind (.reading (.mapM (fun _ => ?_) _)) fun redirections g₃ _ => ?_
  · exact (followReference_unblamed _ _ _ _ _).bind fun _ _ => .ok _
  refine .bind (.reading (.mapM (fun _ => ?_) _)) fun entries g₄ _ => ?_
  · exact (followReference_unblamed _ _ _ _ _).bind fun _ _ => .ok _
  refine (redirectEdges_unblamed redirections g₄).bind fun _ g₅ _ => ?_
  exact .bind (fun e g' h => by cases h) fun _ g₆ _ => .pure _ g₆

/-- Nullability only faults as its walk does. -/
theorem nullability_unblamed (g : Grammar) : Unblamed g.nullability :=
  (walkOver_unblamed _ _ _).bind fun _ _ => .ok _

/-- Wrapping complains of nothing but ids without a node. -/
theorem wrapAll_unblamed (leftAssociative : Bool) (selected : List ExprId) (g : Grammar) :
    (wrapAll leftAssociative selected).UnblamedAt g := by
  induction selected generalizing g with
  | nil => exact .pure () g
  | cons id rest ih =>
      refine Edit.UnblamedAt.bind ?_ fun _ g' _ => ih g'
      intro e g' h
      rw [wrapInPlace] at h
      split at h
      · cases h
        rfl
      · cases h

/-- Breaking cycles never says that one is left. -/
theorem breakLeftRecursion_unblamed (n : Nullability) (options : LeftRecursionOptions)
    (g : Grammar) : (breakLeftRecursion n options).UnblamedAt g := by
  refine .bind (.reading ((walkOver_unblamed _ _ _).bind fun _ _ => .ok _)) fun selected g₁ _ => ?_
  exact (wrapAll_unblamed _ selected g₁).bind fun _ g₂ _ => .pure _ g₂

/-- A description that does not end is a crash. -/
theorem describe_unblamed (g : Grammar) (id : ExprId) : Unblamed (g.describe id) := by
  rw [describe]
  generalize g.size + 1 = steps
  induction steps generalizing id with
  | zero => exact .error rfl
  | succ steps ih =>
      rw [describeWithin]
      split
      · exact .error rfl
      · split
        · exact .ok _
        · split
          case h_6 =>
            split
            · exact .ok _
            · exact ih _
          all_goals first | exact .ok _ | exact ih _

/-- The check of a single node complains of its shape. -/
theorem validateNode_unblamed (g : Grammar) (n : Nullability) (options : PrepareOptions)
    (id : ExprId) : Unblamed (g.validateNode n options id) := by
  rw [validateNode]
  refine (node_unblamed g id).bind fun e _ => ?_
  cases e.shape with
  | reference name => exact .error rfl
  | zeroMore operand | oneMore operand =>
      dsimp only
      split
      · exact (describe_unblamed g id).bind fun _ _ => .error rfl
      · exact .ok _
  | cluster groups =>
      dsimp only
      cases Group.sharedPrecedence? groups with
      | none => exact .ok _
      | some precedence => exact (describe_unblamed g id).bind fun _ _ => .error rfl
  | _ => exact .ok _

/-- The check of the whitespace complains of what has no fast path. -/
theorem validateWhitespace_unblamed (g : Grammar) : Unblamed g.validateWhitespace := by
  rw [validateWhitespace]
  split
  · exact .ok _
  · refine Raises.bind ((walkOver_unblamed _ _ _).bind fun _ _ => .ok _) fun culprit _ => ?_
    split
    · exact .ok _
    · exact (node_unblamed g _).bind fun _ _ => .error rfl

/-- Where the search selects nothing, the checks do not say that a cycle is left. -/
theorem validate_unblamed (hdetect : g.detectLeftRecursion n = .ok []) :
    Unblamed (g.validate n options) := by
  rw [validate]
  split
  · exact .error rfl
  · refine Raises.bind ((walkOver_unblamed _ _ _).bind fun _ _ => .ok _) fun ids _ => ?_
    refine (Raises.forM fun id _ => validateNode_unblamed g n options id).bind fun _ _ => ?_
    refine (validateWhitespace_unblamed g).bind fun _ _ => ?_
    rw [hdetect]
    exact .ok _

end Grammar

end Packrat
