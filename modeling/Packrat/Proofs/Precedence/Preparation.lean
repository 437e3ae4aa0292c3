import Packrat.Proofs.Precedence.Relevel
import Packrat.Proofs.Preparation.Idempotence

/-! # Preparing a grammar at other precedences

    Preparation looks at precedences in one place: it refuses a cluster of which two groups share
    one.  Precedences that keep their order stay different.  So a grammar that can be prepared can
    be prepared at the other precedences too, and what comes out is the prepared grammar at these
    precedences (`Grammar.prepare_relevel`): it makes no difference which is done first. -/

namespace Packrat

open Growth

variable {φ : Precedence → Precedence}

/-! ## Shapes -/

/-- Children are counted across groups whatever the precedences are. -/
theorem Group.setChild?_relevel {α : Type} (groups : List (Group α)) (index : Nat) (child : α) :
    Group.setChild? (groups.map (Group.relevel φ)) index child =
      (Group.setChild? groups index child).map (List.map (Group.relevel φ)) := by
  induction groups generalizing index with
  | nil => rfl
  | cons group rest ih =>
      have halternatives : (group.relevel φ).alternatives = group.alternatives := rfl
      rw [List.map_cons, setChild?, setChild?, halternatives]
      split
      · rfl
      · rw [ih, Option.map_map, Option.map_map]
        rfl

/-- Precedences that keep their order are shared if they were. -/
theorem Group.sharedPrecedence?_relevel {groups : List (Group ExprId)}
    (hkeeps : KeepsOrder φ groups) (h : Group.sharedPrecedence? groups = none) :
    Group.sharedPrecedence? (groups.map (Group.relevel φ)) = none := by
  induction groups with
  | nil => rfl
  | cons a rest ih =>
      cases rest with
      | nil => rfl
      | cons b rest =>
          simp only [sharedPrecedence?] at h
          split at h
          · cases h
          · rename_i hne
            have hrest : KeepsOrder φ (b :: rest) :=
              ⟨fun a ha b hb => hkeeps.lt a (.tail _ ha) b (.tail _ hb),
                fun a ha => hkeeps.top a (.tail _ ha)⟩
            have hne' : ¬ (a.relevel φ).precedence = (b.relevel φ).precedence := by
              intro heq
              have hle := (hkeeps.le_iff (.head _) (.tail _ (.head _))).mp (UInt32.le_of_eq heq)
              have hge := (hkeeps.le_iff (.tail _ (.head _)) (.head _)).mp
                (UInt32.le_of_eq heq.symm)
              exact hne (UInt32.le_antisymm hle hge)
            simp only [List.map_cons, sharedPrecedence?, if_neg hne']
            exact ih hrest h

namespace Shape

variable {α : Type}

/-- A child is put in the same place at other precedences. -/
theorem setChild?_relevel (s : Shape α) (index : Nat) (child : α) :
    (s.relevel φ).setChild? index child = (s.setChild? index child).map (Shape.relevel φ) := by
  cases s with
  | literal | any | range | set | reference => rfl
  | sequence items | choice items | custom _ items =>
      simp only [relevel, setChild?, Option.map_map]
      rfl
  | cluster groups =>
      simp only [relevel, setChild?, Group.setChild?_relevel, Option.map_map]
      rfl
  | optional | zeroMore | oneMore | lookahead | not | token | capture | leftRecursive
  | minPrecedence =>
      simp only [relevel, setChild?]
      split <;> rfl

@[simp] theorem children_relevel (s : Shape α) : (s.relevel φ).children = s.children := by
  cases s with
  | cluster groups => exact List.flatMap_map ..
  | _ => rfl

@[simp] theorem strategy_relevel (s : Shape ExprId) : (s.relevel φ).strategy = s.strategy := by
  cases s with
  | cluster groups => exact congrArg Strategy.any (children_relevel (.cluster groups))
  | _ => rfl

@[simp] theorem firsts_relevel (nullable : ExprId → Bool) (s : Shape ExprId) :
    (s.relevel φ).firsts nullable = s.firsts nullable := by
  cases s with
  | cluster groups => exact children_relevel (.cluster groups)
  | _ => rfl

@[simp] theorem isReference_relevel (s : Shape α) : (s.relevel φ).isReference = s.isReference := by
  cases s <;> rfl

@[simp] theorem isBoundary_relevel (s : Shape α) : (s.relevel φ).isBoundary = s.isBoundary := by
  cases s <;> rfl

@[simp] theorem hasFastPath_relevel (s : Shape α) : (s.relevel φ).hasFastPath = s.hasFastPath := by
  cases s <;> rfl

@[simp] theorem defaultFlags_relevel (s : Shape α) :
    (s.relevel φ).defaultFlags = s.defaultFlags := by
  cases s <;> rfl

end Shape

namespace Grammar

variable {g g' : Grammar} {n : Nullability} {options : PrepareOptions} {report : PrepareReport}

/-! ## What the passes read -/

/-- What depends on a shape and not on its precedences. -/
theorem shape?_map_relevel {β : Type} {f : Shape ExprId → β} (hf : ∀ s, f (s.relevel φ) = f s)
    (g : Grammar) (id : ExprId) : ((g.relevel φ).shape? id).map f = (g.shape? id).map f := by
  rw [shape?_relevel, Option.map_map]
  exact congrArg (Option.map · (g.shape? id)) (funext hf)

/-- A test that does not look at precedences sees none of a grammar. -/
theorem shape?_any_relevel {f : Shape ExprId → Bool} (hf : ∀ s, f (s.relevel φ) = f s)
    (g : Grammar) (id : ExprId) : ((g.relevel φ).shape? id).any f = (g.shape? id).any f := by
  rw [shape?_relevel]
  cases g.shape? id with
  | none => rfl
  | some s => exact hf s

/-- Walks follow children, which stay the same. -/
theorem walkOver_relevel (g : Grammar) : (g.relevel φ).walkOver = g.walkOver := by
  funext graph roots
  rw [walkOver, walkOver, pathBound, pathBound, size_relevel]

theorem walk_relevel (φ : Precedence → Precedence) (g : Grammar) : (g.relevel φ).walk = g.walk := by
  have hchildren : (g.relevel φ).children? = g.children? :=
    funext (shape?_map_relevel Shape.children_relevel g)
  funext roots
  rw [walk, walk, walkOver_relevel, hchildren]

theorem isReference_relevel (g : Grammar) : (g.relevel φ).isReference = g.isReference :=
  funext (shape?_any_relevel Shape.isReference_relevel g)

theorem isBoundary_relevel (g : Grammar) : (g.relevel φ).isBoundary = g.isBoundary :=
  funext (shape?_any_relevel Shape.isBoundary_relevel g)

/-- First positions depend on shapes and nullability, not on precedences. -/
theorem firsts?_relevel (g : Grammar) (n : Nullability) :
    (g.relevel φ).firsts? n = g.firsts? n :=
  funext (shape?_map_relevel (Shape.firsts_relevel n.isNullable) g)

theorem ids_relevel (φ : Precedence → Precedence) (g : Grammar) : (g.relevel φ).ids = g.ids := by
  rw [ids, ids, size_relevel]

/-! ## References -/

/-- Names stand for the same nodes. -/
theorem nameTable_relevel (φ : Precedence → Precedence) (g : Grammar) (events : List Walk.Event) :
    (g.relevel φ).nameTable events = g.nameTable events := by
  have hname : ∀ id, (((g.relevel φ).node? id).bind fun e => e.name.map (·, id)) =
      (g.node? id).bind fun e => e.name.map (·, id) := by
    intro id
    rw [node?_relevel]
    cases g.node? id <;> rfl
  simp only [nameTable, hname]
  rfl

/-- The same edges lead to references. -/
theorem referenceEdges_relevel (φ : Precedence → Precedence) (g : Grammar) (events : List Walk.Event) :
    (g.relevel φ).referenceEdges events = g.referenceEdges events := by
  induction events with
  | nil => rfl
  | cons event rest ih =>
      cases event with
      | edge parent index child => simp only [referenceEdges, isReference_relevel, ih]
      | _ => exact ih

/-- A reference leads to the same node. -/
theorem followReference_relevel (g : Grammar) (names : List (String × ExprId)) (first : String)
    (limit hops : Nat) (id : ExprId) :
    (g.relevel φ).followReference names first limit hops id =
      g.followReference names first limit hops id := by
  induction hops generalizing id with
  | zero =>
      rw [followReference.eq_def, followReference.eq_def]
      simp only [shape?_relevel]
      cases g.shape? id with
      | none => rfl
      | some s => cases s <;> rfl
  | succ hops ih =>
      rw [followReference.eq_def, followReference.eq_def]
      simp only [shape?_relevel]
      cases g.shape? id with
      | none => rfl
      | some s =>
          cases s with
          | reference name =>
              simp only [Option.map_some, Shape.relevel]
              cases names.lookup name with
              | none => rfl
              | some next => exact ih next
          | _ => rfl

theorem referenceTarget_relevel (φ : Precedence → Precedence) (g : Grammar)
    (names : List (String × ExprId)) (limit : Nat) :
    (g.relevel φ).referenceTarget names limit = g.referenceTarget names limit := by
  funext id
  rw [referenceTarget, referenceTarget, shape?_relevel]
  cases g.shape? id with
  | none => exact followReference_relevel ..
  | some s => cases s <;> exact followReference_relevel ..

/-- Replacing a child and changing the precedences commute. -/
theorem replaceChild_relevel {parent index child : Nat}
    (h : replaceChild parent index child g = .ok () g') :
    replaceChild parent index child (g.relevel φ) = .ok () (g'.relevel φ) := by
  rw [replaceChild] at h ⊢
  rw [node?_relevel]
  cases he : g.node? parent with
  | none =>
      rw [he] at h
      cases h
  | some e =>
      simp only [he] at h
      have hset : (e.relevel φ).shape.setChild? index child =
          (e.shape.setChild? index child).map (Shape.relevel φ) :=
        Shape.setChild?_relevel e.shape index child
      simp only [Option.map_some, hset]
      cases hs : e.shape.setChild? index child with
      | none =>
          rw [hs] at h
          cases h
      | some s =>
          simp only [hs] at h
          cases h
          simp only [Option.map_some, relevel, Array.map_setIfInBounds]
          rfl

/-- Edges are redirected alike, one by one. -/
theorem redirectEdges_relevel {edges : List (ExprId × Nat × ExprId)}
    (h : redirectEdges edges g = .ok () g') :
    redirectEdges edges (g.relevel φ) = .ok () (g'.relevel φ) := by
  induction edges generalizing g with
  | nil =>
      cases h
      rfl
  | cons edge rest ih =>
      obtain ⟨⟨⟩, g₁, hreplace, hrest⟩ := Edit.bind_ok h
      exact (Edit.bind_of_ok (replaceChild_relevel hreplace)).trans (ih hrest)

/-- References are resolved alike: as many are redirected, to the same nodes. -/
theorem resolveReferences_relevel {limit count : Nat} (h : resolveReferences limit g = .ok count g') :
    resolveReferences limit (g.relevel φ) = .ok count (g'.relevel φ) := by
  obtain ⟨start, _, hget, h₁⟩ := Edit.bind_ok h
  obtain ⟨events, _, hread, h₂⟩ := Edit.bind_ok h₁
  obtain ⟨hwalk, rfl⟩ := Edit.reading_ok hread
  obtain ⟨redirections, _, hread, h₃⟩ := Edit.bind_ok h₂
  obtain ⟨hredirections, rfl⟩ := Edit.reading_ok hread
  obtain ⟨entries, _, hread, h₄⟩ := Edit.bind_ok h₃
  obtain ⟨hentries, rfl⟩ := Edit.reading_ok hread
  obtain ⟨⟨⟩, redirected, hredirect, hend⟩ := Edit.bind_ok h₄
  cases hend
  cases hget
  -- all that is read is read at the other precedences, too
  rw [← walk_relevel φ, ← ids_relevel φ] at hwalk
  rw [← referenceEdges_relevel φ, ← nameTable_relevel φ,
    ← referenceTarget_relevel φ] at hredirections
  rw [← nameTable_relevel φ, ← referenceTarget_relevel φ] at hentries
  refine (Edit.bind_of_ok (show (get : Edit Grammar) (relevel φ _) = .ok _ _ from rfl)).trans ?_
  refine (Edit.bind_of_ok (Edit.reading_of_ok hwalk)).trans ?_
  refine (Edit.bind_of_ok (Edit.reading_of_ok hredirections)).trans ?_
  refine (Edit.bind_of_ok (Edit.reading_of_ok hentries)).trans ?_
  refine (Edit.bind_of_ok (redirectEdges_relevel hredirect)).trans ?_
  rw [referenceEdges_relevel]
  rfl

/-! ## Nullability -/

/-- The search for nullability reads strategies, which have no precedences in them. -/
theorem consider_relevel (g : Grammar) :
    Nullability.Search.consider (g.relevel φ) = Nullability.Search.consider g := by
  funext s id
  rw [Nullability.Search.consider, Nullability.Search.consider, shape?_relevel]
  cases g.shape? id with
  | none => rfl
  | some shape => simp only [Option.map_some, Shape.strategy_relevel, Shape.children_relevel]

/-- The same expressions are nullable. -/
theorem nullability_relevel (φ : Precedence → Precedence) (g : Grammar) :
    (g.relevel φ).nullability = g.nullability := by
  have hpropagate : ∀ bound, Nullability.Search.propagate (g.relevel φ) bound =
      Nullability.Search.propagate g bound := by
    intro bound
    induction bound with
    | zero => rfl
    | succ bound ih =>
        funext s
        simp only [Nullability.Search.propagate, consider_relevel, ih]
  have hleave : Nullability.Search.leave (g.relevel φ) = Nullability.Search.leave g := by
    funext s id
    rw [Nullability.Search.leave, Nullability.Search.leave, consider_relevel, size_relevel,
      hpropagate]
  have hinitial : Nullability.Search.initial (g.relevel φ) = Nullability.Search.initial g := by
    rw [Nullability.Search.initial, Nullability.Search.initial, size_relevel]
  rw [nullability, nullability, walk_relevel, ids_relevel, hleave, hinitial]

/-! ## Left recursion -/

/-- The search selects the same nodes, in the same order. -/
theorem detectLeftRecursion_relevel (φ : Precedence → Precedence) (g : Grammar) (n : Nullability) :
    (g.relevel φ).detectLeftRecursion n = g.detectLeftRecursion n := by
  rw [detectLeftRecursion, detectLeftRecursion, walkOver_relevel, firsts?_relevel, ids_relevel,
    isBoundary_relevel]
  rfl

/-- A cluster that is wrapped keeps its groups, at whatever precedences. -/
theorem wrapInPlace_relevel {id inner : ExprId} {leftAssociative : Bool}
    (h : wrapInPlace id (.leftRecursive · leftAssociative) g = .ok inner g') :
    wrapInPlace id (.leftRecursive · leftAssociative) (g.relevel φ) =
      .ok inner (g'.relevel φ) := by
  rw [wrapInPlace] at h ⊢
  rw [node?_relevel]
  cases he : g.node? id with
  | none =>
      rw [he] at h
      cases h
  | some e =>
      simp only [he] at h
      cases h
      simp only [Option.map_some, push, size_relevel]
      simp only [relevel, Array.map_setIfInBounds, Array.map_push, Expr.relevel, Expr.ofShape,
        Shape.defaultFlags_relevel]
      rfl

/-- The same nodes are wrapped, under the same new ids. -/
theorem wrapAll_relevel {leftAssociative : Bool} {selected : List ExprId}
    (h : wrapAll leftAssociative selected g = .ok () g') :
    wrapAll leftAssociative selected (g.relevel φ) = .ok () (g'.relevel φ) := by
  induction selected generalizing g with
  | nil =>
      cases h
      rfl
  | cons id rest ih =>
      obtain ⟨inner, g₁, hwrap, hrest⟩ := Edit.bind_ok h
      exact (Edit.bind_of_ok (wrapInPlace_relevel hwrap)).trans (ih hrest)

/-- Cycles are broken, or left alone, alike. -/
theorem breakAsAsked_relevel {wrapped : List ExprId} (h : breakAsAsked options n g = .ok wrapped g') :
    breakAsAsked options n (g.relevel φ) = .ok wrapped (g'.relevel φ) := by
  rw [breakAsAsked] at h ⊢
  split at h
  · rename_i hasked
    rw [if_pos hasked]
    obtain ⟨selected, _, hread, h₁⟩ := Edit.bind_ok h
    obtain ⟨hdetect, rfl⟩ := Edit.reading_ok hread
    obtain ⟨⟨⟩, g₂, hwrap, hend⟩ := Edit.bind_ok h₁
    cases hend
    rw [← detectLeftRecursion_relevel φ] at hdetect
    refine (Edit.bind_of_ok (Edit.reading_of_ok hdetect)).trans ?_
    exact (Edit.bind_of_ok (wrapAll_relevel hwrap)).trans rfl
  · rename_i hasked
    rw [if_neg hasked]
    cases h
    rfl

/-! ## The checks -/

theorem node_relevel (g : Grammar) (id : ExprId) :
    (g.relevel φ).node id = (g.node id).map (Expr.relevel φ) := by
  rw [node, node, node?_relevel]
  cases g.node? id <;> rfl

section Checks

variable (hkeeps : ∀ id groups, g.shape? id = some (.cluster groups) → KeepsOrder φ groups)

include hkeeps in
/-- Two groups share a precedence only if they did before, as their order is kept. -/
theorem validateNode_relevel {id : ExprId} (h : g.validateNode n options id = .ok ()) :
    (g.relevel φ).validateNode n options id = .ok () := by
  obtain ⟨⟨name, s, flags⟩, hnode, h⟩ := ok_of_bind h
  have hs : g.shape? id = some s := shape?_of_node? (node_ok hnode)
  rw [validateNode, node_relevel, hnode, describe_relevel]
  cases s with
  | cluster groups =>
      cases hshared : Group.sharedPrecedence? groups with
      | some precedence =>
          simp only [hshared] at h
          obtain ⟨_, -, hthrow⟩ := ok_of_bind h
          cases hthrow
      | none =>
          have hshared' := Group.sharedPrecedence?_relevel (hkeeps id groups hs) hshared
          simp only [Except.map, bind, Except.bind, Expr.relevel, Shape.relevel, hshared']
          rfl
  | _ => exact h

/-- What may be skipped has no precedences. -/
theorem fastPathCulprit_relevel (g : Grammar) (id : ExprId) :
    (g.relevel φ).fastPathCulprit id = g.fastPathCulprit id := by
  have hpath : (g.relevel φ).hasFastPath = g.hasFastPath :=
    funext (shape?_any_relevel Shape.hasFastPath_relevel g)
  rw [fastPathCulprit, fastPathCulprit, walk_relevel, hpath]

/-- Whitespace that passed the check passes it again. -/
theorem validateWhitespace_relevel (h : g.validateWhitespace = .ok ()) :
    (g.relevel φ).validateWhitespace = .ok () := by
  have hwhitespace : (g.relevel φ).whitespace = g.whitespace := rfl
  rw [validateWhitespace, hwhitespace]
  cases hws : g.whitespace with
  | none => rfl
  | some ws =>
      simp only [fastPathCulprit_relevel, validateWhitespace_ok h hws]
      rfl

include hkeeps in
/-- A grammar that passed the checks passes them at the other precedences. -/
theorem validate_relevel (h : g.validate n options = .ok ()) :
    (g.relevel φ).validate n options = .ok () := by
  obtain ⟨root, hroot⟩ := validate_root h
  have hreachable : (g.relevel φ).reachable = g.reachable := by
    rw [reachable, reachable, walk_relevel]
    rfl
  have hdetect := validate_detects h
  rw [← detectLeftRecursion_relevel φ] at hdetect
  have hwhitespace : (g.relevel φ).validateWhitespace = .ok () :=
    validateWhitespace_relevel (validate_ok h).2
  rw [validate, hroot] at h
  obtain ⟨ids, hids, h⟩ := ok_of_bind h
  obtain ⟨⟨⟩, hnodes, -⟩ := ok_of_bind h
  rw [← hreachable] at hids
  have hnodes' : ids.forM ((g.relevel φ).validateNode n options) = .ok () :=
    forM_of_ok fun id hid => validateNode_relevel hkeeps (forM_ok hnodes id hid)
  have hroot' : (g.relevel φ).root = some root := hroot
  simp only [validate, hroot', hids, bind, Except.bind, hnodes', hwhitespace, hdetect]
  rfl

end Checks

/-! ## Preparation -/

/-- Preparing and then changing the precedences is the same as the other way round. -/
theorem prepare_relevel (h : prepare options g = .ok report g')
    (hkeeps : ∀ id groups, g'.shape? id = some (.cluster groups) → KeepsOrder φ groups) :
    prepare options (g.relevel φ) = .ok report (g'.relevel φ) := by
  obtain ⟨g₁, before, g₂, after, hresolve, hbefore, hbreak, hafter, hvalid, rfl, hcount⟩ :=
    prepare_ok h
  have hroot : (g.relevel φ).root.isSome := by
    show g.root.isSome
    cases hroot : g.root with
    | none => cases (prepare_rootless hroot).symm.trans h
    | some root => rfl
  rw [← nullability_relevel φ] at hbefore hafter
  have hprepare := prepare_of_passes hroot (resolveReferences_relevel hresolve) hbefore
    (breakAsAsked_relevel hbreak) hafter (validate_relevel hkeeps hvalid)
  rw [hprepare, ← hcount]
  rfl

end Grammar

end Packrat
