import Mathlib.Data.List.Basic
import Packrat.Proofs.Preparation.Resolution

/-! # Shapes over other children

    Putting other children in the place of those of a shape is done in turn or all at once.  Both
    come to the same, as a shape is made up of its form and its children (`Shape.ext_children`), and
    neither way touches the form. -/

namespace Packrat

/-! ## All children at once -/

theorem Group.map_id {α : Type} (group : Group α) : group.map id = group := by
  rw [Group.map, List.map_id]

@[simp] theorem Shape.map_id {α : Type} (s : Shape α) : s.map id = s := by
  cases s with
  | cluster groups => rw [Shape.map, funext Group.map_id, List.map_id']
  | sequence | choice | custom => simp only [Shape.map, List.map_id]
  | _ => rfl

/-- The form of a shape, without its children. -/
def Shape.form {α : Type} (s : Shape α) : Shape Unit :=
  s.map fun _ => ()

section Shapes

variable {α β γ : Type} {s t : Shape α} {index : Nat} {child : α}

/-- Renaming a shape renames its children, in their order. -/
theorem Shape.children_map (f : α → β) (s : Shape α) : (s.map f).children = s.children.map f := by
  cases s with
  | cluster groups =>
      simp [Shape.map, Shape.children, Group.map, List.flatMap_map, List.map_flatMap]
  | _ => rfl

theorem Shape.map_map (f : α → β) (f' : β → γ) (s : Shape α) :
    (s.map f).map f' = s.map (f' ∘ f) := by
  cases s with
  | cluster groups =>
      have hgroup : Group.map f' ∘ Group.map f = Group.map (f' ∘ f) := by
        funext group
        simp only [Function.comp_apply, Group.map, List.map_map]
      simp only [Shape.map, List.map_map, hgroup]
  | sequence | choice | custom => simp only [Shape.map, List.map_map]
  | _ => rfl

/-- Renaming changes ids only: the form of a shape is the same. -/
theorem Shape.form_map (f : α → β) (s : Shape α) : (s.map f).form = s.form :=
  s.map_map f fun _ => ()

/-- Groups of one form with the same alternatives in a row are the same groups: the form says where
    each one ends. -/
theorem Group.ext_alternatives {groups groups' : List (Group α)}
    (hform : groups.map (Group.map fun _ => ()) = groups'.map (Group.map fun _ => ()))
    (h : groups.flatMap Group.alternatives = groups'.flatMap Group.alternatives) :
    groups = groups' := by
  induction groups generalizing groups' with
  | nil =>
      cases groups' with
      | nil => rfl
      | cons => cases hform
  | cons group rest ih =>
      cases groups' with
      | nil => cases hform
      | cons group' rest' =>
          obtain ⟨hhead, htail⟩ := List.cons.inj hform
          obtain ⟨precedence, kind, alternatives⟩ := group
          obtain ⟨precedence', kind', alternatives'⟩ := group'
          obtain ⟨rfl, rfl, hsame⟩ := Group.mk.inj hhead
          have hlength : alternatives.length = alternatives'.length := by
            simpa using congrArg List.length hsame
          obtain ⟨rfl, hrest⟩ := List.append_inj h hlength
          rw [ih htail hrest]

/-- A shape is made up of its form and its children. -/
theorem Shape.ext_children (hform : s.form = t.form) (h : s.children = t.children) : s = t := by
  cases s <;> cases t <;> simp_all [Shape.form, Shape.map, Shape.children]
  exact Group.ext_alternatives hform h

/-- Only the ids of the children matter to a renaming of a shape. -/
theorem Shape.map_congr {f f' : α → β} (h : ∀ child ∈ s.children, f child = f' child) :
    s.map f = s.map f' := by
  refine Shape.ext_children ?_ ?_
  · rw [Shape.form_map, Shape.form_map]
  · rw [Shape.children_map, Shape.children_map]
    exact List.map_congr_left h

/-! ## One child -/

/-- Replacing one alternative keeps the levels and the sizes of the groups. -/
theorem Group.setChild?_form {groups groups' : List (Group α)}
    (h : Group.setChild? groups index child = some groups') :
    groups'.map (Group.map fun _ => ()) = groups.map (Group.map fun _ => ()) := by
  induction groups generalizing index groups' with
  | nil => cases h
  | cons group rest ih =>
      rw [Group.setChild?] at h
      split at h
      · cases h
        simp [Group.map]
      · obtain ⟨rest', hrest, rfl⟩ := Option.map_eq_some_iff.mp h
        rw [List.map_cons, List.map_cons, ih hrest]

/-- Replacing a child keeps the form. -/
theorem Shape.setChild?_form (h : s.setChild? index child = some t) : t.form = s.form := by
  cases s with
  | literal | any | range | set | reference => cases h
  | sequence items | choice items | custom _ items =>
      obtain ⟨items', hitems, rfl⟩ := Option.map_eq_some_iff.mp h
      rw [setItem?_some hitems]
      simp [Shape.form, Shape.map]
  | cluster groups =>
      obtain ⟨groups', hgroups, rfl⟩ := Option.map_eq_some_iff.mp h
      exact congrArg Shape.cluster (Group.setChild?_form hgroups)
  | optional | zeroMore | oneMore | lookahead | not | token | capture | leftRecursive
    | minPrecedence =>
      rw [setChild?] at h
      split at h
      · cases h
        rfl
      · cases h

/-- Every alternative, counted over all groups, can be replaced. -/
theorem Group.exists_setChild? {groups : List (Group α)}
    (h : index < (groups.flatMap Group.alternatives).length) (child : α) :
    ∃ groups', Group.setChild? groups index child = some groups' := by
  induction groups generalizing index with
  | nil => exact absurd h (Nat.not_lt_zero _)
  | cons group rest ih =>
      rw [Group.setChild?]
      split
      · exact ⟨_, rfl⟩
      · rw [List.flatMap_cons, List.length_append] at h
        have hlater : index - group.alternatives.length <
            (rest.flatMap Group.alternatives).length := by omega
        obtain ⟨rest', hrest⟩ := ih hlater
        exact ⟨_, by rw [hrest]; rfl⟩

/-- Every child can be replaced. -/
theorem Shape.exists_setChild? (h : index < s.children.length) (child : α) :
    ∃ t, s.setChild? index child = some t := by
  cases s with
  | literal | any | range | set | reference => exact absurd h (Nat.not_lt_zero _)
  | sequence items | choice items | custom _ items =>
      have hitem : setItem? items index child = some (items.set index child) := if_pos h
      exact ⟨_, by rw [setChild?, hitem]; rfl⟩
  | cluster groups =>
      obtain ⟨groups', hgroups⟩ := Group.exists_setChild? h child
      exact ⟨_, by rw [setChild?, hgroups]; rfl⟩
  | optional | zeroMore | oneMore | lookahead | not | token | capture | leftRecursive
    | minPrecedence =>
      obtain rfl : index = 0 := Nat.lt_one_iff.mp h
      exact ⟨_, rfl⟩

end Shapes

namespace Grammar

variable {g : Grammar} {parent : ExprId} {e : Expr}

/-! ## Nodes with a child replaced -/

/-- What replacing a child does to the arena: one node changes, and the grammar is no longer
    prepared. -/
theorem replaceChild_eq {index : Nat} {target : ExprId} {s : Shape ExprId}
    (he : g.node? parent = some e) (hs : e.shape.setChild? index target = some s) :
    replaceChild parent index target g = .ok ()
      { g with nodes := g.nodes.setIfInBounds parent { e with shape := s }, prepared := false } := by
  simp only [replaceChild, he, hs]

/-- Writing a node that exists changes that node and no other. -/
theorem node?_setIfInBounds (he : g.node? parent = some e) (e' : Expr) (prepared : Bool)
    (i : ExprId) :
    { g with nodes := g.nodes.setIfInBounds parent e', prepared }.node? i =
      if i = parent then some e' else g.node? i := by
  have hinside : parent < g.nodes.size := (Array.getElem?_eq_some_iff.mp he).1
  by_cases hi : i = parent
  · subst hi
    simp [node?, hinside]
  · simp [node?, Ne.symm hi, hi]

end Grammar

end Packrat
