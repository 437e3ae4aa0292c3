import Packrat.Proofs.Peg.Semantics

/-! # Rules do not depend on ids

    Two grammars may have the same expressions under different ids.  What the rules say of an
    expression in the one they say of its image in the other. -/

namespace Packrat

/-- The expressions of a part of a grammar, which is closed under children, under other ids in
    another grammar. -/
structure Grammar.Renames (g g' : Grammar) (f : ExprId → ExprId) (part : ExprId → Prop) : Prop where
  shape : ∀ id s, part id → g.shape? id = some s → g'.shape? (f id) = some (s.map f)
  children : ∀ id s, part id → g.shape? id = some s → ∀ child ∈ s.children, part child
  whitespace : g'.whitespace = g.whitespace.map f
  blank : ∀ ws, g.whitespace = some ws → part ws

variable {g g' : Grammar} {f : ExprId → ExprId} {part : ExprId → Prop} {text : Text}
variable {s : Shape ExprId} {id : ExprId} {p : Nat} {o : Option Found}

theorem Peg.rename (hrenames : g.Renames g' f part) (h : Peg g text s p o)
    (hparts : ∀ i ∈ s.children, part i) : Peg g' text (s.map f) p o := by
  induction h with
  | literal hl => exact .literal hl
  | literal_fail hl => exact .literal_fail hl
  | any hc => exact .any hc
  | any_fail hc => exact .any_fail hc
  | range hc hlo hhi => exact .range hc hlo hhi
  | range_fail hc => exact .range_fail hc
  | set hc hmem => exact .set hc hmem
  | set_fail hc => exact .set_fail hc
  | sequence_nil => exact .sequence_nil
  | sequence_fail hs _ ih =>
      obtain ⟨hitem, -⟩ := List.forall_mem_cons.mp hparts
      exact .sequence_fail (hrenames.shape _ _ hitem hs) (ih (hrenames.children _ _ hitem hs))
  | sequence_next hs _ _ ih ihrest =>
      obtain ⟨hitem, hrest⟩ := List.forall_mem_cons.mp hparts
      exact .sequence_next (hrenames.shape _ _ hitem hs) (ih (hrenames.children _ _ hitem hs))
        (ihrest hrest)
  | choice_nil => exact .choice_nil
  | choice_here hs _ ih =>
      obtain ⟨hitem, -⟩ := List.forall_mem_cons.mp hparts
      exact .choice_here (hrenames.shape _ _ hitem hs) (ih (hrenames.children _ _ hitem hs))
  | choice_next hs _ _ ih ihrest =>
      obtain ⟨hitem, hrest⟩ := List.forall_mem_cons.mp hparts
      exact .choice_next (hrenames.shape _ _ hitem hs) (ih (hrenames.children _ _ hitem hs))
        (ihrest hrest)
  | optional hs _ ih =>
      have he := hparts _ (List.mem_singleton_self _)
      exact .optional (hrenames.shape _ _ he hs) (ih (hrenames.children _ _ he hs))
  | zeroMore_end hs _ ih =>
      have he := hparts _ (List.mem_singleton_self _)
      exact .zeroMore_end (hrenames.shape _ _ he hs) (ih (hrenames.children _ _ he hs))
  | zeroMore_next hs _ _ ih ihrest =>
      have he := hparts _ (List.mem_singleton_self _)
      exact .zeroMore_next (hrenames.shape _ _ he hs) (ih (hrenames.children _ _ he hs))
        (ihrest hparts)
  | oneMore_fail hs _ ih =>
      have he := hparts _ (List.mem_singleton_self _)
      exact .oneMore_fail (hrenames.shape _ _ he hs) (ih (hrenames.children _ _ he hs))
  | oneMore hs _ _ ih ihrest =>
      have he := hparts _ (List.mem_singleton_self _)
      exact .oneMore (hrenames.shape _ _ he hs) (ih (hrenames.children _ _ he hs)) (ihrest hparts)
  | lookahead hs _ ih =>
      have he := hparts _ (List.mem_singleton_self _)
      exact .lookahead (hrenames.shape _ _ he hs) (ih (hrenames.children _ _ he hs))
  | not hs _ ih =>
      have he := hparts _ (List.mem_singleton_self _)
      exact .not (hrenames.shape _ _ he hs) (ih (hrenames.children _ _ he hs))
  | not_fail hs _ ih =>
      have he := hparts _ (List.mem_singleton_self _)
      exact .not_fail (hrenames.shape _ _ he hs) (ih (hrenames.children _ _ he hs))
  | token_fail hs _ ih =>
      have he := hparts _ (List.mem_singleton_self _)
      exact .token_fail (hrenames.shape _ _ he hs) (ih (hrenames.children _ _ he hs))
  | token_bare hws hs _ ih =>
      have he := hparts _ (List.mem_singleton_self _)
      refine .token_bare ?_ (hrenames.shape _ _ he hs) (ih (hrenames.children _ _ he hs))
      rw [hrenames.whitespace, hws]
      rfl
  | token hws hs _ ht _ ih ihws =>
      have he := hparts _ (List.mem_singleton_self _)
      have hblank := hrenames.blank _ hws
      refine .token ?_ (hrenames.shape _ _ he hs) (ih (hrenames.children _ _ he hs))
        (hrenames.shape _ _ hblank ht) (ihws (hrenames.children _ _ hblank ht))
      rw [hrenames.whitespace, hws]
      rfl
  | capture mode hs _ ih =>
      have he := hparts _ (List.mem_singleton_self _)
      exact .capture mode (hrenames.shape _ _ he hs) (ih (hrenames.children _ _ he hs))
  | minPrecedence floor hs _ ih =>
      have he := hparts _ (List.mem_singleton_self _)
      exact .minPrecedence floor (hrenames.shape _ _ he hs) (ih (hrenames.children _ _ he hs))

/-- An expression finds what its image finds. -/
theorem PegAt.rename (hrenames : g.Renames g' f part) (h : PegAt g text id p o) (hid : part id) :
    PegAt g' text (f id) p o := by
  obtain ⟨s, hs, hpeg⟩ := h
  exact ⟨_, hrenames.shape id s hid hs, hpeg.rename hrenames (hrenames.children id s hid hs)⟩

end Packrat
