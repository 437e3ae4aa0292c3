import Packrat.Analysis.Nullability

/-! # Derivations of nullability

    The rules of a grammar are read as rules of inference.  An expression is derivable when it has a
    finite derivation by them (`Grammar.Derivable`): its rule asks for nothing, for all of its
    children, for some child or for its only child, and what it asks for is derivable.

    The analysis evaluates a rule while some children are still open (`Strategy.decide?`).  What it
    decides then stays decided when more is known (`Shape.decide?_mono`), and is right if what is
    known is (`Grammar.derivable_of_decide?`, `Grammar.not_derivable_of_decide?`). -/

namespace Packrat

/-- Whether a rule makes its expression nullable, given who is nullable. -/
def Strategy.holds (nullable : ExprId → Bool) : Strategy → Bool
  | .yes => true
  | .no => false
  | .all children => children.all nullable
  | .any children => children.any nullable
  | .single child => nullable child

/-- Every expression is taken for nullable exactly when its rule says so. -/
def Grammar.Solves (g : Grammar) (nullable : ExprId → Bool) : Prop :=
  ∀ ⦃id : ExprId⦄ ⦃s : Shape ExprId⦄, g.shape? id = some s →
    nullable id = s.strategy.holds nullable

/-! ## Rules and children -/

variable {s : Shape ExprId} {known known' : ExprId → Option Bool} {children : List ExprId}

/-- The rule of a shape asks for its children. -/
theorem Shape.strategy_children (s : Shape ExprId) :
    s.strategy = .yes ∨ s.strategy = .no ∨ s.strategy = .all s.children ∨
      s.strategy = .any s.children ∨ ∃ c, s.children = [c] ∧ s.strategy = .single c := by
  cases s with
  | literal text =>
      by_cases h : text = ""
      · exact Or.inl (if_pos h)
      · exact Or.inr (Or.inl (if_neg h))
  | any | range | set | reference => exact Or.inr (Or.inl rfl)
  | optional | zeroMore | lookahead | not => exact Or.inl rfl
  | sequence => exact Or.inr (Or.inr (Or.inl rfl))
  | choice | cluster => exact Or.inr (Or.inr (Or.inr (Or.inl rfl)))
  | oneMore | token | capture | leftRecursive | minPrecedence =>
      exact Or.inr (Or.inr (Or.inr (Or.inr ⟨_, rfl, rfl⟩)))
  | custom spec items =>
      cases h : spec.nullable with
      | yes => exact Or.inl (by rw [Shape.strategy, h])
      | no => exact Or.inr (Or.inl (by rw [Shape.strategy, h]))
      | allChildren => exact Or.inr (Or.inr (Or.inl (by rw [Shape.strategy, h]; rfl)))
      | anyChild => exact Or.inr (Or.inr (Or.inr (Or.inl (by rw [Shape.strategy, h]; rfl))))

/-- Whether an expression is nullable depends on its children alone. -/
theorem Shape.holds_of_children {p q : ExprId → Bool}
    (h : ∀ c ∈ s.children, p c = true → q c = true) (hp : s.strategy.holds p = true) :
    s.strategy.holds q = true := by
  rcases s.strategy_children with hs | hs | hs | hs | ⟨c, hc, hs⟩
  · rw [hs, Strategy.holds]
  · rw [hs] at hp
    cases hp
  · rw [hs, Strategy.holds, List.all_eq_true] at hp ⊢
    exact fun c hc => h c hc (hp c hc)
  · rw [hs, Strategy.holds, List.any_eq_true] at hp ⊢
    obtain ⟨c, hc, hpc⟩ := hp
    exact ⟨c, hc, h c hc hpc⟩
  · rw [hs] at hp ⊢
    exact h c (hc ▸ List.mem_singleton_self c) hp

/-! ## Deciding a rule -/

namespace Strategy

/-- All children have to be nullable for a sequence to be. -/
theorem decide?_all_true :
    (all children).decide? known = some true ↔ ∀ c ∈ children, known c = some true := by
  rw [decide?]
  split
  · rename_i hfalse
    obtain ⟨c, hc, hknown⟩ := List.any_eq_true.mp hfalse
    refine ⟨fun h => (by cases h), fun h => ?_⟩
    rw [h c hc] at hknown
    cases hknown
  · split
    · rename_i htrue
      simpa using htrue
    · rename_i htrue
      simpa using htrue

/-- One child that is not decides against it, whatever is unknown of the others. -/
theorem decide?_all_false :
    (all children).decide? known = some false ↔ ∃ c ∈ children, known c = some false := by
  rw [decide?]
  split
  · rename_i hfalse
    simpa using hfalse
  · rename_i hfalse
    split <;> simpa using hfalse

/-- One nullable child decides for a choice, whatever is unknown of the others. -/
theorem decide?_any_true :
    (any children).decide? known = some true ↔ ∃ c ∈ children, known c = some true := by
  rw [decide?]
  split
  · rename_i htrue
    simpa using htrue
  · rename_i htrue
    split <;> simpa using htrue

/-- None may be nullable for a choice not to be. -/
theorem decide?_any_false :
    (any children).decide? known = some false ↔ ∀ c ∈ children, known c = some false := by
  rw [decide?]
  split
  · rename_i htrue
    obtain ⟨c, hc, hknown⟩ := List.any_eq_true.mp htrue
    refine ⟨fun h => (by cases h), fun h => ?_⟩
    rw [h c hc] at hknown
    cases hknown
  · split
    · rename_i hfalse
      simpa using hfalse
    · rename_i hfalse
      simpa using hfalse

end Strategy

/-- A decision stands when more is known of the children. -/
theorem Shape.decide?_mono (h : ∀ c ∈ s.children, ∀ b, known c = some b → known' c = some b)
    {b : Bool} (hdecide : s.strategy.decide? known = some b) :
    s.strategy.decide? known' = some b := by
  rcases s.strategy_children with hs | hs | hs | hs | ⟨c, hc, hs⟩
  · rw [hs] at hdecide ⊢
    exact hdecide
  · rw [hs] at hdecide ⊢
    exact hdecide
  · rw [hs] at hdecide ⊢
    cases b with
    | true =>
        rw [Strategy.decide?_all_true] at hdecide ⊢
        exact fun c hc => h c hc true (hdecide c hc)
    | false =>
        rw [Strategy.decide?_all_false] at hdecide ⊢
        obtain ⟨c, hc, hknown⟩ := hdecide
        exact ⟨c, hc, h c hc false hknown⟩
  · rw [hs] at hdecide ⊢
    cases b with
    | true =>
        rw [Strategy.decide?_any_true] at hdecide ⊢
        obtain ⟨c, hc, hknown⟩ := hdecide
        exact ⟨c, hc, h c hc true hknown⟩
    | false =>
        rw [Strategy.decide?_any_false] at hdecide ⊢
        exact fun c hc => h c hc false (hdecide c hc)
  · rw [hs] at hdecide ⊢
    exact h c (hc ▸ List.mem_singleton_self c) b hdecide

/-! ## Derivations -/

namespace Grammar

variable {g : Grammar} {id child : ExprId} {strategy : Strategy}

/-- The nullability rule of the expression at `id`. -/
def strategy? (g : Grammar) (id : ExprId) : Option Strategy :=
  (g.shape? id).map Shape.strategy

/-- What has a finite derivation by the rules. -/
inductive Derivable (g : Grammar) : ExprId → Prop
  | yes {id : ExprId} (rule : g.strategy? id = some .yes) : g.Derivable id
  | all {id : ExprId} {children : List ExprId} (rule : g.strategy? id = some (.all children))
      (derivations : ∀ c ∈ children, g.Derivable c) : g.Derivable id
  | any {id : ExprId} {children : List ExprId} {child : ExprId}
      (rule : g.strategy? id = some (.any children)) (mem : child ∈ children)
      (derivation : g.Derivable child) : g.Derivable id
  | single {id child : ExprId} (rule : g.strategy? id = some (.single child))
      (derivation : g.Derivable child) : g.Derivable id

theorem strategy?_of_shape? (h : g.shape? id = some s) : g.strategy? id = some s.strategy := by
  rw [strategy?, h]
  rfl

/-- What always consumes is not derivable. -/
theorem not_derivable_no (h : g.strategy? id = some .no) : ¬ g.Derivable id := by
  intro hd
  cases hd <;> simp_all

/-- What needs all of its children is derivable if they are. -/
theorem derivable_all (h : g.strategy? id = some (.all children)) :
    g.Derivable id ↔ ∀ c ∈ children, g.Derivable c := by
  refine ⟨fun hd => ?_, .all h⟩
  cases hd <;> simp_all

/-- What needs one of its children is derivable if one of them is. -/
theorem derivable_any (h : g.strategy? id = some (.any children)) :
    g.Derivable id ↔ ∃ c ∈ children, g.Derivable c := by
  refine ⟨fun hd => ?_, fun ⟨_, hc, hd⟩ => .any h hc hd⟩
  cases hd with
  | any rule mem derivation =>
      cases rule.symm.trans h
      exact ⟨_, mem, derivation⟩
  | yes rule | all rule | single rule => cases rule.symm.trans h

/-- What is as its operand is derivable if the operand is. -/
theorem derivable_single (h : g.strategy? id = some (.single child)) :
    g.Derivable id ↔ g.Derivable child := by
  refine ⟨fun hd => ?_, .single h⟩
  cases hd <;> simp_all

theorem lt_size_of_shape? (h : g.shape? id = some s) : id < g.size := by
  obtain ⟨e, he, -⟩ := Option.map_eq_some_iff.mp h
  exact (Array.getElem?_eq_some_iff.mp he).1

/-- Whether there is a derivation. -/
noncomputable def derives (g : Grammar) (id : ExprId) : Bool :=
  @decide (g.Derivable id) (Classical.propDecidable _)

theorem derives_iff : g.derives id = true ↔ g.Derivable id :=
  @decide_eq_true_iff _ (Classical.propDecidable _)

/-- The derivable expressions solve the rules. -/
theorem solves_derives (g : Grammar) : g.Solves g.derives := by
  intro id s hs
  have hrule := strategy?_of_shape? hs
  rw [Bool.eq_iff_iff, derives_iff]
  cases hstrategy : s.strategy with
  | yes => exact iff_of_true (.yes (hstrategy ▸ hrule)) rfl
  | no => exact iff_of_false (not_derivable_no (hstrategy ▸ hrule)) Bool.false_ne_true
  | all children =>
      rw [derivable_all (hstrategy ▸ hrule), Strategy.holds, List.all_eq_true]
      exact forall₂_congr fun c _ => derives_iff.symm
  | any children =>
      rw [derivable_any (hstrategy ▸ hrule), Strategy.holds, List.any_eq_true]
      exact exists_congr fun c => and_congr_right fun _ => derives_iff.symm
  | single child =>
      rw [derivable_single (hstrategy ▸ hrule)]
      exact derives_iff.symm

/-- Induction over a derivation, for all rules at once: the rule of the expression holds of children
    that the motive is known of. -/
theorem Derivable.induction_holds {motive : ExprId → Prop} (h : g.Derivable id)
    (step : ∀ id s (p : ExprId → Bool), g.shape? id = some s →
      (∀ c ∈ s.children, p c = true → motive c) → s.strategy.holds p = true → motive id) :
    motive id := by
  classical
  have hstep : ∀ {id strategy}, g.strategy? id = some strategy →
      strategy.holds (fun c => decide (motive c)) = true → motive id := by
    intro id strategy rule hholds
    obtain ⟨s, hs, rfl⟩ := Option.map_eq_some_iff.mp rule
    exact step id s _ hs (fun c _ hc => of_decide_eq_true hc) hholds
  induction h with
  | yes rule => exact hstep rule rfl
  | all rule derivations ih =>
      exact hstep rule (List.all_eq_true.mpr fun c hc => decide_eq_true (ih c hc))
  | any rule mem derivation ih =>
      exact hstep rule (List.any_eq_true.mpr ⟨_, mem, decide_eq_true ih⟩)
  | single rule derivation ih => exact hstep rule (decide_eq_true ih)

/-- What is decided positively from derivable children is derivable. -/
theorem derivable_of_decide? (hrule : g.strategy? id = some strategy)
    (hknown : ∀ c, known c = some true → g.Derivable c)
    (hdecide : strategy.decide? known = some true) : g.Derivable id := by
  cases strategy with
  | yes => exact .yes hrule
  | no => cases hdecide
  | all children =>
      exact .all hrule fun c hc => hknown c (Strategy.decide?_all_true.mp hdecide c hc)
  | any children =>
      obtain ⟨c, hc, hc'⟩ := Strategy.decide?_any_true.mp hdecide
      exact .any hrule hc (hknown c hc')
  | single child => exact .single hrule (hknown child hdecide)

/-- What is decided negatively from children without a derivation has none. -/
theorem not_derivable_of_decide? (hrule : g.strategy? id = some strategy)
    (hknown : ∀ c, known c = some false → ¬ g.Derivable c)
    (hdecide : strategy.decide? known = some false) : ¬ g.Derivable id := by
  cases strategy with
  | yes => cases hdecide
  | no => exact not_derivable_no hrule
  | all children =>
      obtain ⟨c, hc, hc'⟩ := Strategy.decide?_all_false.mp hdecide
      exact fun hd => hknown c hc' ((derivable_all hrule).mp hd c hc)
  | any children =>
      intro hd
      obtain ⟨c, hc, hc'⟩ := (derivable_any hrule).mp hd
      exact hknown c (Strategy.decide?_any_false.mp hdecide c hc) hc'
  | single child => exact fun hd => hknown child hdecide ((derivable_single hrule).mp hd)

/-- Where nothing that is open can be decided, every derivable expression is known to be. -/
theorem known_of_derivable (hfalse : ∀ c, known c = some false → ¬ g.Derivable c)
    (hopen : ∀ c strategy, known c = none → g.strategy? c = some strategy →
      strategy.decide? known = none) (h : g.Derivable id) : known id = some true := by
  have hclose : ∀ {c strategy}, g.Derivable c → g.strategy? c = some strategy →
      strategy.decide? known = some true → known c = some true := by
    intro c strategy hd hrule hdecide
    cases hc : known c with
    | none => cases (hopen c strategy hc hrule).symm.trans hdecide
    | some b =>
        cases b with
        | true => rfl
        | false => exact absurd hd (hfalse c hc)
  induction h with
  | yes rule => exact hclose (.yes rule) rule rfl
  | all rule derivations ih =>
      exact hclose (.all rule derivations) rule (Strategy.decide?_all_true.mpr ih)
  | any rule mem derivation ih =>
      exact hclose (.any rule mem derivation) rule (Strategy.decide?_any_true.mpr ⟨_, mem, ih⟩)
  | single rule derivation ih => exact hclose (.single rule derivation) rule ih

end Grammar

end Packrat
