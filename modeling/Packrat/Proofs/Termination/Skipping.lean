import Packrat.Proofs.Peg.Skipping
import Packrat.Proofs.Termination.Effort

/-! # Skipping ends

    Wherever skipping ends, it ends in the text, and it moves on from what is not nullable
    (`skipWithin_bounds`).  Nothing below a whitespace with a fast path is a boundary, so skipping
    nests along edges without cycles wherever it stays in place.  The nesting that it is given is more
    than it needs (`skip_ends`). -/

namespace Packrat

open Relation Finset

/-- The step answers, and what it finds is in the text and moves on unless the expression is
    nullable. -/
def SkipEnds (text : Text) (n : Nullability) (step : ExprId → Nat → Except Fault (Option Nat))
    (id : ExprId) (p : Nat) : Prop :=
  ∃ r, step id p = .ok r ∧
    ∀ stop, r = some stop → (Found.nothing stop).Within text p (n.isNullable id)

namespace FastPath

variable {text : Text} {n : Nullability} {step : ExprId → Nat → Except Fault (Option Nat)}
variable {p q : Nat}

/-! ## Where skipping ends -/

section Within

/-- Where the step answers, what it finds is in the text and moves on unless the expression is
    nullable. -/
def Tells (text : Text) (nullable : ExprId → Bool) (step : ExprId → Nat → Except Fault (Option Nat)) : Prop :=
  ∀ id p stop, p ≤ text.length → step id p = .ok (some stop) →
    (Found.nothing stop).Within text p (nullable id)

variable {nullable : ExprId → Bool} {stop : Nat}

theorem inOrder_within (hstep : Tells text nullable step) (items : List ExprId) (hp : p ≤ text.length)
    (h : inOrder step items p = .ok (some stop)) :
    (Found.nothing stop).Within text p (items.all nullable) := by
  induction items generalizing p with
  | nil =>
      cases h
      exact .nothing hp
  | cons item rest ih =>
      obtain ⟨found, hrun, h⟩ := ok_of_bind h
      cases found with
      | none => cases h
      | some first =>
          have hmoved := hstep item p first hp hrun
          exact hmoved.append (ih hmoved.stop h)

theorem firstOf_within (hstep : Tells text nullable step) (items : List ExprId) (hp : p ≤ text.length)
    (h : firstOf step items p = .ok (some stop)) :
    (Found.nothing stop).Within text p (items.any nullable) := by
  induction items with
  | nil => cases h
  | cons item rest ih =>
      obtain ⟨found, hrun, h⟩ := ok_of_bind h
      cases found with
      | none => exact (ih h).imp (by simp +contextual)
      | some first =>
          cases h
          exact (hstep item p _ hp hrun).imp (by simp +contextual)

theorem repeated_within (hstep : Tells text nullable step) {e : ExprId} (rounds : Nat)
    (hp : p ≤ text.length) (h : repeated (step e) rounds p = .ok stop) :
    (Found.nothing stop).Within text p true := by
  induction rounds generalizing p with
  | zero =>
      cases h
      exact .nothing hp
  | succ rounds ih =>
      obtain ⟨found, hrun, h⟩ := ok_of_bind h
      cases found with
      | none =>
          cases h
          exact .nothing hp
      | some next =>
          have hmoved := hstep e p next hp hrun
          by_cases hstay : next = p
          · cases (if_pos hstay).symm.trans h
            exact .nothing hp
          · exact (hmoved.append (ih hmoved.stop ((if_neg hstay).symm.trans h))).imp fun _ => rfl

theorem matchShape_within {g : Grammar} (hsolves : g.Solves nullable) (hstep : Tells text nullable step)
    (s : Shape ExprId) (hp : p ≤ text.length) (h : matchShape text step s p = .ok (some stop)) :
    (Found.nothing stop).Within text p (s.strategy.holds nullable) := by
  have hterminal : ∀ {found : Option Nat}, Peg g text s p (found.map Found.nothing) →
      (.ok found : Except Fault (Option Nat)) = .ok (some stop) →
      (Found.nothing stop).Within text p (s.strategy.holds nullable) := by
    rintro _ hpeg ⟨⟩
    exact hpeg.bounds hsolves hp rfl
  cases s with
  | literal l => exact hterminal (peg_literal g text l p) h
  | any => exact hterminal (peg_any g text p) h
  | range lo hi => exact hterminal (peg_range g text lo hi p) h
  | set members => exact hterminal (peg_set g text members p) h
  | sequence items => exact inOrder_within hstep items hp h
  | choice items => exact firstOf_within hstep items hp h
  | optional e =>
      obtain ⟨found, hrun, hk⟩ := ok_of_bind h
      cases hk
      cases found with
      | none => exact .nothing hp
      | some stop => exact (hstep e p stop hp hrun).imp fun _ => rfl
  | zeroMore e =>
      obtain ⟨stop, hrun, hk⟩ := ok_of_bind h
      cases hk
      exact repeated_within hstep _ hp hrun
  | oneMore e =>
      obtain ⟨found, hrun, hk⟩ := ok_of_bind h
      cases found with
      | none => cases hk
      | some first =>
          have hmoved := hstep e p first hp hrun
          obtain ⟨stop, hrun, hk⟩ := ok_of_bind hk
          cases hk
          refine (hmoved.append (repeated_within hstep _ hmoved.stop hrun)).imp ?_
          exact fun hfirst => (Bool.and_eq_true_iff.mp hfirst).1
  | lookahead e =>
      obtain ⟨found, -, hk⟩ := ok_of_bind h
      cases found with
      | none => cases hk
      | some first =>
          cases hk
          exact .nothing hp
  | not e =>
      obtain ⟨found, -, hk⟩ := ok_of_bind h
      cases found with
      | none =>
          cases hk
          exact .nothing hp
      | some first => cases hk
  | capture e mode => exact hstep e p stop hp h
  | minPrecedence e floor => exact hstep e p stop hp h
  | token | leftRecursive | cluster | reference | custom => cases h

/-- Skipping stays in the text, and moves on from what is not nullable. -/
theorem skipWithin_bounds {g : Grammar} (hsolves : g.Solves nullable) (nesting : Nat) :
    Tells text nullable (g.skipWithin text nesting) := by
  induction nesting with
  | zero =>
      intro id p stop _ h
      cases h
  | succ nesting ih =>
      intro id p stop hp h
      rw [Grammar.skipWithin] at h
      cases hs : g.shape? id with
      | none =>
          rw [hs] at h
          cases h
      | some s =>
          rw [hs] at h
          rw [hsolves hs]
          exact matchShape_within hsolves ih s hp h

theorem skipWithin_within {g : Grammar} (hn : g.nullability = .ok n) (nesting : Nat) :
    Tells text n.isNullable (g.skipWithin text nesting) :=
  skipWithin_bounds (Grammar.solves_nullability hn) nesting

end Within

/-! ## That skipping ends -/

/-- Items end if each does wherever it may begin: those that follow nullable items only also where
    the first begins. -/
theorem inOrder_ends (items : List ExprId) (hpq : p ≤ q) (hq : q ≤ text.length)
    (hfirst : q = p → ∀ i ∈ upToFirstSolid n.isNullable items, SkipEnds text n step i p)
    (hlater : ∀ i ∈ items, ∀ q, p < q → q ≤ text.length → SkipEnds text n step i q) :
    ∃ r, inOrder step items q = .ok r ∧
      ∀ stop, r = some stop → (Found.nothing stop).Within text q (items.all n.isNullable) := by
  induction items generalizing q with
  | nil =>
      refine ⟨_, rfl, ?_⟩
      rintro stop ⟨⟩
      exact .nothing hq
  | cons item rest ih =>
      obtain ⟨hlaterItem, hlaterRest⟩ := List.forall_mem_cons.mp hlater
      have hitem : SkipEnds text n step item q := by
        rcases hpq.eq_or_lt with rfl | hlt
        · refine hfirst rfl item ?_
          rw [upToFirstSolid]
          split <;> simp
        · exact hlaterItem q hlt hq
      obtain ⟨r, hr, hwithin⟩ := hitem
      simp only [inOrder, hr]
      cases r with
      | none => exact ⟨none, rfl, by rintro stop ⟨⟩⟩
      | some stop =>
          have hmoved := hwithin stop rfl
          have hforward : q ≤ stop := hmoved.forward
          have hnext : stop = p →
              ∀ i ∈ upToFirstSolid n.isNullable rest, SkipEnds text n step i p := by
            rintro rfl i hi
            have hsame : q = stop := Nat.le_antisymm hforward hpq
            refine hfirst hsame i ?_
            rw [upToFirstSolid, if_pos (hmoved.nullable hsame.symm)]
            exact List.mem_cons_of_mem _ hi
          obtain ⟨r, hr, hwithin'⟩ := ih (hpq.trans hforward) hmoved.stop hnext hlaterRest
          refine ⟨r, hr, ?_⟩
          intro stop' hstop'
          exact hmoved.append (hwithin' stop' hstop')

theorem firstOf_ends (items : List ExprId) (hitems : ∀ i ∈ items, SkipEnds text n step i p) :
    ∃ r, firstOf step items p = .ok r ∧
      ∀ stop, r = some stop → (Found.nothing stop).Within text p (items.any n.isNullable) := by
  induction items with
  | nil => exact ⟨none, rfl, by rintro stop ⟨⟩⟩
  | cons item rest ih =>
      obtain ⟨⟨r, hr, hwithin⟩, hrest⟩ := List.forall_mem_cons.mp hitems
      simp only [firstOf, hr]
      cases r with
      | some stop =>
          refine ⟨_, rfl, ?_⟩
          rintro _ ⟨⟩
          exact (hwithin stop rfl).imp (by simp +contextual)
      | none =>
          obtain ⟨r, hr, hwithin'⟩ := ih hrest
          exact ⟨r, hr, fun stop hstop => (hwithin' stop hstop).imp (by simp +contextual)⟩

/-- A repetition ends where the operand fails or stays in place. -/
theorem repeated_ends {e : ExprId} (rounds : Nat) (hp : p ≤ text.length)
    (henough : text.length - p < rounds)
    (he : ∀ q, p ≤ q → q ≤ text.length → SkipEnds text n step e q) :
    ∃ stop, repeated (step e) rounds p = .ok stop ∧ p ≤ stop ∧ stop ≤ text.length := by
  induction rounds generalizing p with
  | zero => omega
  | succ rounds ih =>
      obtain ⟨r, hr, hwithin⟩ := he p le_rfl hp
      simp only [repeated, hr]
      cases r with
      | none => exact ⟨p, rfl, le_rfl, hp⟩
      | some stop =>
          have hmoved := hwithin stop rfl
          have hforward : p ≤ stop := hmoved.forward
          have hstop : stop ≤ text.length := hmoved.stop
          by_cases hstay : stop = p
          · exact ⟨p, if_pos hstay, le_rfl, hp⟩
          · obtain ⟨stop', hrun, hforward', hstop'⟩ :=
              ih hstop (by omega) fun q hq => he q (by omega)
            exact ⟨stop', (if_neg hstay).trans hrun, by omega, hstop'⟩

/-- A shape ends if its children do: those in first position where it begins, and all of them
    farther on. -/
theorem matchShape_ends {g : Grammar} (hn : g.nullability = .ok n) {s : Shape ExprId}
    (hfast : s.hasFastPath = true) (hp : p ≤ text.length)
    (hfirst : ∀ i ∈ s.firsts n.isNullable, SkipEnds text n step i p)
    (hlater : ∀ i ∈ s.children, ∀ q, p < q → q ≤ text.length → SkipEnds text n step i q) :
    ∃ r, matchShape text step s p = .ok r ∧
      ∀ stop, r = some stop → (Found.nothing stop).Within text p (s.strategy.holds n.isNullable) := by
  have hterminal : ∀ {stop : Option Nat}, Peg g text s p (stop.map Found.nothing) →
      ∀ stop', stop = some stop' →
        (Found.nothing stop').Within text p (s.strategy.holds n.isNullable) := by
    rintro _ hpeg stop rfl
    exact hpeg.bounds (Grammar.solves_nullability hn) hp rfl
  have hrepeats : ∀ e q, s.children = [e] → p ≤ q → q ≤ text.length →
      e ∈ s.firsts n.isNullable → SkipEnds text n step e q := by
    intro e q honly hpq hq he
    rcases hpq.eq_or_lt with rfl | hlt
    · exact hfirst e he
    · exact hlater e (honly ▸ List.mem_singleton_self e) q hlt hq
  cases s with
  | literal l => exact ⟨_, rfl, hterminal (peg_literal g text l p)⟩
  | any => exact ⟨_, rfl, hterminal (peg_any g text p)⟩
  | range lo hi => exact ⟨_, rfl, hterminal (peg_range g text lo hi p)⟩
  | set members => exact ⟨_, rfl, hterminal (peg_set g text members p)⟩
  | sequence items => exact inOrder_ends items le_rfl hp (fun _ => hfirst) hlater
  | choice items => exact firstOf_ends items hfirst
  | optional e =>
      obtain ⟨r, hr, hwithin⟩ := hfirst e (List.mem_singleton_self e)
      simp only [matchShape, hr]
      refine ⟨_, rfl, ?_⟩
      rintro stop ⟨⟩
      cases r with
      | none => exact .nothing hp
      | some stop => exact (hwithin stop rfl).imp fun _ => rfl
  | zeroMore e =>
      obtain ⟨stop, hrun, hforward, hstop⟩ := repeated_ends (text.length - p + 1) hp (by omega)
        fun q hpq hq => hrepeats e q rfl hpq hq (List.mem_singleton_self e)
      simp only [matchShape, hrun]
      refine ⟨_, rfl, ?_⟩
      rintro _ ⟨⟩
      exact ⟨hforward, hstop, fun _ => rfl⟩
  | oneMore e =>
      obtain ⟨r, hr, hwithin⟩ := hfirst e (List.mem_singleton_self e)
      simp only [matchShape, hr]
      cases r with
      | none => exact ⟨none, rfl, by rintro stop ⟨⟩⟩
      | some first =>
          have hmoved := hwithin first rfl
          have hpq : p ≤ first := hmoved.forward
          have hle : first ≤ text.length := hmoved.stop
          obtain ⟨stop, hrun, hforward, hstop⟩ := repeated_ends (text.length - first + 1) hle
            (by omega) fun q hq hle => hrepeats e q rfl (hpq.trans hq) hle (List.mem_singleton_self e)
          refine ⟨some stop, (congrArg (some <$> ·) hrun).trans rfl, ?_⟩
          rintro _ ⟨⟩
          refine ⟨hpq.trans hforward, hstop, ?_⟩
          intro heq
          exact hmoved.nullable (Nat.le_antisymm (hforward.trans heq.le) hpq)
  | lookahead e =>
      obtain ⟨r, hr, -⟩ := hfirst e (List.mem_singleton_self e)
      simp only [matchShape, hr]
      refine ⟨_, rfl, ?_⟩
      intro stop hstop
      obtain ⟨_, -, rfl⟩ := Option.map_eq_some_iff.mp hstop
      exact .nothing hp
  | not e =>
      obtain ⟨r, hr, -⟩ := hfirst e (List.mem_singleton_self e)
      simp only [matchShape, hr]
      cases r with
      | some _ => exact ⟨none, rfl, by rintro stop ⟨⟩⟩
      | none =>
          refine ⟨some p, rfl, ?_⟩
          rintro _ ⟨⟩
          exact .nothing hp
  | capture e mode => exact hfirst e (List.mem_singleton_self e)
  | minPrecedence e floor => exact hfirst e (List.mem_singleton_self e)
  | token | leftRecursive | cluster | reference | custom => cases hfast

end FastPath

namespace Grammar

variable {g : Grammar} {text : Text} {n : Nullability} {root ws : ExprId} {p : Nat}

/-- An expression with a fast path is no boundary. -/
theorem isBoundary_of_hasFastPath {s : Shape ExprId} (h : s.hasFastPath = true) :
    s.isBoundary = false := by
  cases s <;> first | rfl | cases h

/-- Below a whitespace with a fast path and without cycles of first positions, skipping ends within
    the text left and what lies ahead. -/
theorem skipWithin_ends (hn : g.nullability = .ok n) (hculprit : g.fastPathCulprit ws = .ok none)
    (hacyclic : ∀ id, ReflTransGen g.Child ws id → ¬ TransGen (g.FirstEdge n) id id)
    (nesting : Nat) (id : ExprId) (hreach : ReflTransGen g.Child ws id) (hp : p ≤ text.length)
    (henough : (text.length - p) * g.size + #(ahead (g.FirstEdge n) g.size id) < nesting) :
    SkipEnds text n (g.skipWithin text nesting) id p := by
  induction nesting generalizing id p with
  | zero => omega
  | succ nesting ih =>
      obtain ⟨s, hs, hfast⟩ := fastPath_of_culprit hculprit hreach
      have hsize : ∀ i ∈ s.children, i < g.size := fun i hi => child_lt_size hn hs hi
      have hbelow : ∀ i ∈ s.children, ReflTransGen g.Child ws i :=
        fun i hi => hreach.tail ⟨s, hs, hi⟩
      rw [SkipEnds, skipWithin, hs, nullability_holds hn hs]
      refine FastPath.matchShape_ends hn hfast hp ?_ ?_
      · intro i hi
        have hchild := Shape.mem_children_of_firsts hi
        have hedge : g.FirstEdge n id i :=
          (bareEdge_of_firsts hs (isBoundary_of_hasFastPath hfast) hi).1
        have hfalls := card_ahead_lt (hacyclic i (hbelow i hchild)) (hsize i hchild) hedge
        exact ih i (hbelow i hchild) hp (by omega)
      · intro i hi q hpq hq
        have hahead := card_ahead_lt_size (hacyclic i (hbelow i hi)) (hsize i hi)
        have hproduct : (text.length - q + 1) * g.size ≤ (text.length - p) * g.size :=
          Nat.mul_le_mul_right _ (by omega)
        rw [Nat.succ_mul] at hproduct
        exact ih i (hbelow i hi) hq (by omega)

/-- Skipping ends everywhere in the text. -/
theorem skip_ends (hn : g.nullability = .ok n) (hculprit : g.fastPathCulprit ws = .ok none)
    (hacyclic : ∀ id, ReflTransGen g.Child ws id → ¬ TransGen (g.FirstEdge n) id id)
    (hp : p ≤ text.length) : SkipEnds text n (g.skip text) ws p := by
  obtain ⟨s, hs, -⟩ := fastPath_of_culprit hculprit ReflTransGen.refl
  have hahead := card_ahead_lt_size (hacyclic ws .refl) (lt_size_of_shape? hs)
  refine skipWithin_ends hn hculprit hacyclic _ ws .refl hp ?_
  rw [Nat.succ_mul]
  omega

/-- What is in first position below a whitespace with a fast path is below it, over edges that start
    at no boundary. -/
theorem bareEdge_of_culprit (hculprit : g.fastPathCulprit ws = .ok none) {u v : ExprId}
    (hreach : ReflTransGen g.Child ws u) (h : g.FirstEdge n u v) :
    g.BareEdge n u v ∧ ReflTransGen g.Child ws v := by
  obtain ⟨s, hs, hfast⟩ := fastPath_of_culprit hculprit hreach
  have hfirst : v ∈ s.firsts n.isNullable := by
    obtain ⟨children, hchildren, hv⟩ := h
    rw [firsts?, hs] at hchildren
    cases hchildren
    exact hv
  exact ⟨bareEdge_of_firsts hs (isBoundary_of_hasFastPath hfast) hfirst,
    hreach.tail ⟨s, hs, Shape.mem_children_of_firsts hfirst⟩⟩

/-- Where every cycle of first positions goes through a boundary, none is below the whitespace. -/
theorem Guarded.acyclic_whitespace (hguarded : g.Guarded n root) (hws : g.whitespace = some ws)
    (id : ExprId) (hreach : ReflTransGen g.Child ws id) : ¬ TransGen (g.FirstEdge n) id id := by
  have hculprit := hguarded.whitespace ws hws
  have hbare : ∀ v, TransGen (g.FirstEdge n) id v →
      TransGen (g.BareEdge n) id v ∧ ReflTransGen g.Child ws v := by
    intro v hpath
    induction hpath with
    | single hedge =>
        obtain ⟨hbare, hbelow⟩ := bareEdge_of_culprit hculprit hreach hedge
        exact ⟨.single hbare, hbelow⟩
    | tail _ hedge ih =>
        obtain ⟨hbare, hbelow⟩ := bareEdge_of_culprit hculprit ih.2 hedge
        exact ⟨ih.1.tail hbare, hbelow⟩
  exact fun hcycle => cycles_broken_iff.mp hguarded.cycles id (hbare id hcycle).1

end Grammar

end Packrat
