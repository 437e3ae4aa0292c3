import Mathlib
import Packrat.Proofs.FastPath.Agreement
import Packrat.Proofs.Safety.Shelter

/-! # What skipping evaluates

    A fast match is a recursion over the grammar, which may be cyclic, and no limit stops it: it is
    done when it is done.  A RUN is such a recursion that is done, with all that it evaluated on the
    way, told without any bound on nesting or rounds.  Every form has its rules here, those without a
    fast path too: they never match.  So it means something that a run does not evaluate them.

    A run comes to what the bounded match answers (`Run.skips`), and wherever the bounded match
    answers there is a run (`done_skipWithin`): its bounds are never what ends it.  Below the
    whitespace of a prepared grammar everything has a fast path and the bounded match answers, so
    there every fast match is done (`prepare_skims`). -/

namespace Packrat

open Relation Filter

/-! ## Runs -/

/-- The fast match of a shape at a position is done: it evaluated the expressions at the positions of
    the list, and ended where the last argument says, or does not match. -/
inductive FastPath.Run (g : Grammar) (text : Text) :
    Shape ExprId → Nat → List (ExprId × Nat) → Option Nat → Prop where
  -- characters
  | literal (l : String) (p : Nat) : Run g text (.literal l) p [] (text.matchLiteral p l)
  | any (p : Nat) : Run g text .any p [] (text.matchOne p fun _ => true)
  | range (lo hi : Char) (p : Nat) :
      Run g text (.range lo hi) p [] (text.matchOne p fun c => lo ≤ c && c ≤ hi)
  | set (members : List Char) (p : Nat) :
      Run g text (.set members) p [] (text.matchOne p members.contains)
  -- one after the other
  | sequence_nil (p : Nat) : Run g text (.sequence []) p [] (some p)
  | sequence_fail {item : ExprId} {s : Shape ExprId} {p : Nat} {visited : List (ExprId × Nat)}
      (rest : List ExprId) : g.shape? item = some s → Run g text s p visited none →
      Run g text (.sequence (item :: rest)) p ((item, p) :: visited) none
  | sequence_next {item : ExprId} {rest : List ExprId} {s : Shape ExprId} {p q : Nat}
      {visited visited' : List (ExprId × Nat)} {stop : Option Nat} :
      g.shape? item = some s → Run g text s p visited (some q) →
      Run g text (.sequence rest) q visited' stop →
      Run g text (.sequence (item :: rest)) p ((item, p) :: (visited ++ visited')) stop
  -- ordered choice
  | choice_nil (p : Nat) : Run g text (.choice []) p [] none
  | choice_here {item : ExprId} {s : Shape ExprId} {p q : Nat} {visited : List (ExprId × Nat)}
      (rest : List ExprId) : g.shape? item = some s → Run g text s p visited (some q) →
      Run g text (.choice (item :: rest)) p ((item, p) :: visited) (some q)
  | choice_next {item : ExprId} {rest : List ExprId} {s : Shape ExprId} {p : Nat}
      {visited visited' : List (ExprId × Nat)} {stop : Option Nat} :
      g.shape? item = some s → Run g text s p visited none →
      Run g text (.choice rest) p visited' stop →
      Run g text (.choice (item :: rest)) p ((item, p) :: (visited ++ visited')) stop
  -- repetition, until the operand fails or stays in place
  | optional {e : ExprId} {s : Shape ExprId} {p : Nat} {visited : List (ExprId × Nat)}
      {stop : Option Nat} : g.shape? e = some s → Run g text s p visited stop →
      Run g text (.optional e) p ((e, p) :: visited) (some (stop.getD p))
  | zeroMore_end {e : ExprId} {s : Shape ExprId} {p : Nat} {visited : List (ExprId × Nat)} :
      g.shape? e = some s → Run g text s p visited none →
      Run g text (.zeroMore e) p ((e, p) :: visited) (some p)
  | zeroMore_stay {e : ExprId} {s : Shape ExprId} {p : Nat} {visited : List (ExprId × Nat)} :
      g.shape? e = some s → Run g text s p visited (some p) →
      Run g text (.zeroMore e) p ((e, p) :: visited) (some p)
  | zeroMore_next {e : ExprId} {s : Shape ExprId} {p q : Nat}
      {visited visited' : List (ExprId × Nat)} {stop : Option Nat} :
      g.shape? e = some s → Run g text s p visited (some q) → q ≠ p →
      Run g text (.zeroMore e) q visited' stop →
      Run g text (.zeroMore e) p ((e, p) :: (visited ++ visited')) stop
  | oneMore_fail {e : ExprId} {s : Shape ExprId} {p : Nat} {visited : List (ExprId × Nat)} :
      g.shape? e = some s → Run g text s p visited none →
      Run g text (.oneMore e) p ((e, p) :: visited) none
  | oneMore {e : ExprId} {s : Shape ExprId} {p q : Nat} {visited visited' : List (ExprId × Nat)}
      {stop : Option Nat} : g.shape? e = some s → Run g text s p visited (some q) →
      Run g text (.zeroMore e) q visited' stop →
      Run g text (.oneMore e) p ((e, p) :: (visited ++ visited')) stop
  -- predicates
  | lookahead {e : ExprId} {s : Shape ExprId} {p : Nat} {visited : List (ExprId × Nat)}
      {stop : Option Nat} : g.shape? e = some s → Run g text s p visited stop →
      Run g text (.lookahead e) p ((e, p) :: visited) (stop.map fun _ => p)
  | not {e : ExprId} {s : Shape ExprId} {p : Nat} {visited : List (ExprId × Nat)}
      {stop : Option Nat} : g.shape? e = some s → Run g text s p visited stop →
      Run g text (.not e) p ((e, p) :: visited) (if stop.isSome then none else some p)
  -- decorations
  | capture {e : ExprId} {s : Shape ExprId} {p : Nat} {visited : List (ExprId × Nat)}
      {stop : Option Nat} (mode : CaptureMode) : g.shape? e = some s →
      Run g text s p visited stop → Run g text (.capture e mode) p ((e, p) :: visited) stop
  | minPrecedence {e : ExprId} {s : Shape ExprId} {p : Nat} {visited : List (ExprId × Nat)}
      {stop : Option Nat} (floor : Precedence) : g.shape? e = some s →
      Run g text s p visited stop → Run g text (.minPrecedence e floor) p ((e, p) :: visited) stop
  -- forms without a fast path
  | slow {s : Shape ExprId} (p : Nat) : s.hasFastPath = false → Run g text s p [] none

/-- The fast match of an expression at a position is done. -/
def Grammar.Skims (g : Grammar) (text : Text) (id : ExprId) (p : Nat)
    (visited : List (ExprId × Nat)) (stop : Option Nat) : Prop :=
  ∃ s rest, g.shape? id = some s ∧ FastPath.Run g text s p rest stop ∧ visited = (id, p) :: rest

namespace FastPath

variable {g : Grammar} {text : Text} {s : Shape ExprId} {id e : ExprId} {p q nesting : Nat}
variable {visited : List (ExprId × Nat)} {stop : Option Nat}
variable {step : ExprId → Nat → Except Fault (Option Nat)}

/-! ## What a run comes to -/

/-- Repeating makes no use of more rounds than there are characters left, and one. -/
theorem repeated_enough (nesting : Nat) (hp : p ≤ text.length) {rounds rounds' : Nat}
    (h : text.length - p < rounds) (h' : text.length - p < rounds') :
    repeated (g.skipWithin text nesting e) rounds p =
      repeated (g.skipWithin text nesting e) rounds' p := by
  induction rounds generalizing p rounds' with
  | zero => omega
  | succ rounds ih =>
      obtain ⟨rounds', rfl⟩ : ∃ k, rounds' = k + 1 := ⟨rounds' - 1, by omega⟩
      simp only [repeated]
      cases hrun : g.skipWithin text nesting e p with
      | error _ => rfl
      | ok found =>
          cases found with
          | none => rfl
          | some q =>
              have hwithin := skipWithin_bounds g.solves_derives nesting e p q hp hrun
              have hforward : p ≤ q := hwithin.forward
              have hq : q ≤ text.length := hwithin.stop
              by_cases hstay : q = p
              · exact (if_pos hstay).trans (if_pos hstay).symm
              · exact (if_neg hstay).trans ((ih hq (by omega) (by omega)).trans (if_neg hstay).symm)

/-- A match with bounds that are large enough comes to what the run comes to. -/
theorem Run.skips (h : Run g text s p visited stop) (hp : p ≤ text.length) :
    ∀ᶠ nesting in atTop, matchShape text (g.skipWithin text nesting) s p = .ok stop := by
  induction h with
  | literal | any | range | set | sequence_nil | choice_nil => exact .of_forall fun _ => rfl
  | sequence_fail rest hs _ ih =>
      filter_upwards [Grammar.SkipsTo.of_shape hs (ih hp)] with nesting hrun
      simp only [matchShape, inOrder, hrun]
      rfl
  | sequence_next hs _ _ ih ihrest =>
      have hfirst := Grammar.SkipsTo.of_shape hs (ih hp)
      filter_upwards [hfirst, ihrest (hfirst.within hp).stop] with nesting hrun hrest
      simp only [matchShape, inOrder, hrun]
      exact hrest
  | choice_here rest hs _ ih =>
      filter_upwards [Grammar.SkipsTo.of_shape hs (ih hp)] with nesting hrun
      simp only [matchShape, firstOf, hrun]
      rfl
  | choice_next hs _ _ ih ihrest =>
      filter_upwards [Grammar.SkipsTo.of_shape hs (ih hp), ihrest hp] with nesting hrun hrest
      simp only [matchShape, firstOf, hrun]
      exact hrest
  | zeroMore_end hs _ ih =>
      filter_upwards [Grammar.SkipsTo.of_shape hs (ih hp)] with nesting hrun
      simp only [matchShape, repeated, hrun]
      rfl
  | zeroMore_stay hs _ ih =>
      filter_upwards [Grammar.SkipsTo.of_shape hs (ih hp)] with nesting hrun
      simp only [matchShape, repeated, hrun]
      exact (congrArg (fun last : Except Fault Nat => some <$> last) (if_pos rfl)).trans rfl
  | @zeroMore_next e s p q _ _ stop hs _ hmoved _ ih ihrest =>
      have hfirst := Grammar.SkipsTo.of_shape hs (ih hp)
      have hforward : p ≤ q := (hfirst.within hp).forward
      have hq : q ≤ text.length := (hfirst.within hp).stop
      filter_upwards [hfirst, ihrest hq] with nesting hrun hrest
      have hmore : repeated (g.skipWithin text nesting e) (text.length - p) q =
          repeated (g.skipWithin text nesting e) (text.length - q + 1) q :=
        repeated_enough nesting hq (by omega) (by omega)
      simp only [matchShape, repeated, hrun] at hrest ⊢
      exact (congrArg (some <$> ·) ((if_neg hmoved).trans hmore)).trans hrest
  | oneMore_fail hs _ ih =>
      filter_upwards [Grammar.SkipsTo.of_shape hs (ih hp)] with nesting hrun
      simp only [matchShape, hrun]
      rfl
  | oneMore hs _ _ ih ihrest =>
      have hfirst := Grammar.SkipsTo.of_shape hs (ih hp)
      filter_upwards [hfirst, ihrest (hfirst.within hp).stop] with nesting hrun hrest
      simp only [matchShape, hrun]
      exact hrest
  | optional hs _ ih | lookahead hs _ ih | not hs _ ih =>
      filter_upwards [Grammar.SkipsTo.of_shape hs (ih hp)] with nesting hrun
      simp only [matchShape, hrun]
      rfl
  | capture mode hs _ ih => exact Grammar.SkipsTo.of_shape hs (ih hp)
  | minPrecedence floor hs _ ih => exact Grammar.SkipsTo.of_shape hs (ih hp)
  | @slow s p hslow =>
      refine .of_forall fun nesting => ?_
      cases s <;> first | rfl | cases hslow

/-- What is evaluated by a run moves on, inside the text. -/
theorem Run.within (h : Run g text s p visited (some q)) (hs : g.shape? e = some s)
    (hp : p ≤ text.length) : p ≤ q ∧ q ≤ text.length :=
  have hwithin := (Grammar.SkipsTo.of_shape hs (h.skips hp)).within hp
  ⟨hwithin.forward, hwithin.stop⟩

/-! ## Where the bounded match answers -/

/-- Where the step answers for an expression, its run comes to that. -/
def Done (g : Grammar) (text : Text) (step : ExprId → Nat → Except Fault (Option Nat)) : Prop :=
  ∀ i q r, q ≤ text.length → step i q = .ok r →
    ∃ s visited, g.shape? i = some s ∧ Run g text s q visited r

section Done

variable (hdone : Done g text step) (htells : Tells text g.derives step)
include hdone

theorem run_of_firstOf (items : List ExprId) (hp : p ≤ text.length)
    (h : firstOf step items p = .ok stop) : ∃ visited, Run g text (.choice items) p visited stop := by
  induction items with
  | nil =>
      cases h
      exact ⟨_, .choice_nil p⟩
  | cons item rest ih =>
      obtain ⟨found, hitem, h⟩ := ok_of_bind h
      obtain ⟨s, visited, hs, hrun⟩ := hdone item p found hp hitem
      cases found with
      | some q =>
          cases h
          exact ⟨_, .choice_here rest hs hrun⟩
      | none =>
          obtain ⟨visited', hrest⟩ := ih h
          exact ⟨_, .choice_next hs hrun hrest⟩

include htells

theorem run_of_inOrder (items : List ExprId) (hp : p ≤ text.length)
    (h : inOrder step items p = .ok stop) :
    ∃ visited, Run g text (.sequence items) p visited stop := by
  induction items generalizing p with
  | nil =>
      cases h
      exact ⟨_, .sequence_nil p⟩
  | cons item rest ih =>
      obtain ⟨found, hitem, h⟩ := ok_of_bind h
      obtain ⟨s, visited, hs, hrun⟩ := hdone item p found hp hitem
      cases found with
      | none =>
          cases h
          exact ⟨_, .sequence_fail rest hs hrun⟩
      | some q =>
          obtain ⟨visited', hrest⟩ := ih (htells item p q hp hitem).stop h
          exact ⟨_, .sequence_next hs hrun hrest⟩

/-- With a round for every character left and one, it is the operand that ends a repetition. -/
theorem run_of_repeated (rounds last : Nat) (hp : p ≤ text.length)
    (henough : text.length - p < rounds) (h : repeated (step e) rounds p = .ok last) :
    ∃ visited, Run g text (.zeroMore e) p visited (some last) := by
  induction rounds generalizing p with
  | zero => omega
  | succ rounds ih =>
      obtain ⟨found, hitem, h⟩ := ok_of_bind h
      obtain ⟨s, visited, hs, hrun⟩ := hdone e p found hp hitem
      cases found with
      | none =>
          cases h
          exact ⟨_, .zeroMore_end hs hrun⟩
      | some q =>
          have hwithin := htells e p q hp hitem
          have hforward : p ≤ q := hwithin.forward
          have hq : q ≤ text.length := hwithin.stop
          by_cases hstay : q = p
          · obtain rfl := hstay
            cases (if_pos rfl).symm.trans h
            exact ⟨_, .zeroMore_stay hs hrun⟩
          · obtain ⟨visited', hrest⟩ := ih hq (by omega) ((if_neg hstay).symm.trans h)
            exact ⟨_, .zeroMore_next hs hrun hstay hrest⟩

theorem run_of_matchShape (s : Shape ExprId) (hp : p ≤ text.length)
    (h : matchShape text step s p = .ok stop) : ∃ visited, Run g text s p visited stop := by
  cases s with
  | literal l =>
      cases h
      exact ⟨_, .literal l p⟩
  | any =>
      cases h
      exact ⟨_, .any p⟩
  | range lo hi =>
      cases h
      exact ⟨_, .range lo hi p⟩
  | set members =>
      cases h
      exact ⟨_, .set members p⟩
  | sequence items => exact run_of_inOrder hdone htells items hp h
  | choice items => exact run_of_firstOf hdone items hp h
  | optional e =>
      obtain ⟨found, hitem, hk⟩ := ok_of_bind h
      obtain ⟨s, visited, hs, hrun⟩ := hdone e p found hp hitem
      cases hk
      exact ⟨_, .optional hs hrun⟩
  | zeroMore e =>
      obtain ⟨last, hrepeat, hk⟩ := ok_of_bind h
      cases hk
      exact run_of_repeated hdone htells _ last hp (Nat.lt_succ_self _) hrepeat
  | oneMore e =>
      obtain ⟨found, hitem, hk⟩ := ok_of_bind h
      obtain ⟨s, visited, hs, hrun⟩ := hdone e p found hp hitem
      cases found with
      | none =>
          cases hk
          exact ⟨_, .oneMore_fail hs hrun⟩
      | some q =>
          obtain ⟨last, hrepeat, hk⟩ := ok_of_bind hk
          cases hk
          obtain ⟨visited', hrest⟩ := run_of_repeated hdone htells _ last
            (htells e p q hp hitem).stop (Nat.lt_succ_self _) hrepeat
          exact ⟨_, .oneMore hs hrun hrest⟩
  | lookahead e =>
      obtain ⟨found, hitem, hk⟩ := ok_of_bind h
      obtain ⟨s, visited, hs, hrun⟩ := hdone e p found hp hitem
      cases hk
      exact ⟨_, .lookahead hs hrun⟩
  | not e =>
      obtain ⟨found, hitem, hk⟩ := ok_of_bind h
      obtain ⟨s, visited, hs, hrun⟩ := hdone e p found hp hitem
      cases hk
      exact ⟨_, .not hs hrun⟩
  | capture e mode =>
      obtain ⟨s, visited, hs, hrun⟩ := hdone e p stop hp h
      exact ⟨_, .capture mode hs hrun⟩
  | minPrecedence e floor =>
      obtain ⟨s, visited, hs, hrun⟩ := hdone e p stop hp h
      exact ⟨_, .minPrecedence floor hs hrun⟩
  | token | leftRecursive | cluster | reference | custom =>
      cases h
      exact ⟨_, .slow p rfl⟩

end Done

theorem done_skipWithin (g : Grammar) (text : Text) (nesting : Nat) :
    Done g text (g.skipWithin text nesting) := by
  induction nesting with
  | zero =>
      intro i q r _ h
      cases h
  | succ nesting ih =>
      intro i q r hq h
      rw [Grammar.skipWithin] at h
      cases hs : g.shape? i with
      | none =>
          rw [hs] at h
          cases h
      | some s =>
          rw [hs] at h
          obtain ⟨visited, hrun⟩ :=
            run_of_matchShape ih (skipWithin_bounds g.solves_derives nesting) s hq h
          exact ⟨s, visited, rfl, hrun⟩

/-! ## What is evaluated -/

/-- Expressions below a shape, at positions from `p` on inside the text. -/
def Visits (g : Grammar) (text : Text) (s : Shape ExprId) (p : Nat)
    (visited : List (ExprId × Nat)) : Prop :=
  ∀ i q, (i, q) ∈ visited →
    p ≤ q ∧ q ≤ text.length ∧ ∃ child ∈ s.children, ReflTransGen g.Child child i

namespace Visits

variable {t : Shape ExprId} {visited' : List (ExprId × Nat)}

theorem nil : Visits g text s p [] := by
  rintro i q ⟨⟩

/-- A child is below, and so is all that is below its shape. -/
theorem operand (h : Visits g text s p visited) (hs : g.shape? e = some s) (he : e ∈ t.children)
    (hp : p ≤ text.length) : Visits g text t p ((e, p) :: visited) := by
  intro i q hmem
  rcases List.mem_cons.mp hmem with heq | hmem
  · cases heq
    exact ⟨le_rfl, hp, e, he, .refl⟩
  · obtain ⟨hpq, hq, child, hchild, hreach⟩ := h i q hmem
    exact ⟨hpq, hq, e, he, hreach.head ⟨s, hs, hchild⟩⟩

theorem append (h : Visits g text t p visited) (h' : Visits g text s q visited') (hpq : p ≤ q)
    (hsub : s.children ⊆ t.children) : Visits g text t p (visited ++ visited') := by
  intro i x hmem
  rcases List.mem_append.mp hmem with hmem | hmem
  · exact h i x hmem
  · obtain ⟨hqx, hx, child, hchild, hreach⟩ := h' i x hmem
    exact ⟨hpq.trans hqx, hx, child, hsub hchild, hreach⟩

end Visits

/-- A run evaluates what is below its shape, from where it begins on and inside the text. -/
theorem Run.visits (h : Run g text s p visited stop) (hp : p ≤ text.length) :
    Visits g text s p visited := by
  induction h with
  | literal | any | range | set | sequence_nil | choice_nil | slow => exact .nil
  | sequence_fail rest hs _ ih | choice_here rest hs _ ih =>
      exact (ih hp).operand hs (List.mem_cons_self ..) hp
  | sequence_next hs hrun _ ih ihrest =>
      obtain ⟨hforward, hq⟩ := hrun.within hs hp
      exact ((ih hp).operand hs (List.mem_cons_self ..) hp).append (ihrest hq) hforward
        (List.subset_cons_self ..)
  | choice_next hs _ _ ih ihrest =>
      exact ((ih hp).operand hs (List.mem_cons_self ..) hp).append (ihrest hp) le_rfl
        (List.subset_cons_self ..)
  | zeroMore_next hs hrun _ _ ih ihrest | oneMore hs hrun _ ih ihrest =>
      obtain ⟨hforward, hq⟩ := hrun.within hs hp
      exact ((ih hp).operand hs (List.mem_singleton_self _) hp).append (ihrest hq) hforward
        (List.Subset.refl _)
  | optional hs _ ih | zeroMore_end hs _ ih | zeroMore_stay hs _ ih | oneMore_fail hs _ ih
    | lookahead hs _ ih | not hs _ ih | capture _ hs _ ih | minPrecedence _ hs _ ih =>
      exact (ih hp).operand hs (List.mem_singleton_self _) hp

end FastPath

/-! ## Whitespace -/

namespace Grammar

variable {g g' : Grammar} {text : Text} {id ws : ExprId} {p : Nat}
variable {visited : List (ExprId × Nat)} {stop : Option Nat}

/-- The fast match of an expression is done, if and only if the bounded match answers, and it comes
    to that answer. -/
theorem skims_iff (hp : p ≤ text.length) :
    (∃ visited, g.Skims text id p visited stop) ↔ g.skip text id p = .ok stop := by
  constructor
  · rintro ⟨_, s, visited, hs, hrun, rfl⟩
    exact (SkipsTo.of_shape hs (hrun.skips hp)).skip
  · intro h
    obtain ⟨s, visited, hs, hrun⟩ := FastPath.done_skipWithin g text _ id p stop hp h
    exact ⟨_, s, visited, hs, hrun, rfl⟩

/-- What a fast match evaluates can be reached, and is evaluated from where it begins on and inside
    the text. -/
theorem Skims.visits (h : g.Skims text id p visited stop) (hp : p ≤ text.length) :
    ∀ i q, (i, q) ∈ visited → p ≤ q ∧ q ≤ text.length ∧ ReflTransGen g.Child id i := by
  obtain ⟨s, rest, hs, hrun, rfl⟩ := h
  intro i q hmem
  rcases List.mem_cons.mp hmem with heq | hmem
  · cases heq
    exact ⟨le_rfl, hp, .refl⟩
  · obtain ⟨hpq, hq, child, hchild, hreach⟩ := hrun.visits hp i q hmem
    exact ⟨hpq, hq, hreach.head ⟨s, hs, hchild⟩⟩

/-- Skipping the whitespace of a prepared grammar is done, wherever in the text it begins, and comes
    to what the bounded match answers.  It ends in the text, not before it began, and whatever is
    evaluated on the way has a fast path and is evaluated inside the text. -/
theorem prepare_skims {options : PrepareOptions} {report : PrepareReport}
    (h : prepare options g = .ok report g') (hws : g'.whitespace = some ws) (text : Text)
    (hp : p ≤ text.length) :
    (∃ visited stop, g'.Skims text ws p visited stop) ∧
      ∀ visited stop, g'.Skims text ws p visited stop →
        g'.skip text ws p = .ok stop ∧
        (∀ last, stop = some last → p ≤ last ∧ last ≤ text.length) ∧
        ∀ i q, (i, q) ∈ visited → g'.hasFastPath i = true ∧ p ≤ q ∧ q ≤ text.length := by
  obtain ⟨g₁, n, rfl, hn, hvalid⟩ := prepare_validates h
  have hdetect := validate_detects hvalid
  have hculprit := validateWhitespace_ok (validate_ok hvalid).2 hws
  obtain ⟨stop, hstop, hwithin⟩ := skip_ends hn hculprit
    (fun _ => acyclic_whitespace (g := g₁) hdetect hculprit) hp
  refine ⟨?_, ?_⟩
  · obtain ⟨visited, hskims⟩ := (skims_iff hp).mpr hstop
    exact ⟨visited, stop, hskims⟩
  · intro visited stop' hskims
    have hskip := (skims_iff hp).mp ⟨visited, hskims⟩
    obtain rfl : stop' = stop := Except.ok.inj (hskip.symm.trans hstop)
    refine ⟨hskip, ?_, ?_⟩
    · intro last hlast
      have hmoved := hwithin last hlast
      exact ⟨hmoved.forward, hmoved.stop⟩
    · intro i q hmem
      obtain ⟨hpq, hq, hreach⟩ := hskims.visits hp i q hmem
      obtain ⟨s, hs, hfast⟩ := fastPath_of_culprit hculprit hreach
      have hany : (g₁.shape? i).any Shape.hasFastPath = true := by
        rw [hs]
        exact hfast
      exact ⟨hany, hpq, hq⟩

/-- A letter, and blanks after it: repeated is what matches nothing too, or a blank and then
    itself. -/
def blanks : Grammar :=
  { nodes := #[{ shape := .token 1, flags := .rule }, .ofShape (.literal "a"),
      .ofShape (.zeroMore 3), .ofShape (.optional 4), .ofShape (.sequence [5, 3]),
      .ofShape (.literal " ")]
    root := some 0
    whitespace := some 2 }

theorem prepare_blanks :
    prepare { rejectNullableRepetition := false } blanks =
      .ok ⟨0, [], 2⟩ { blanks with prepared := true } := by
  cbv

theorem prepare_skims_blanks :
    ∃ report g visited, prepare { rejectNullableRepetition := false } blanks = .ok report g ∧
      g.whitespace = some 2 ∧ g.Skims (.ofString "a  a") 2 1 visited (some 3) := by
  obtain ⟨⟨visited, stop, hskims⟩, hall⟩ :=
    prepare_skims (p := 1) prepare_blanks rfl (.ofString "a  a") (by decide)
  have hskip : Grammar.skip { blanks with prepared := true } (.ofString "a  a") 2 1 =
      .ok (some 3) := by decide +kernel
  obtain rfl := Except.ok.inj ((hall visited stop hskims).1.symm.trans hskip)
  exact ⟨_, _, visited, prepare_blanks, rfl, hskims⟩

end Grammar

end Packrat
