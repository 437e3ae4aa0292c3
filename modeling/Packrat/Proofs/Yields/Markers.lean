import Packrat.Proofs.FastPath.Nesting
import Packrat.Proofs.Preparation.Wrapping
import Packrat.Proofs.Transparency.Outcomes
import Packrat.Proofs.Yields.Agreement

/-! # Boundaries that cannot be seen

    A boundary around a node that is not left-recursive has nothing to grow.  Its operand is run,
    what that found becomes a seed, and the operand is run again; NOBODY ASKS FOR THE SEED in
    between, since from the operand no path of first positions leads back to the node.  So the
    second run finds what the first one did and does not surpass it, and the boundary yields what its
    operand does.

    That has to hold in the middle of a parse, where other boundaries grow and the new one is blocked
    or not.  The two parses are therefore compared in scopes that mirror each other
    (`Scope.Mirrors`): a moved node answers for the one that it was, and seeds of the new boundaries
    are ignored.  They may be ignored as long as they are not met (`Grammar.Meets`). -/

namespace Packrat

open Relation Matching Engine

/-! ## Contents of a scope -/

theorem Seeds.Canonical.isBlocked_setBlocked {s : Seeds ExactDigest} (h : s.Canonical)
    (id i : ExprId) (b : Bool) :
    (s.setBlocked id b).isBlocked i = if i = id then b else s.isBlocked i := by
  rw [Bool.eq_iff_iff, Seeds.isBlocked_iff, h.mem_setBlocked]
  split
  · exact Iff.rfl
  · exact Seeds.isBlocked_iff.symm

theorem Floors.floor_set (f : Floors) (cluster i : ExprId) (floor : Precedence) :
    (f.set cluster floor).floor i = if i = cluster then floor else f.floor i := by
  rw [Floors.floor, Floors.explicit?_set]
  split <;> rfl

theorem Scope.Canonical.blocking {c : Scope} (h : c.Canonical) (id : ExprId) (blocked : Bool) :
    (c.blocking id blocked).Canonical :=
  ⟨h.seeds.setBlocked id blocked, h.floors⟩

/-! ## Moved nodes -/

namespace Grammar

variable {g g' : Grammar} {inner : ExprId → Option ExprId} {n : Nullability} {x y : ExprId}

/-- Where a node of the old grammar is now. -/
def newId (inner : ExprId → Option ExprId) (x : ExprId) : ExprId :=
  (inner x).getD x

theorem newId_of_none (h : inner x = none) : newId inner x = x := by
  rw [newId, h, Option.getD_none]

theorem newId_of_some {i : ExprId} (h : inner x = some i) : newId inner x = i := by
  rw [newId, h, Option.getD_some]

namespace Wrapped

theorem newId_inj (h : Wrapped g g' inner) (hx : x < g.size) (hy : y < g.size) :
    newId inner x = newId inner y ↔ x = y := by
  refine ⟨fun heq => ?_, congrArg _⟩
  cases hi : inner x with
  | none =>
      rw [newId_of_none hi] at heq
      cases hj : inner y with
      | none => rwa [newId_of_none hj] at heq
      | some j =>
          rw [newId_of_some hj] at heq
          exact absurd hx (Nat.not_lt.mpr (heq ▸ h.fresh y j hj))
  | some i =>
      rw [newId_of_some hi] at heq
      cases hj : inner y with
      | none =>
          rw [newId_of_none hj] at heq
          exact absurd hy (Nat.not_lt.mpr (heq ▸ h.fresh x i hi))
      | some j =>
          rw [newId_of_some hj] at heq
          exact h.injective x y i hi (heq ▸ hj)

/-- No node is where a boundary was put. -/
theorem newId_ne (h : Wrapped g g' inner) (hy : (inner y).isSome) : newId inner x ≠ y := by
  rintro rfl
  obtain ⟨j, hj⟩ := Option.isSome_iff_exists.mp hy
  cases hi : inner x with
  | none =>
      rw [newId_of_none hi] at hj
      cases hi.symm.trans hj
  | some i =>
      rw [newId_of_some hi] at hj
      exact absurd (h.old i j hj) (Nat.not_lt.mpr (h.fresh x i hi))

end Wrapped

/-- A match of `i` at `q` may meet a mark: one that lies farther on, or one that lies where it begins
    and is on a node that its first positions lead to. -/
def Meets (g : Grammar) (n : Nullability) (marks : ExprId → Nat → Prop) (i : ExprId) (q : Nat) :
    Prop :=
  ∃ w p, marks w p ∧ q ≤ p ∧ (q = p → ReflTransGen (g.FirstEdge n) i w)

end Grammar

/-- What is marked and not met lies where the match begins, at a node that it does not lead to. -/
theorem Grammar.eq_of_not_meets {g : Grammar} {n : Nullability} {marks : ExprId → Nat → Prop}
    {i w : ExprId} {p q : Nat} (h : ¬ g.Meets n marks i q) (hmark : marks w p) (hle : q ≤ p) :
    p = q ∧ ¬ ReflTransGen (g.FirstEdge n) i w := by
  by_cases heq : p = q
  · exact ⟨heq, fun hreach => h ⟨w, p, hmark, hle, fun _ => hreach⟩⟩
  · exact absurd ⟨w, p, hmark, hle, fun hsame => absurd hsame.symm heq⟩ h

/-- Still less does the node come back to it. -/
theorem Grammar.eq_and_not_transGen_of_not_meets {g : Grammar} {n : Nullability}
    {marks : ExprId → Nat → Prop} {i w : ExprId} {p q : Nat} (h : ¬ g.Meets n marks i q)
    (hmark : marks w p) (hle : q ≤ p) : p = q ∧ ¬ TransGen (g.FirstEdge n) i w :=
  (Grammar.eq_of_not_meets h hmark hle).imp_right fun hnot hreach => hnot hreach.to_reflTransGen

/-! ## Scopes that mirror each other -/

/-- The scopes hold the same for every node of the old grammar and for the node that it is now.  What
    is seeded for the new boundaries is among the marks. -/
structure Scope.Mirrors (g : Grammar) (inner : ExprId → Option ExprId) (marks : ExprId → Nat → Prop)
    (c c' : Scope) : Prop where
  left : c.Canonical
  right : c'.Canonical
  seed : ∀ x < g.size, ∀ p,
    (c'.seeds.get? { expr := Grammar.newId inner x, position := p }).map (Option.map Changes.found) =
      (c.seeds.get? { expr := x, position := p }).map (Option.map Changes.found)
  blocked : ∀ x < g.size, c'.seeds.isBlocked (Grammar.newId inner x) = c.seeds.isBlocked x
  floor : ∀ x < g.size, c'.floors.floor (Grammar.newId inner x) = c.floors.floor x
  mark : ∀ w, (inner w).isSome → ∀ p, c'.seeds.get? { expr := w, position := p } ≠ none → marks w p

namespace Scope.Mirrors

variable {g g' : Grammar} {inner : ExprId → Option ExprId} {marks : ExprId → Nat → Prop}
variable {c c' : Scope} {x w : ExprId} {p : Nat}

theorem initial : Scope.initial.Mirrors g inner (fun _ _ => False) Scope.initial where
  left := Scope.canonical_initial
  right := Scope.canonical_initial
  seed := fun _ _ _ => rfl
  blocked := fun _ _ => rfl
  floor := fun _ _ => rfl
  mark := fun _ _ _ hsome => hsome rfl

theorem quiet (h : c.Mirrors g inner marks c') : c.quiet.Mirrors g inner marks c'.quiet :=
  ⟨⟨h.left.seeds, h.left.floors⟩, ⟨h.right.seeds, h.right.floors⟩, h.seed, h.blocked, h.floor,
    h.mark⟩

theorem reset (h : c.Mirrors g inner marks c') (floor : Precedence) :
    (c.reset floor).Mirrors g inner marks (c'.reset floor) where
  left := ⟨h.left.seeds.unblockAll, Floors.canonical_uniform floor⟩
  right := ⟨h.right.seeds.unblockAll, Floors.canonical_uniform floor⟩
  seed := h.seed
  blocked := fun _ _ => rfl
  floor := fun _ _ => rfl
  mark := h.mark

/-- What a boundary changes, the boundary that it is now changes alike. -/
theorem likeness (hw : Grammar.Wrapped g g' inner) (hx : x < g.size) :
    Scope.Likeness (Scope.Mirrors g inner marks) x (Grammar.newId inner x) where
  seed := fun h => h.seed x hx _
  blocked := fun h => h.blocked x hx
  floor := fun h => h.floor x hx
  seeded := by
    intro c c' p best best' h hsame
    refine ⟨h.left.seeded _ _, h.right.seeded _ _, ?_, h.blocked, h.floor, ?_⟩
    · intro y hy q
      rw [Scope.get?_seeded, Scope.get?_seeded]
      simp only [SeedKey.mk.injEq, hw.newId_inj hy hx]
      split
      · exact congrArg some hsame
      · exact h.seed y hy q
    · intro w hisSome q hseed
      rw [Scope.get?_seeded, if_neg] at hseed
      · exact h.mark w hisSome q hseed
      · exact fun heq => hw.newId_ne hisSome (congrArg SeedKey.expr heq).symm
  blocking := by
    intro c c' blocked h
    refine ⟨h.left.blocking _ _, h.right.blocking _ _, ?_, ?_, h.floor, ?_⟩
    · intro y hy q
      rw [Scope.get?_blocking, Scope.get?_blocking]
      exact h.seed y hy q
    · intro y hy
      rw [Scope.blocking, Scope.blocking, h.left.seeds.isBlocked_setBlocked,
        h.right.seeds.isBlocked_setBlocked, h.blocked y hy]
      simp only [hw.newId_inj hy hx]
    · intro w hisSome q hseed
      rw [Scope.get?_blocking] at hseed
      exact h.mark w hisSome q hseed
  atLevel := by
    intro c c' level h
    refine ⟨h.left.atLevel _ _, h.right.atLevel _ _, h.seed, h.blocked, ?_, h.mark⟩
    intro y hy
    rw [Scope.atLevel, Scope.atLevel, Floors.floor_set, Floors.floor_set, h.floor y hy]
    simp only [hw.newId_inj hy hx]

theorem mono (h : c.Mirrors g inner marks c') {marks' : ExprId → Nat → Prop}
    (hmarks : ∀ w p, marks w p → marks' w p) : c.Mirrors g inner marks' c' :=
  ⟨h.left, h.right, h.seed, h.blocked, h.floor, fun w hw p hseed => hmarks w p (h.mark w hw p hseed)⟩

/-- A seed of a new boundary does not matter, but it is to be marked. -/
theorem seeded (hw : Grammar.Wrapped g g' inner) (h : c.Mirrors g inner marks c')
    (hisSome : (inner w).isSome) (hmark : marks w p) (best : Option Changes) :
    c.Mirrors g inner marks (c'.seeded { expr := w, position := p } best) := by
  refine ⟨h.left, h.right.seeded _ _, ?_, h.blocked, h.floor, ?_⟩
  · intro y hy q
    rw [Scope.get?_seeded, if_neg]
    · exact h.seed y hy q
    · exact fun heq => hw.newId_ne hisSome (congrArg SeedKey.expr heq)
  · intro v hv q hseed
    rw [Scope.get?_seeded] at hseed
    split at hseed
    · rename_i heq
      cases heq
      exact hmark
    · exact h.mark v hv q hseed

/-- Whether a new boundary is blocked does not matter. -/
theorem blocking (hw : Grammar.Wrapped g g' inner) (h : c.Mirrors g inner marks c')
    (hisSome : (inner w).isSome) (blocked : Bool) :
    c.Mirrors g inner marks (c'.blocking w blocked) := by
  refine ⟨h.left, h.right.blocking _ _, ?_, ?_, h.floor, ?_⟩
  · intro y hy q
    rw [Scope.get?_blocking]
    exact h.seed y hy q
  · intro y hy
    rw [Scope.blocking, h.right.seeds.isBlocked_setBlocked, if_neg (hw.newId_ne hisSome)]
    exact h.blocked y hy
  · intro v hv q hseed
    rw [Scope.get?_blocking] at hseed
    exact h.mark v hv q hseed

theorem growing (hw : Grammar.Wrapped g g' inner) (h : c.Mirrors g inner marks c')
    (hisSome : (inner w).isSome) (hmark : marks w p) (leftAssociative : Bool) :
    c.Mirrors g inner marks (c'.growing { expr := w, position := p } leftAssociative) := by
  cases leftAssociative with
  | true => exact (h.seeded hw hisSome hmark none).blocking hw hisSome true
  | false => exact h.seeded hw hisSome hmark none

end Scope.Mirrors

/-! ## Skipping -/

section Wrapped

variable {g g' : Grammar} {inner : ExprId → Option ExprId} {n : Nullability} {text : Text}
variable (hw : Grammar.Wrapped g g' inner) (hn : g.nullability = .ok n)
  (hblank : ∀ ws, g.whitespace = some ws → ∀ w, (inner w).isSome → ¬ ReflTransGen g.Child ws w)
include hw hn hblank

/-- Whatever the whitespace leads to is skipped as before. -/
theorem Grammar.Wrapped.skipWithin_eq {ws : ExprId} (hws : g.whitespace = some ws) (nesting : Nat)
    {e : ExprId} (hinside : e < g.size) (hreach : ReflTransGen g.Child ws e) :
    g'.skipWithin text nesting e = g.skipWithin text nesting e := by
  induction nesting generalizing e with
  | zero => rfl
  | succ nesting ih =>
      have hplain : inner e = none := by
        by_contra hsome
        exact hblank ws hws e (Option.isSome_iff_ne_none.mpr hsome) hreach
      funext p
      rw [Grammar.skipWithin, Grammar.skipWithin, hw.plain e hinside hplain]
      cases hs : g.shape? e with
      | none => rfl
      | some s =>
          refine congrFun (Grammar.matchShape_congr fun i hi => ?_) p
          exact ih (Grammar.child_lt_size hn hs hi) (hreach.tail ⟨s, hs, hi⟩)

/-- After a token, both grammars skip the same. -/
theorem Grammar.Wrapped.skips_agree {f : Found} {o o' : Option Found}
    (h : Combinators.Skips g text f o) (h' : Combinators.Skips g' text f o') : o' = o := by
  rw [Combinators.Skips] at h h'
  rw [hw.whitespace] at h'
  cases hws : g.whitespace with
  | none =>
      simp only [hws] at h h'
      exact h'.trans h.symm
  | some ws =>
      simp only [hws] at h h'
      obtain ⟨stop, hskip, rfl⟩ := h
      obtain ⟨stop', hskip', rfl⟩ := h'
      have hinside : ws < g.size := Grammar.lt_size_of_skipWithin hskip
      rw [Grammar.skip, ← hw.skipWithin_eq hn hblank hws _ hinside .refl] at hskip
      cases (Grammar.skip_of_skipWithin hskip).symm.trans hskip'
      rfl

/-! ## What is yielded -/

variable (hcustom : ∀ i spec children, g.shape? i ≠ some (.custom spec children))
include hcustom

/-- A shape yields the same for the node that it is now, if all children do. -/
theorem Grammar.Wrapped.shape_agrees {n' : Nullability} {nesting nesting' : Nat}
    {marks : ExprId → Nat → Prop} {c c' : Scope} {x : ExprId} {p : Nat} {s : Shape ExprId}
    {o o' : Option Found} (hs : g.shape? x = some s) (hvisited : Visited g n text c x p)
    (hmeets : ∀ w q, marks w q → p ≤ q → q = p ∧ ¬ TransGen (g.FirstEdge n) x w)
    (hmirrors : c.Mirrors g inner marks c')
    (hagree : ∀ d d' i q o o', Visited g n text d i q → ¬ g.Meets n marks i q →
      d.Mirrors g inner marks d' → g.Yields n text nesting d i q o →
      g'.Yields n' text nesting' d' i q o' → o' = o)
    (h : s.Yields (g.Yields n text nesting) g text c x p o)
    (h' : s.Yields (g'.Yields n' text nesting') g' text c' (Grammar.newId inner x) p o') :
    o' = o := by
  have hfirst : ∀ i ∈ s.firsts n.isNullable, ¬ g.Meets n marks i p := by
    rintro i hi ⟨w, q, hmark, hle, hreach⟩
    obtain ⟨rfl, hnot⟩ := hmeets w q hmark hle
    exact hnot (.head' (Grammar.firstEdge_of_firsts hs hi) (hreach rfl))
  have hlater : ∀ i q, p < q → ¬ g.Meets n marks i q := by
    rintro i q hlt ⟨w, r, hmark, hle, -⟩
    obtain ⟨rfl, -⟩ := hmeets w r hmark (hlt.le.trans hle)
    omega
  exact Shape.Yields.agree (Scope.Mirrors.likeness hw hvisited.inside) Scope.Mirrors.quiet
    (fun floor h => h.reset floor) hmirrors (fun _ _ _ _ hf => hf.within)
    (hvisited.permits hn hcustom hs hfirst hlater)
    (fun f o o' => hw.skips_agree hn hblank)
    (fun d d' hd i q o o' hask => hagree d d' i q o o' hask.1 hask.2 hd) h h'

/-- What an expression of the old grammar yields, it yields in the new one, if no new boundary lies
    on a cycle of first positions. -/
theorem Grammar.Wrapped.yields_agree {n' : Nullability}
    (hacyclic : ∀ w, (inner w).isSome → ¬ TransGen (g.FirstEdge n) w w) (nesting nesting' : Nat)
    {marks : ExprId → Nat → Prop} {c c' : Scope} {x : ExprId} {p : Nat} {o o' : Option Found}
    (hvisited : Visited g n text c x p) (hmeets : ¬ g.Meets n marks x p)
    (hmirrors : c.Mirrors g inner marks c') (h : g.Yields n text nesting c x p o)
    (h' : g'.Yields n' text nesting' c' x p o') : o' = o := by
  induction nesting' using Nat.strong_induction_on generalizing nesting marks c c' x p o o' with
  | _ nesting' ih =>
  obtain _ | nesting' := nesting'
  · exact h'.elim
  obtain _ | nesting := nesting
  · exact h.elim
  obtain ⟨⟨s, hs, hyields⟩, -⟩ := h
  obtain ⟨⟨s', hs', hyields'⟩, -⟩ := h'
  cases hi : inner x with
  | none =>
      cases hs.symm.trans ((hw.plain x hvisited.inside hi).symm.trans hs')
      rw [← Grammar.newId_of_none hi] at hyields'
      refine hw.shape_agrees hn hblank hcustom hs hvisited ?_ hmirrors ?_ hyields hyields'
      · exact fun w q => Grammar.eq_and_not_transGen_of_not_meets hmeets
      · exact fun d d' i q o o' => ih nesting' (Nat.lt_succ_self _) nesting
  | some i =>
      have hisSome : (inner x).isSome := Option.isSome_iff_exists.mpr ⟨i, hi⟩
      obtain ⟨leftAssociative, hwrapper⟩ := hw.wrapper x i hi
      cases hwrapper.symm.trans hs'
      -- while the boundary runs its operand, its own seed is a mark as well
      let marks' : ExprId → Nat → Prop := fun v q => v = x ∧ q = p ∨ marks v q
      have hmarked : c.Mirrors g inner marks' c' := hmirrors.mono fun _ _ => Or.inr
      have hmark : marks' x p := Or.inl ⟨rfl, rfl⟩
      have hnone : c'.seeds.get? { expr := x, position := p } = none := by
        by_contra hseed
        exact (Grammar.eq_of_not_meets hmeets (hmirrors.mark x hisSome p hseed) le_rfl).2 .refl
      have hoperand : ∀ d', c.Mirrors g inner marks' d' → ∀ o₁,
          g'.Yields n' text nesting' d' i p o₁ → o₁ = o := by
        intro d' hd' o₁ h₁
        obtain _ | nesting' := nesting'
        · exact h₁.elim
        obtain ⟨⟨s₁, hs₁, hyields₁⟩, -⟩ := h₁
        cases hs.symm.trans ((hw.moved x i hi).symm.trans hs₁)
        rw [← Grammar.newId_of_some hi] at hyields₁
        refine hw.shape_agrees hn hblank hcustom hs hvisited ?_ hd' ?_ hyields hyields₁
        · rintro w q (⟨rfl, rfl⟩ | hmark) hle
          · exact ⟨rfl, hacyclic w hisSome⟩
          · exact Grammar.eq_and_not_transGen_of_not_meets hmeets hmark hle
        · exact fun d d' i q o o' => ih nesting' (by omega) nesting
      refine Growth.Recurs.eq_of_operand hnone (hoperand _ ?_) (fun best => hoperand _ ?_) hyields'
      · exact (hmarked.seeded hw hisSome hmark none).blocking hw hisSome false
      · exact (hmarked.growing hw hisSome hmark leftAssociative).seeded hw hisSome hmark best

end Wrapped

/-! ## Runs -/

namespace Grammar

variable {g g' : Grammar} {n : Nullability} {id inner : ExprId} {leftAssociative : Bool}

/-- New boundaries on no cycle of first positions, out of reach of the whitespace, change no run. -/
theorem Wrapped.run_agrees {inner : ExprId → Option ExprId} (hw : Wrapped g g' inner)
    (hn : g.nullability = .ok n)
    (hcustom : ∀ i spec children, g.shape? i ≠ some (.custom spec children))
    (hacyclic : ∀ w, (inner w).isSome → ¬ TransGen (g.FirstEdge n) w w)
    (hblank : ∀ ws, g.whitespace = some ws → ∀ w, (inner w).isSome → ¬ ReflTransGen g.Child ws w)
    {c c' : Config} (hc : c.memoization = .none) (hc' : c'.memoization = .none) {root : ExprId}
    {text : Text} {b b' : Bool} {m m' : Machine} (hrun : Parser.run ⟨g, root, c⟩ text = .ok b m)
    (hrun' : Parser.run ⟨g', root, c'⟩ text = .ok b' m') :
    b' = b ∧ m'.state.stop = m.state.stop ∧ m'.state.captures.nodes = m.state.captures.nodes := by
  obtain ⟨n', hn', -⟩ := hw.nullability_ok hn
  have hcustom' : ∀ i spec children, g'.shape? i ≠ some (.custom spec children) := by
    intro i spec children hs
    rcases hw.cases hs with ⟨-, -, hs⟩ | ⟨_, _, -, hs⟩ | ⟨y, -, hs⟩
    · exact hcustom i spec children hs
    · cases hs
    · exact hcustom y spec children hs
  obtain ⟨hinside, o, hyields, hb, hstop, hnodes⟩ :=
    Parser.run_yields ⟨g, root, c⟩ hn hcustom hc hrun
  obtain ⟨-, o', hyields', hb', hstop', hnodes'⟩ :=
    Parser.run_yields ⟨g', root, c'⟩ hn' hcustom' hc' hrun'
  have hmeets : ¬ g.Meets n (fun _ _ => False) root 0 := by
    rintro ⟨w, p, hmark, -⟩
    exact hmark
  obtain rfl : o' = o := hw.yields_agree hn hblank hcustom hacyclic _ _ (visited_initial hinside)
    hmeets .initial hyields hyields'
  exact ⟨hb'.trans hb.symm, hstop'.trans hstop.symm, hnodes'.trans hnodes.symm⟩

/-- A boundary put around a node that is on no cycle of first positions cannot be seen, be it
    left-associative or not, if the grammar has no custom expressions and the whitespace does not
    reach the node.  On every text, if the match of the root answers with both grammars, then it
    succeeds with both or with none, ends at the same position and captures the same.  Nothing is
    memoized; the limits may differ. -/
theorem wrapInPlace_transparent (hn : g.nullability = .ok n)
    (hcustom : ∀ i spec children, g.shape? i ≠ some (.custom spec children))
    (hwrap : wrapInPlace id (.leftRecursive · leftAssociative) g = .ok inner g')
    (hcycle : ¬ TransGen (g.FirstEdge n) id id)
    (hblank : ∀ ws, g.whitespace = some ws → ¬ ReflTransGen g.Child ws id)
    {c c' : Config} (hc : c.memoization = .none) (hc' : c'.memoization = .none) {root : ExprId}
    {text : Text} {b b' : Bool} {m m' : Machine} (hrun : Parser.run ⟨g, root, c⟩ text = .ok b m)
    (hrun' : Parser.run ⟨g', root, c'⟩ text = .ok b' m') :
    b' = b ∧ m'.state.stop = m.state.stop ∧ m'.state.captures.nodes = m.state.captures.nodes := by
  obtain ⟨-, -, ⟨s, hs, -⟩, -⟩ := wrapInPlace_ok hwrap
  have hw := (Wrapped.refl g).wrap (lt_size_of_shape? hs) rfl hwrap
  have honly : ∀ w, (Function.update (fun _ => none) id (some inner) w).isSome → w = id := by
    intro w hw
    by_contra hne
    rw [Function.update_of_ne hne] at hw
    cases hw
  refine hw.run_agrees hn hcustom ?_ ?_ hc hc' hrun hrun'
  · exact fun w hisSome => honly w hisSome ▸ hcycle
  · exact fun ws hws w hisSome => honly w hisSome ▸ hblank ws hws

end Grammar

/-- The same lists, with a left-associative boundary around all that is a list or a number. -/
def nestedMarked : Grammar :=
  { nested with
    nodes := (nested.nodes.push (.ofShape (.choice [1, 9]))).setIfInBounds 0
      { shape := .leftRecursive 16 true, flags := .rule } }

/-- In nested lists the boundary is met again while it grows, and is blocked then. -/
theorem Grammar.wrapInPlace_transparent_nested :
    Grammar.wrapInPlace 0 (.leftRecursive · true) nested = .ok 16 nestedMarked ∧
      ∃ m m',
        Parser.run ⟨nested, 0, { memoization := .none }⟩ (.ofString "( 1 (2)) ") = .ok true m ∧
        Parser.run ⟨nestedMarked, 0, { memoization := .none }⟩ (.ofString "( 1 (2)) ") =
          .ok true m' ∧
        m.state.stop = 9 ∧ m'.state.stop = m.state.stop ∧
        m'.state.captures.nodes = m.state.captures.nodes := by
  have hwrap : Grammar.wrapInPlace 0 (.leftRecursive · true) nested = .ok 16 nestedMarked := rfl
  -- only the repetition leads back to the lists, and it is in no first position
  obtain ⟨n, hn, hfirsts⟩ : ∃ n, nested.nullability = .ok n ∧
      ∀ u < 16, u ≠ 7 → ∀ v ∈ (nested.firsts? n u).getD [], u < v ∧ v ≠ 7 :=
    ⟨⟨#[false, false, false, false, false, true, false, true, false, false, false, false, false,
      false, true, false]⟩, by cbv, by decide⟩
  have hedge : ∀ {u v}, nested.FirstEdge n u v → u ≠ 7 → u < v ∧ v ≠ 7 := by
    rintro u v ⟨firsts, hu, hv⟩ hne
    refine hfirsts u (Grammar.lt_size_of_firsts? (Option.isSome_of_eq_some hu)) hne v ?_
    rwa [hu]
  have hahead : ∀ {v}, TransGen (nested.FirstEdge n) 0 v → 0 < v ∧ v ≠ 7 := by
    intro v hreach
    induction hreach with
    | single h => exact hedge h (by decide)
    | tail _ h ih => exact ⟨ih.1.trans (hedge h ih.2).1, (hedge h ih.2).2⟩
  have hchildren : ∀ u < 16, 14 ≤ u → ∀ v ∈ (nested.children? u).getD [], 14 ≤ v := by decide
  have hblank : ∀ {v}, ReflTransGen nested.Child 14 v → 14 ≤ v := by
    intro v hreach
    induction hreach with
    | refl => exact le_rfl
    | tail _ h ih =>
        obtain ⟨s, hs, hv⟩ := h
        refine hchildren _ (Grammar.lt_size_of_shape? hs) ih _ ?_
        rwa [Grammar.children?, hs]
  have hcustom := Grammar.shape?_ne_custom (g := nested) (by simp [nested, Expr.ofShape])
  obtain ⟨m, hrun, hstop⟩ := exists_of_answer (a := true) (f := fun m => m.state.stop) (v := 9)
    (x := Parser.run ⟨nested, 0, { memoization := .none }⟩ (.ofString "( 1 (2)) "))
    (by decide +kernel)
  obtain ⟨m', hrun', -⟩ := exists_of_answer (a := true) (f := fun m => m.state.stop) (v := 9)
    (x := Parser.run ⟨nestedMarked, 0, { memoization := .none }⟩ (.ofString "( 1 (2)) "))
    (by decide +kernel)
  refine ⟨hwrap, m, m', hrun, hrun', hstop,
    (Grammar.wrapInPlace_transparent hn hcustom hwrap ?_ ?_ rfl rfl hrun hrun').2⟩
  · exact fun hcycle => (hahead hcycle).1.false
  · rintro ws ⟨⟩ hreach
    exact absurd (hblank hreach) (by decide)

end Packrat
