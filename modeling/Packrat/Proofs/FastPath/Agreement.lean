import Mathlib
import Packrat.Proofs.FastPath.Nesting
import Packrat.Proofs.Peg.Agreement
import Packrat.Proofs.Protocol.Bounds

/-! # The fast path agrees with the engine

    Where every expression below has a fast path and nothing nullable is repeated at least once, a
    match by the engine and a fast match end alike.  The engine remembers and moves a parse
    state, and the fast match does neither; but shape by shape both ask the same of the children.
    What is told of a match is where the fast match ends once it nests deep enough
    (`Grammar.SkipsTo`): the fast match of a shape nests one level deeper than those of its children,
    and so many of them at once that a level that is enough for all is best not named. -/

namespace Packrat

open Relation Filter Matching Engine

variable {g : Grammar} {text : Text} {id e : ExprId} {p : Nat} {stop : Option Nat}

/-- Fast matches that nest deep enough end at `stop`. -/
def Grammar.SkipsTo (g : Grammar) (text : Text) (id : ExprId) (p : Nat) (stop : Option Nat) : Prop :=
  ∀ᶠ nesting in atTop, g.skipWithin text nesting id p = .ok stop

namespace Grammar.SkipsTo

/-- The nesting that the fast match is given is deep enough. -/
theorem skip (h : g.SkipsTo text id p stop) : g.skip text id p = .ok stop := by
  obtain ⟨nesting, hrun⟩ := h.exists
  exact skip_of_skipWithin hrun

/-- The fast match ends in the text, and farther on unless the expression is nullable. -/
theorem within {last : Nat} (h : g.SkipsTo text id p (some last)) (hp : p ≤ text.length) :
    (Found.nothing last).Within text p (g.derives id) := by
  obtain ⟨nesting, hrun⟩ := h.exists
  exact FastPath.skipWithin_bounds g.solves_derives nesting id p last hp hrun

theorem of_shape {s : Shape ExprId} (hs : g.shape? id = some s)
    (h : ∀ᶠ nesting in atTop, FastPath.matchShape text (g.skipWithin text nesting) s p = .ok stop) :
    g.SkipsTo text id p stop := by
  obtain ⟨enough, henough⟩ := eventually_atTop.mp h
  refine eventually_atTop.mpr ⟨enough + 1, fun nesting hle => ?_⟩
  obtain ⟨nesting, rfl⟩ : ∃ k, nesting = k + 1 := ⟨nesting - 1, by omega⟩
  rw [skipWithin, hs]
  exact henough nesting (by omega)

end Grammar.SkipsTo

/-! ## Lists of items -/

section Items

variable {R : ExprId → Nat → Option Found → Prop} {items : List ExprId} {o : Option Found}

theorem Each.skips (hR : ∀ i ∈ items, ∀ q o, R i q o → g.SkipsTo text i q (o.map Found.stop))
    (h : Each R items p o) : ∀ᶠ nesting in atTop,
      FastPath.inOrder (g.skipWithin text nesting) items p = .ok (o.map Found.stop) := by
  induction h with
  | nil p => exact .of_forall fun _ => rfl
  | @fail item p rest hitem =>
      filter_upwards [hR item (List.mem_cons_self ..) p none hitem] with nesting hrun
      simp only [FastPath.inOrder, hrun]
      rfl
  | @next item rest p f o hitem _ ih =>
      filter_upwards [hR item (List.mem_cons_self ..) p (some f) hitem,
        ih fun i hi => hR i (List.mem_cons_of_mem _ hi)] with nesting hrun hrest
      simp only [FastPath.inOrder, hrun]
      refine Eq.trans hrest ?_
      rw [Option.map_map]
      rfl

theorem First.skips (hR : ∀ i ∈ items, ∀ q o, R i q o → g.SkipsTo text i q (o.map Found.stop))
    (h : First R items p o) : ∀ᶠ nesting in atTop,
      FastPath.firstOf (g.skipWithin text nesting) items p = .ok (o.map Found.stop) := by
  induction h with
  | nil p => exact .of_forall fun _ => rfl
  | @here item p f rest hitem =>
      filter_upwards [hR item (List.mem_cons_self ..) p (some f) hitem] with nesting hrun
      simp only [FastPath.firstOf, hrun]
      rfl
  | @next item rest p o hitem _ ih =>
      filter_upwards [hR item (List.mem_cons_self ..) p none hitem,
        ih fun i hi => hR i (List.mem_cons_of_mem _ hi)] with nesting hrun hrest
      simp only [FastPath.firstOf, hrun]
      exact hrest

/-- Repeated until it fails or stays in place, with a round for every character left and one more. -/
theorem Many.skips (hR : ∀ q o, R e q o → g.SkipsTo text e q (o.map Found.stop)) {count : Nat}
    {f : Found} (h : Many R e p count f) (hp : p ≤ text.length) :
    ∀ᶠ nesting in atTop, ∀ rounds, text.length - p < rounds →
      FastPath.repeated (g.skipWithin text nesting e) rounds p = .ok f.stop := by
  induction h with
  | @fail p hfail =>
      filter_upwards [hR p none hfail] with nesting hrun rounds henough
      obtain ⟨rounds, rfl⟩ : ∃ k, rounds = k + 1 := ⟨rounds - 1, by omega⟩
      simp only [FastPath.repeated, hrun]
      rfl
  | @stay p f hfound hstay =>
      filter_upwards [hR p (some f) hfound] with nesting hrun rounds henough
      obtain ⟨rounds, rfl⟩ : ∃ k, rounds = k + 1 := ⟨rounds - 1, by omega⟩
      simp only [FastPath.repeated, hrun]
      exact if_pos hstay
  | @next p count f f' hfound hmoved _ ih =>
      have hwithin := (hR p (some f) hfound).within hp
      have hforward : p ≤ f.stop := hwithin.forward
      have hstop : f.stop ≤ text.length := hwithin.stop
      filter_upwards [hR p (some f) hfound, ih hstop] with nesting hrun hrest rounds henough
      obtain ⟨rounds, rfl⟩ : ∃ k, rounds = k + 1 := ⟨rounds - 1, by omega⟩
      simp only [FastPath.repeated, hrun]
      refine (if_neg hmoved).trans (hrest rounds ?_)
      omega

end Items

/-! ## Shapes -/

/-- A fast match of a shape ends where the shape does, if fast matches of its children end where the
    children do. -/
theorem Shape.Finds.skips {R : Scope → ExprId → Nat → Option Found → Prop} {c : Scope}
    {s : Shape ExprId} {o : Option Found} (h : s.Finds R g text c p o)
    (hR : ∀ c, ∀ i ∈ s.children, ∀ q o, R c i q o → g.SkipsTo text i q (o.map Found.stop))
    (hsolid : ∀ e, s = .oneMore e → ¬ g.Derivable e) (hfast : s.hasFastPath = true)
    (hp : p ≤ text.length) : ∀ᶠ nesting in atTop,
      FastPath.matchShape text (g.skipWithin text nesting) s p = .ok (o.map Found.stop) := by
  have hterminal : ∀ {last : Option Nat}, o = last.map Found.nothing →
      ∀ᶠ _ : Nat in atTop, (.ok last : Except Fault (Option Nat)) = .ok (o.map Found.stop) := by
    rintro last rfl
    cases last <;> exact .of_forall fun _ => rfl
  have hoperand : ∀ c e q o, s.children = [e] → R c e q o → g.SkipsTo text e q (o.map Found.stop) :=
    fun c e q o honly => hR c e (honly ▸ List.mem_singleton_self e) q o
  cases s with
  | literal l => exact hterminal h
  | any => exact hterminal h
  | range lo hi => exact hterminal h
  | set members => exact hterminal h
  | sequence items => exact Each.skips (hR c) h
  | choice items => exact First.skips (hR c) h
  | optional e =>
      obtain ⟨o', htell, rfl⟩ := h
      filter_upwards [hoperand c e p o' rfl htell] with nesting hrun
      simp only [FastPath.matchShape, hrun]
      cases o' <;> rfl
  | zeroMore e =>
      obtain ⟨count, f, hmany, rfl⟩ := h
      filter_upwards [hmany.skips (fun q o => hoperand c e q o rfl) hp] with nesting hrun
      simp only [FastPath.matchShape, hrun _ (Nat.lt_succ_self _)]
      rfl
  | oneMore e =>
      obtain ⟨count, f, hmany, rfl⟩ := h
      cases hmany with
      | fail hfail =>
          filter_upwards [hoperand c e p none rfl hfail] with nesting hrun
          simp only [FastPath.matchShape, hrun]
          rfl
      | @stay _ f hfound hstay =>
          -- what stays in place is nullable
          have hnullable := ((hoperand c e p (some f) rfl hfound).within hp).nullable hstay
          exact absurd (Grammar.derives_iff.mp hnullable) (hsolid e rfl)
      | @next _ count f f' hfound _ hrest =>
          have hwithin := (hoperand c e p (some f) rfl hfound).within hp
          filter_upwards [hoperand c e p (some f) rfl hfound,
            hrest.skips (fun q o => hoperand c e q o rfl) hwithin.stop] with nesting hrun hrepeat
          have hmore := hrepeat (text.length - f.stop + 1) (Nat.lt_succ_self _)
          simp only [FastPath.matchShape, hrun]
          exact (congrArg (some <$> ·) hmore).trans rfl
  | lookahead e =>
      obtain ⟨o', htell, rfl⟩ := h
      filter_upwards [hoperand c e p o' rfl htell] with nesting hrun
      simp only [FastPath.matchShape, hrun]
      cases o' <;> rfl
  | not e =>
      obtain ⟨o', htell, rfl⟩ := h
      filter_upwards [hoperand _ e p o' rfl htell] with nesting hrun
      simp only [FastPath.matchShape, hrun]
      cases o' <;> rfl
  | capture e mode =>
      obtain ⟨o', htell, rfl⟩ := h
      filter_upwards [hoperand c e p o' rfl htell] with nesting hrun
      rw [FastPath.matchShape, hrun, Option.map_map]
      rfl
  | minPrecedence e floor => exact hoperand _ e p o rfl h
  | token | leftRecursive | cluster | reference | custom => cases hfast

/-! ## The engine -/

/-- A shape with a fast path is plain. -/
theorem Shape.isPlain_of_hasFastPath {s : Shape ExprId} (h : s.hasFastPath = true) :
    s.isPlain = true := by
  cases s <;> first | rfl | cases h

/-- Below `root`, matches end where fast matches do. -/
def Grammar.SkipsBelow (g : Grammar) (text : Text) (root id : ExprId) (p : Nat)
    (stop : Option Nat) : Prop :=
  ReflTransGen g.Child root id → g.SkipsTo text id p stop

theorem sustains_skipsBelow {root : ExprId} (hculprit : g.fastPathCulprit root = .ok none)
    (hsolid : ∀ id operand, ReflTransGen g.Child root id →
      g.shape? id = some (.oneMore operand) → ¬ g.Derivable operand) (config : Config) :
    Sustains g text config (g.SkipsBelow text root) fun _ _ => True where
  stored := fun _ _ _ _ _ => trivial
  shape := by
    intro call call' id s m hs hcall hready hkeeps hinside
    by_cases hreach : ReflTransGen g.Child root id
    · obtain ⟨s', hs', hfast⟩ := Grammar.fastPath_of_culprit hculprit hreach
      obtain rfl : s' = s := Option.some.inj (hs'.symm.trans hs)
      refine (dispatch_told ⟨g, text, config⟩ hcall hready hkeeps hinside.position id
        (Shape.isPlain_of_hasFastPath hfast) (hinside.asks s')).imp fun b m' hleaves =>
          hleaves.imp fun o hfinds _ => .of_shape hs (hfinds.skips ?_ ?_ hfast hinside.position)
      · intro c i hi q o' htell
        have hskips := htell.2 (hreach.tail ⟨s', hs, hi⟩)
        exact hskips
      · rintro operand rfl
        exact hsolid id operand hreach hs
    · exact (dispatch_within hcall hready hkeeps hinside config id s).imp fun b m' hleaves =>
        hleaves.imp fun o _ hbelow => absurd hbelow hreach

/-- Of an expression below which everything has a fast path and nothing nullable is repeated at least
    once, a fast match does what the engine does, wherever a parse can get to: if the match of the
    engine answers, so does the fast match, it matches if the engine does, and it ends there.  What
    is nullable is what can be derived to be: that is what the analysis finds. -/
theorem Parser.Reaches.skip_agrees {parser : Parser} {m m' : Machine} {nesting : Nat} {b : Bool}
    (hreach : parser.Reaches text m) (hsettled : m.state.Settled)
    (hculprit : parser.grammar.fastPathCulprit id = .ok none)
    (hsolid : ∀ x operand, ReflTransGen parser.grammar.Child id x →
      parser.grammar.shape? x = some (.oneMore operand) → ¬ parser.grammar.Derivable operand)
    (hrun : invoke (parser.setting text) nesting id m = .ok b m') :
    parser.grammar.skip text id m.state.stop = .ok (if b then some m'.state.stop else none) := by
  have hsustains : Sustains parser.grammar text parser.config _ _ :=
    sustains_skipsBelow hculprit hsolid parser.config
  obtain ⟨hmemo, hcanonical, hkeeps, hinside⟩ := hreach.within hsustains
  obtain ⟨⟨-, -, hskips⟩, -⟩ := ((invoke_within hsustains nesting).asked
    ⟨hsettled, hcanonical, hmemo⟩ hkeeps hinside).answer hrun
  have hstop : (m.state.outcome b m'.state).map Found.stop =
      if b then some m'.state.stop else none := by
    cases b <;> rfl
  rw [← hstop]
  exact (hskips .refl).skip

/-- A parser for nested lists of numbers that memoizes everything. -/
def nestedMemoized : Parser :=
  { grammar := nested, root := 0, config := { memoization := .all } }

/-- Only digits are repeated at least once. -/
theorem solid_nested {id operand : ExprId} (h : nested.shape? id = some (.oneMore operand)) :
    ¬ nested.Derivable operand := by
  obtain ⟨expr, hnode, hshape⟩ := Option.map_eq_some_iff.mp h
  have honly : ∀ expr ∈ nested.nodes, expr.shape = .oneMore operand → operand = 13 := by
    simp +contextual [nested, Expr.ofShape]
  obtain rfl := honly expr (Array.mem_of_getElem? hnode) hshape
  exact Grammar.not_derivable_no rfl

theorem skip_agrees_nested :
    nestedMemoized.Reaches (.ofString "12 ") (.initial nestedMemoized.config) ∧
      nested.fastPathCulprit 11 = .ok none ∧ ∃ m',
        invoke (nestedMemoized.setting (.ofString "12 ")) 9 11 (.initial nestedMemoized.config) =
          .ok true m' ∧ m'.state.stop = 2 ∧ nested.skip (.ofString "12 ") 11 0 = .ok (some 2) := by
  have hreach : nestedMemoized.Reaches (.ofString "12 ") (.initial nestedMemoized.config) :=
    .begun .root
  have hculprit : nested.fastPathCulprit 11 = .ok none := by decide +kernel
  obtain ⟨m', hrun, hstop⟩ := exists_of_answer (a := true) (f := fun m => m.state.stop) (v := 2)
    (x := invoke (nestedMemoized.setting (.ofString "12 ")) 9 11 (.initial nestedMemoized.config))
    (by decide +kernel)
  have hskip := hreach.skip_agrees (settled_initial _) hculprit (fun _ _ _ => solid_nested) hrun
  exact ⟨hreach, hculprit, m', hrun, hstop, hstop ▸ hskip⟩

end Packrat
