import Packrat.Proofs.Protocol.Inheritance
import Packrat.Proofs.Protocol.Invocation

/-! # Matches end in the text

    Wherever a match begins in the text, it ends in the text and not before it began, whatever the
    expression is.  Custom expressions included: their programs move ahead only.  What is not in the
    program is handed in, the seeds and the outcomes that are kept; so they have to be bounded like
    that too (`Inside`), and what a match leaves behind is.

    Other facts about where matches end and about what is kept may be proved along with the bounds
    (`Sustains`). -/

namespace Packrat

open Matching Engine

/-- A seed or a kept outcome of a position ends in the text and not before the position. -/
def Bounded (text : Text) (p : Nat) (o : Option Changes) : Prop :=
  ∀ c, o = some c → c.found.Within text p true

theorem bounded_none (text : Text) (p : Nat) : Bounded text p none := by
  rintro c ⟨⟩

/-- Matches end in the text, and something more is known of where they end and of what is kept. -/
def Protocol.within (g : Grammar) (text : Text) (more : ExprId → Nat → Option Nat → Prop)
    (kept : MemoKey Fingerprint → Option Changes → Prop) : Protocol where
  grammar := g
  faults := True
  entry key o := Bounded text key.position o ∧ more key.expr key.position (o.map Changes.stop) ∧
    kept key o
  recorded _ := True
  tell _ id p o := (∀ f, o = some f → f.Within text p true) ∧ more id p (o.map Found.stop)

/-- A match begins in the text, among bounded seeds. -/
structure Inside (text : Text) (c : Scope) (p : Nat) : Prop where
  position : p ≤ text.length
  seeds : ∀ key seed, c.seeds.get? key = some seed → Bounded text key.position seed

variable {g : Grammar} {text : Text} {config : Config} {more : ExprId → Nat → Option Nat → Prop}
variable {kept : MemoKey Fingerprint → Option Changes → Prop}
variable {c c' : Scope} {p q : Nat} {id : ExprId} {seed : Option Changes}
variable {call call' : Caller} {m m' : Machine} {s : Shape ExprId}

namespace Inside

theorem moved (h : Inside text c p) (hq : q ≤ text.length) : Inside text c q :=
  ⟨hq, h.seeds⟩

/-- Seeds are all that a scope matters for. -/
theorem of_get?_eq (h : Inside text c p) (hget : ∀ key, c'.seeds.get? key = c.seeds.get? key) :
    Inside text c' p :=
  ⟨h.position, fun key seed hseed => h.seeds key seed (hget key ▸ hseed)⟩

theorem seeded (h : Inside text c p) (key : SeedKey) (hseed : Bounded text key.position seed)
    (hget : ∀ k, c'.seeds.get? k = if k = key then some seed else c.seeds.get? k) :
    Inside text c' p := by
  refine ⟨h.position, ?_⟩
  intro k seed' hseed'
  rw [hget] at hseed'
  split at hseed'
  · rename_i hk
    cases hseed'
    exact hk ▸ hseed
  · exact h.seeds k seed' hseed'

end Inside

/-- The shape of an expression has the further property if its children have it, and what a match of
    a shape came to may be kept. -/
structure Sustains (g : Grammar) (text : Text) (config : Config)
    (more : ExprId → Nat → Option Nat → Prop) (kept : MemoKey Fingerprint → Option Changes → Prop) :
    Prop where
  shape {call call' : Caller} {id : ExprId} {s : Shape ExprId} {m : Machine} : g.shape? id = some s →
    (Protocol.within g text more kept).Serves (fun c _ p => Inside text c p) call call' →
    Ready g m → (Protocol.within g text more kept).Keeps m →
    Inside text m.state.scope m.state.stop →
    Twins m (fun _ => True) (dispatch ⟨g, text, config⟩ call id s)
      (dispatch ⟨g, text, config⟩ call' id s)
      ((Protocol.within g text more kept).Leaves
        (fun o => more id m.state.stop (o.map Found.stop)) m)
  stored {nesting : Nat} {id : ExprId} {expr : Expr} {m m' : Machine} {b : Bool} :
    g.node? id = some expr → Ready g m → (Protocol.within g text more kept).Keeps m →
    Inside text m.state.scope m.state.stop →
    dispatch ⟨g, text, config⟩ (invoke ⟨g, text, config⟩ nesting) id expr.shape m = .ok b m' →
    kept (keyAt m.state id) (outcomeOf b m'.state)

/-! ## Forms -/

section Forms

variable (hcall : (Protocol.within g text more kept).Serves (fun c _ p => Inside text c p) call call')
  (hready : Ready g m) (hkeeps : (Protocol.within g text more kept).Keeps m)
  (hinside : Inside text m.state.scope m.state.stop)

theorem Protocol.tell_within {i : ExprId} {f : Found}
    (h : (Protocol.within g text more kept).tell c i p (some f)) : f.Within text p true :=
  h.1 f rfl

theorem Bounded.within (h : Bounded text p seed) (f : Found)
    (hf : seed.map Changes.found = some f) : f.Within text p true := by
  obtain ⟨changes, rfl, rfl⟩ := Option.map_eq_some_iff.mp hf
  exact h changes rfl

theorem bareSeed_within (seed : Option Changes) :
    Growth.BareSeed (.within g text more kept) seed :=
  fun _ _ => Or.inl trivial

/-- What is told inside is in the text, and every form hands that on. -/
theorem Protocol.handsOn_within :
    (Protocol.within g text more kept).HandsOn (fun c _ p => Inside text c p) text
      fun p f => f.Within text p true where
  faults := trivial
  told h := Protocol.tell_within h
  amid h := ⟨h.position, fun key changes hseed => h.seeds key _ hseed changes rfl⟩
  onward _ _ h := ⟨h.position, fun key _ hseed changes hc => h.seeds key changes (hc ▸ hseed)⟩

/-- Any shape may be matched inside. -/
theorem Inside.asks (h : Inside text c p) (s : Shape ExprId) :
    (Protocol.within g text more kept).Asks (fun c _ q => Inside text c q) g text c p s :=
  Protocol.handsOn_within.asks (inherited_within text) g 0 h s fun _ _ => ⟨h.position, h.seeds⟩

include hcall hready hkeeps hinside

/-- Every shape ends in the text if its children do. -/
theorem dispatch_within (config : Config) (id : ExprId) (s : Shape ExprId) :
    Twins m (fun _ => True) (dispatch ⟨g, text, config⟩ call id s)
      (dispatch ⟨g, text, config⟩ call' id s)
      ((Protocol.within g text more kept).Leaves
        (fun o => ∀ f, o = some f → f.Within text m.state.stop true) m) :=
  Protocol.handsOn_within.dispatch (inherited_within text) hcall hready hkeeps hinside g config s
    fun _ _ => ⟨hinside.position, hinside.seeds⟩

end Forms

/-! ## The entry point -/

/-- The bounds alone, with whatever is kept of the matches. -/
theorem sustains_bounds
    (hstored : ∀ {nesting : Nat} {id : ExprId} {expr : Expr} {m m' : Machine} {b : Bool},
      g.node? id = some expr → Ready g m →
      (Protocol.within g text (fun _ _ _ => True) kept).Keeps m →
      Inside text m.state.scope m.state.stop →
      dispatch ⟨g, text, config⟩ (invoke ⟨g, text, config⟩ nesting) id expr.shape m = .ok b m' →
      kept (keyAt m.state id) (outcomeOf b m'.state)) :
    Sustains g text config (fun _ _ _ => True) kept where
  shape := fun _ hcall hready hkeeps hinside =>
    (dispatch_within hcall hready hkeeps hinside config _ _).imp
      fun _ _ hleaves => hleaves.imp fun _ _ => trivial
  stored := hstored

/-- Whoever keeps to the bounds and more keeps to the bounds. -/
theorem Protocol.Keeps.bounds (h : (Protocol.within g text more kept).Keeps m) :
    (Protocol.within g text (fun _ _ _ => True) fun _ _ => True).Keeps m :=
  ⟨Or.inl trivial, fun key o hheld => ⟨(h.memo key o hheld).1, trivial, trivial⟩, trivial⟩

theorem attempt_within (hsustains : Sustains g text config more kept) {nesting : Nat}
    (hcall : (Protocol.within g text more kept).Serves (fun c _ p => Inside text c p)
      (invoke ⟨g, text, config⟩ nesting) call')
    (hready : Ready g m) (hkeeps : (Protocol.within g text more kept).Keeps m)
    (hinside : Inside text m.state.scope m.state.stop) (id : ExprId) :
    Twins m (fun _ => True) (attempt ⟨g, text, config⟩ (invoke ⟨g, text, config⟩ nesting) id)
      (attempt ⟨g, text, config⟩ call' id)
      ((Protocol.within g text more kept).Leaves
        ((Protocol.within g text more kept).tell m.state.scope id m.state.stop) m) := by
  have hrecalls : (Protocol.within g text more kept).Recalls ⟨g, text, config⟩ m.state id :=
    { grammar := rfl
      steps := Or.inl trivial
      node := Or.inl trivial
      held := by
        rintro o ⟨hbounded, hheld, -⟩
        refine ⟨bareSeed_within o, hbounded.within, ?_⟩
        rw [Option.map_map]
        exact hheld
      record := fun _ _ _ => trivial }
  refine Protocol.attempt_recalled hcall.obeys hrecalls ?_ hready hkeeps ?_
  · rintro expr m₁ b m' hnode hstate hready₁ hkeeps₁ - - ⟨hwithin, htold⟩ hrun
    refine ⟨fun changes ho => hwithin _ (by rw [ho]; rfl), ?_, ?_⟩
    · rw [Option.map_map] at htold
      exact htold
    · rw [← hstate] at hinside ⊢
      exact hsustains.stored hnode hready₁ hkeeps₁ hinside hrun
  · intro expr m₁ hnode hstate hready₁ hkeeps₁
    have hinside₁ : Inside text m₁.state.scope m₁.state.stop := hstate ▸ hinside
    have hbounds := dispatch_within hcall hready₁ hkeeps₁ hinside₁ config id expr.shape
    refine (hbounds.and (hsustains.shape (Grammar.shape?_of_node? hnode) hcall hready₁ hkeeps₁
      hinside₁)).imp ?_
    rintro b m' ⟨hleaves, hleaves'⟩
    exact ⟨hleaves.keeps, hleaves.outcome, hleaves'.outcome⟩

theorem invoke_within (hsustains : Sustains g text config more kept) (nesting : Nat) :
    (Protocol.within g text more kept).Serves (fun c _ p => Inside text c p)
      (invoke ⟨g, text, config⟩ nesting) (invoke ⟨g, text, config⟩ nesting) :=
  Protocol.serves_invoke ⟨g, text, config⟩ (fun _ c _ p => Inside text c p) rfl
    (fun _ _ _ _ => trivial)
    (fun _ ih id _ hready hkeeps hinside => attempt_within hsustains ih hready hkeeps hinside id)
    nesting

/-! ## Machines of a parse -/

/-- Machines that a parse gets to, with any expressions matched on the way and with moves ahead: it
    begins a match there, a match has ended there, or the uncommitted view was taken over. -/
inductive Parser.Reaches (p : Parser) (text : Text) : Machine → Prop where
  | begun {nesting : Nat} {id : ExprId} {m : Machine} :
      p.Performs text nesting id m → p.Reaches text m
  | ended {nesting : Nat} {id : ExprId} {m m' : Machine} {b : Bool} : p.Reaches text m →
      m.state.Settled → invoke (p.setting text) nesting id m = .ok b m' → p.Reaches text m'
  | moved {m : Machine} {target : Nat} : p.Reaches text m → m.state.stop ≤ target →
      target ≤ text.length → p.Reaches text (m.withState (m.state.moveTo target))
  | committed {m : Machine} : p.Reaches text m → m.state.countersFit = true →
      p.Reaches text (m.withState m.state.commit)

section Parser

variable {parser : Parser} (hsustains : Sustains parser.grammar text parser.config more kept)
include hsustains

theorem Parser.Performs.within {nesting : Nat} (h : parser.Performs text nesting id m) :
    Ready parser.grammar m ∧ (Protocol.within parser.grammar text more kept).Keeps m ∧
      Inside text m.state.scope m.state.stop := by
  induction h with
  | root =>
      refine ⟨ready_initial _ _, Protocol.keeps_initial _ trivial, Nat.zero_le _, ?_⟩
      intro key seed hseed
      cases hseed
  | @child nesting id child m m' _ hasks ih =>
      obtain ⟨hready, hkeeps, hinside⟩ := ih
      refine (invoke_within hsustains nesting).of_asks hasks fun other hother => ?_
      exact (attempt_within hsustains hother hready hkeeps hinside id).same

/-- What holds of every machine that a parse gets to. -/
theorem Parser.Reaches.within (h : parser.Reaches text m) :
    PredicatesIdle parser.grammar m.memo ∧ m.state.scope.Canonical ∧
      (Protocol.within parser.grammar text more kept).Keeps m ∧
      Inside text m.state.scope m.state.stop := by
  induction h with
  | begun hperforms =>
      obtain ⟨hready, hkeeps, hinside⟩ := hperforms.within hsustains
      exact ⟨hready.memo, hready.canonical, hkeeps, hinside⟩
  | @ended nesting id m m' b _ hsettled hrun ih =>
      obtain ⟨hmemo, hcanonical, hkeeps, hinside⟩ := ih
      obtain ⟨⟨hkeeps', htell⟩, hmemo', hanswer⟩ := ((invoke_within hsustains nesting).asked
        ⟨hsettled, hcanonical, hmemo⟩ hkeeps hinside).answer hrun
      have hscope : m'.state.scope = m.state.scope := hanswer.grown.scope
      refine ⟨hmemo', hscope ▸ hcanonical, hkeeps', ?_⟩
      rw [hscope]
      refine hinside.moved ?_
      cases b with
      | false =>
          have heq : m'.state = m.state := hanswer
          rw [heq]
          exact hinside.position
      | true => exact (Protocol.tell_within htell).stop
  | moved _ _ hlast ih =>
      obtain ⟨hmemo, hcanonical, hkeeps, hinside⟩ := ih
      exact ⟨hmemo, hcanonical, hkeeps.withState (Or.inl trivial), hinside.moved hlast⟩
  | committed _ _ ih =>
      obtain ⟨hmemo, hcanonical, hkeeps, hinside⟩ := ih
      exact ⟨hmemo, hcanonical, hkeeps.withState (Or.inl trivial), hinside⟩

end Parser

end Packrat
