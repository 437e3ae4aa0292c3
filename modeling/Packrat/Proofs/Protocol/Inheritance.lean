import Packrat.Proofs.Protocol.Outcomes
import Packrat.Proofs.Protocol.Programs
import Packrat.Proofs.Protocol.Shapes

/-! # What forms hand on

    Some properties of what is found at a position come of how it was put together: of matches one
    after the other, of moves ahead, of captures closed around what was found (`Inherited`).  If all
    that children tell has such a property, and every seed has it at the position of its key, then
    so has all that a form finds, boundaries and custom expressions included.  What a match keeps is
    what it found, so a parse hands the property on from its start (`Inherited.serves`). -/

namespace Packrat

open Matching Engine

/-- A property of what is found at a position that every way to put matches together hands on. -/
structure Inherited (text : Text) (P : Nat → Found → Prop) : Prop where
  within {p : Nat} {f : Found} : P p f → f.Within text p true
  nothing {p : Nat} : p ≤ text.length → P p (.nothing p)
  append {p : Nat} {f f' : Found} : P p f → P f.stop f' → P p (f.append f')
  moved {p q : Nat} {f : Found} : P p f → f.stop ≤ q → q ≤ text.length → P p { f with stop := q }
  closed (mode : CaptureMode) {p : Nat} {f : Found} : P p f →
    P p { f with nodes := mode.close text p f }

/-- Bounds are handed on. -/
theorem inherited_within (text : Text) : Inherited text fun p f => f.Within text p true where
  within h := h
  nothing hp := .nothing hp
  append h h' := h.append h'
  moved h hle hlast := ⟨h.forward.trans hle, hlast, fun _ => rfl⟩
  closed mode _ f h := h.withNodes (mode.close _ _ f)

/-- A match begins in the text, among seeds with the property. -/
structure Amid (text : Text) (P : Nat → Found → Prop) (c : Scope) (_id : ExprId) (p : Nat) :
    Prop where
  position : p ≤ text.length
  seeds : ∀ key changes, c.seeds.get? key = some (some changes) → P key.position changes.found

/-- Callers are asked in the text, among seeds with the property, and what they tell has it.  Where
    one expression may be asked for, so may any other, anywhere in the text, as long as failures are
    recorded if they were before. -/
structure Protocol.HandsOn (π : Protocol) (ask : Scope → ExprId → Nat → Prop) (text : Text)
    (P : Nat → Found → Prop) : Prop where
  faults : π.faults
  told {c : Scope} {id : ExprId} {p : Nat} {f : Found} : π.tell c id p (some f) → P p f
  amid {c : Scope} {id : ExprId} {p : Nat} : ask c id p → Amid text P c id p
  onward {c c' : Scope} {id i : ExprId} {p q : Nat} : ask c id p → c'.recording = c.recording →
    Amid text P c' i q → ask c' i q

variable {π : Protocol} {ask : Scope → ExprId → Nat → Prop} {call call' : Caller} {m : Machine}
variable {g : Grammar} {text : Text} {P : Nat → Found → Prop} {p : Nat} {c : Scope}
variable {o : Option Found} {f : Found}

/-! ## Plain shapes -/

section Items

variable {R : ExprId → Nat → Option Found → Prop} {items : List ExprId} {operand : ExprId}

theorem Each.inherits (hP : Inherited text P) (hR : ∀ i q f, R i q (some f) → P q f)
    (h : Each R items p o) (hp : p ≤ text.length) (ho : o = some f) : P p f := by
  induction h generalizing f with
  | nil p =>
      cases ho
      exact hP.nothing hp
  | fail => cases ho
  | next hitem _ ih =>
      obtain ⟨f', rfl, rfl⟩ := Option.map_eq_some_iff.mp ho
      have hfirst := hR _ _ _ hitem
      exact hP.append hfirst (ih (hP.within hfirst).stop rfl)

theorem First.inherits (hR : ∀ i q f, R i q (some f) → P q f) (h : First R items p o)
    (ho : o = some f) : P p f := by
  induction h with
  | nil => cases ho
  | here rest hitem =>
      cases ho
      exact hR _ _ _ hitem
  | next _ _ ih => exact ih ho

theorem Many.inherits (hP : Inherited text P) (hR : ∀ q f, R operand q (some f) → P q f)
    {count : Nat} (h : Many R operand p count f) (hp : p ≤ text.length) : P p f := by
  induction h with
  | fail | stay => exact hP.nothing hp
  | next hfound _ _ ih =>
      have hfirst := hR _ _ hfound
      exact hP.append hfirst (ih (hP.within hfirst).stop)

end Items

/-- What a plain shape finds has the property if what its children find has it. -/
theorem Shape.Finds.inherits {R : Scope → ExprId → Nat → Option Found → Prop} {s : Shape ExprId}
    (hP : Inherited text P) (h : s.Finds R g text c p o) (hp : p ≤ text.length)
    (hR : ∀ c i q f, R c i q (some f) → P q f) (ho : o = some f) : P p f := by
  have hbounds : f.Within text p _ :=
    h.within (fun _ => true) hp (fun c i q f _ htell => hP.within (hR c i q f htell)) ho
  -- a terminal moves ahead and captures nothing
  have hterminal : ∀ {stop : Option Nat}, o = stop.map Found.nothing → P p f := by
    intro stop hstop
    obtain ⟨q, -, rfl⟩ := Option.map_eq_some_iff.mp (hstop.symm.trans ho)
    exact hP.moved (hP.nothing hp) hbounds.forward hbounds.stop
  cases s with
  | literal | any | range | set => exact hterminal h
  | sequence items => exact Each.inherits hP (hR c) h hp ho
  | choice items => exact First.inherits (hR c) h ho
  | optional e =>
      obtain ⟨o', htell, rfl⟩ := h
      cases ho
      cases o' with
      | none => exact hP.nothing hp
      | some f' => exact hR c e p f' htell
  | zeroMore e =>
      obtain ⟨count, f', hmany, rfl⟩ := h
      cases ho
      exact hmany.inherits hP (hR c e) hp
  | oneMore e =>
      obtain ⟨count, f', hmany, rfl⟩ := h
      split at ho
      · cases ho
      · cases ho
        exact hmany.inherits hP (hR c e) hp
  | lookahead e =>
      obtain ⟨o', -, rfl⟩ := h
      obtain ⟨f', -, rfl⟩ := Option.map_eq_some_iff.mp ho
      exact hP.nothing hp
  | not e =>
      obtain ⟨o', -, rfl⟩ := h
      split at ho
      · cases ho
      · cases ho
        exact hP.nothing hp
  | token e =>
      rcases h with ⟨-, rfl⟩ | ⟨f', htell, hskips⟩
      · cases ho
      · have hfound := hR c e p f' htell
        rw [Combinators.Skips] at hskips
        cases hws : g.whitespace with
        | none =>
            simp only [hws] at hskips
            cases hskips.symm.trans ho
            exact hfound
        | some ws =>
            simp only [hws] at hskips
            obtain ⟨stop, hskip, rfl⟩ := hskips
            cases ho
            cases stop with
            | none => exact hfound
            | some stop =>
                have hblank := FastPath.skipWithin_bounds g.solves_derives _ ws f'.stop stop
                  (hP.within hfound).stop hskip
                exact hP.moved hfound hblank.forward hblank.stop
  | capture e mode =>
      obtain ⟨o', htell, rfl⟩ := h
      obtain ⟨f', rfl, rfl⟩ := Option.map_eq_some_iff.mp ho
      exact hP.closed mode (hR c e p f' htell)
  | minPrecedence e floor =>
      cases ho
      exact hR _ e p f h
  | leftRecursive | cluster | reference | custom => cases h

/-! ## All shapes -/

namespace Protocol.HandsOn

section Scopes

variable {id : ExprId} {c' : Scope}

/-- Seeds are all that a scope matters for, and expressions do not matter. -/
theorem of_get?_eq (h : π.HandsOn ask text P) (hask : ask c id p) (i : ExprId) {q : Nat}
    (hq : q ≤ text.length) (hrecording : c'.recording = c.recording)
    (hget : ∀ key, c'.seeds.get? key = c.seeds.get? key) : ask c' i q := by
  refine h.onward hask hrecording ⟨hq, ?_⟩
  intro key changes hseed
  exact (h.amid hask).seeds key changes (hget key ▸ hseed)

theorem seed (h : π.HandsOn ask text P) (hask : ask c id p) {seed : Option Changes} {i : ExprId}
    (hget : c.seeds.get? { expr := i, position := p } = some seed) (f : Found)
    (hf : seed.map Changes.found = some f) : P p f := by
  obtain ⟨changes, rfl, rfl⟩ := Option.map_eq_some_iff.mp hf
  exact (h.amid hask).seeds _ changes hget

theorem seeded (h : π.HandsOn ask text P) (hask : ask c id p) (key : SeedKey) (i : ExprId)
    {seed : Option Changes} (hseed : ∀ f, seed.map Changes.found = some f → P key.position f)
    (hrecording : c'.recording = c.recording)
    (hget : ∀ k, c'.seeds.get? k = if k = key then some seed else c.seeds.get? k) :
    ask c' i p := by
  obtain ⟨hp, hseeds⟩ := h.amid hask
  refine h.onward hask hrecording ⟨hp, ?_⟩
  intro k changes hk
  rw [hget] at hk
  split at hk
  · rename_i heq
    cases hk
    exact heq ▸ hseed _ rfl
  · exact hseeds k changes hk

/-- Any shape may be matched where anything may be. -/
theorem asks (h : π.HandsOn ask text P) (hP : Inherited text P) (g : Grammar) (id : ExprId)
    (hask : ask c id p) (s : Shape ExprId) (hquiet : ∀ e, s = .not e → ask c.quiet e p) :
    π.Asks ask g text c p s :=
  Protocol.asks_of_forall h.faults (h.amid hask).position
    (fun i _ _ _ hq => h.of_get?_eq hask i hq rfl fun _ => rfl) hquiet
    (fun e _ _ => h.of_get?_eq hask e (h.amid hask).position rfl fun _ => rfl)
    fun _ _ _ _ _ _ htell =>
      ⟨(hP.within (h.told htell)).forward, (hP.within (h.told htell)).stop⟩

end Scopes

variable {id : ExprId} (h : π.HandsOn ask text P) (hP : Inherited text P)
  (hcall : π.Serves ask call call') (hready : Ready π.grammar m) (hkeeps : π.Keeps m)
  (hask : ask m.state.scope id m.state.stop)
include h hP hcall hready hkeeps hask

theorem leftRecursive (operand : ExprId) (assoc : Bool) :
    Twins m (fun _ => π.faults) (Growth.leftRecursive call text id operand assoc)
      (Growth.leftRecursive call' text id operand assoc)
      (π.Leaves (fun o => ∀ f, o = some f → P m.state.stop f) m) := by
  have hbare : ∀ seed, Growth.BareSeed π seed := fun _ _ _ => Or.inl h.faults
  have hnone : ∀ f, (none : Option Changes).map Changes.found = some f → P m.state.stop f := by
    rintro f ⟨⟩
  refine Growth.leftRecursive_told hcall le_rfl id operand assoc hready hkeeps rfl ?_ ?_ ?_
  · intro seed hseed
    exact ⟨hbare seed, h.seed hask hseed⟩
  · intro _ _
    refine ⟨h.seeded hask ⟨id, m.state.stop⟩ operand hnone rfl fun k => ?_, ?_⟩
    · rw [Seeds.get?_setBlocked, Seeds.get?_insert]
      rfl
    · rintro o htell f rfl
      exact h.told htell
  · intro _ _
    refine ⟨fun seed => ∀ f, seed.map Changes.found = some f → P m.state.stop f, ⟨?_, ?_, ?_⟩,
      hnone, fun best o hbest _ _ => hbest⟩
    · intro best hbest
      refine h.seeded hask ⟨id, m.state.stop⟩ operand hbest rfl fun k => ?_
      cases assoc with
      | true =>
          simp only [Scope.seeded, if_true, Seeds.get?_insert, Seeds.get?_setBlocked]
          split <;> rfl
      | false =>
          simp only [Scope.seeded, Bool.false_eq_true, if_false, Seeds.get?_insert]
          split <;> rfl
    · intro best f _ htell
      exact ⟨(hP.within (h.told htell)).forward, (hP.within (h.told htell)).stop⟩
    · rintro best changes _ htell _ _ f ⟨⟩
      exact h.told htell

theorem cluster (groups : List (Group ExprId)) :
    Twins m (fun _ => π.faults) (Growth.cluster call text id groups)
      (Growth.cluster call' text id groups)
      (π.Leaves (fun o => ∀ f, o = some f → P m.state.stop f) m) := by
  refine Growth.cluster_told hcall le_rfl id groups hready hkeeps rfl ?_ ?_
  · intro seed hseed
    exact ⟨fun _ _ => Or.inl h.faults, h.seed hask hseed⟩
  · intro _
    refine ⟨fun _ seed => ∀ f, seed.map Changes.found = some f → P m.state.stop f, ?_,
      by rintro f ⟨⟩, fun best hbest => hbest⟩
    intro group rest _
    refine ⟨fun seed hseed => (hP.within (hseed seed.found rfl)).forward, ?_, ?_, ?_,
      fun best hbest _ => hbest⟩
    · intro best hbest i _
      refine h.seeded hask ⟨id, m.state.stop⟩ i hbest rfl fun k => ?_
      simp only [Scope.seeded, Scope.atLevel, Seeds.get?_insert]
    · intro best i f _ _ htell
      exact ⟨(hP.within (h.told htell)).forward, (hP.within (h.told htell)).stop⟩
    · intro best changes _ hclimbs _
      obtain ⟨⟨i, _, htell⟩, -⟩ := hclimbs.surpasses
      have hfound : ∀ f, (some changes).map Changes.found = some f → P m.state.stop f := by
        rintro f ⟨⟩
        exact h.told htell
      split <;> exact hfound

/-- What any shape finds has the property. -/
theorem dispatch (g : Grammar) (config : Config) (s : Shape ExprId)
    (hquiet : ∀ e, s = .not e → ask m.state.scope.quiet e m.state.stop) :
    Twins m (fun _ => π.faults) (dispatch ⟨g, text, config⟩ call id s)
      (dispatch ⟨g, text, config⟩ call' id s)
      (π.Leaves (fun o => ∀ f, o = some f → P m.state.stop f) m) := by
  have hp : m.state.stop ≤ text.length := (h.amid hask).position
  have hplain : s.isPlain = true → Twins m (fun _ => π.faults)
      (Engine.dispatch ⟨g, text, config⟩ call id s) (Engine.dispatch ⟨g, text, config⟩ call' id s)
      (π.Leaves (fun o => ∀ f, o = some f → P m.state.stop f) m) := by
    intro hplain
    refine (dispatch_told ⟨g, text, config⟩ hcall hready hkeeps hp id hplain
      (h.asks hP g id hask s hquiet)).imp fun b m' hleaves => hleaves.imp ?_
    intro o hfinds f hf
    exact hfinds.inherits hP hp (fun _ _ _ _ htell => h.told htell) hf
  cases s with
  | leftRecursive operand assoc =>
      exact Twins.state_bind (h.leftRecursive hP hcall hready hkeeps hask operand assoc)
  | cluster groups => exact Twins.state_bind (h.cluster hP hcall hready hkeeps hask groups)
  | custom spec children =>
      have hroams : Programs.Roams π ask text m.state.scope (P m.state.stop) :=
        { moved := hP.moved
          asked := fun i hf => h.of_get?_eq hask i (hP.within hf).stop rfl fun _ => rfl
          told := fun hf htell => hP.append hf (h.told htell) }
      exact Twins.state_bind (Programs.custom_told hcall h.faults id spec children hready hkeeps
        hroams (hP.nothing hp))
  | _ => exact hplain rfl

end Protocol.HandsOn

/-! ## The entry point -/

/-- All that is found and all that is kept has the property. -/
def Protocol.inheriting (g : Grammar) (P : Nat → Found → Prop) : Protocol where
  grammar := g
  faults := True
  entry key o := ∀ changes, o = some changes → P key.position changes.found
  recorded _ := True
  tell _ _ p o := ∀ f, o = some f → P p f

theorem Protocol.handsOn_inheriting (g : Grammar) (text : Text) (P : Nat → Found → Prop) :
    (Protocol.inheriting g P).HandsOn (Amid text P) text P where
  faults := trivial
  told h := h _ rfl
  amid h := h
  onward _ _ h := h

/-- What was found may be kept, and what is kept was found. -/
theorem Protocol.admits_inheriting (g : Grammar) (P : Nat → Found → Prop) (setting : Setting)
    (hgrammar : setting.grammar = g) (s : ParseState) (id : ExprId) :
    (Protocol.inheriting g P).Admits setting s id := by
  refine Protocol.admits_of_told hgrammar trivial (fun _ => trivial) fun o => ⟨?_, ?_⟩
  · intro hentry f hf
    obtain ⟨changes, rfl, rfl⟩ := Option.map_eq_some_iff.mp hf
    exact hentry changes rfl
  · rintro htell changes rfl
    exact htell changes.found rfl

/-- Matches hand on what forms do. -/
theorem Inherited.serves (hP : Inherited text P) (g : Grammar) (config : Config) (nesting : Nat) :
    (Protocol.inheriting g P).Serves (Amid text P) (invoke ⟨g, text, config⟩ nesting)
      (invoke ⟨g, text, config⟩ nesting) := by
  refine Protocol.serves_of_dispatch ⟨g, text, config⟩ rfl trivial
    (fun id m _ => Protocol.admits_inheriting g P _ rfl m.state id) ?_ nesting
  intro call hcall id expr m _ hready hkeeps hask
  exact (Protocol.handsOn_inheriting g text P).dispatch hP hcall hready hkeeps hask g config
    expr.shape fun _ _ => ⟨hask.position, hask.seeds⟩

/-- A parse that succeeded found something with the property. -/
theorem Inherited.parseWith {config : Config} {source : String} {r : ParseResult}
    (hP : Inherited (.ofString source) P) (h : (parseWith g config source).outcome = .ok r) :
    ∃ o : Option Found, (∀ f, o = some f → P 0 f) ∧ r.Shows (.ofString source) o := by
  obtain ⟨root, hroot⟩ := exists_root_of_parseWith_ok h
  refine (hP.serves g config config.maxDepth).shows rfl (Protocol.keeps_initial config trivial)
    ⟨Nat.zero_le _, ?_⟩ hroot h
  intro key changes hseed
  cases hseed

end Packrat
