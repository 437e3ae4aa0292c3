import Packrat.Proofs.Termination.Skipping
import Packrat.Proofs.Protocol.Growth

/-! # What plain shapes tell

    Boundaries and custom expressions apart, what a shape finds is a matter of what its children
    find: of which ones, where, and in which scope (`Shape.Finds`).  Programs that match children do
    so through callers that tell what a protocol says, provided that the children may be asked for
    there (`Protocol.Asks`).  Then a shape finds what it finds of what the protocol tells
    (`dispatch_told`). -/

namespace Packrat

open Matching Engine

/-- Whether there are rules for a shape, or it is matched by a fault. -/
def Shape.isPlain {α : Type} : Shape α → Bool
  | .leftRecursive _ _ | .cluster _ | .custom _ _ => false
  | _ => true

/-- The scope in which a negation matches its operand. -/
def Scope.quiet (c : Scope) : Scope :=
  { c with recording := false }

/-- The scope in which a reset of precedences matches its operand. -/
def Scope.reset (c : Scope) (floor : Precedence) : Scope :=
  { c with seeds := c.seeds.unblockAll, floors := .uniform floor }

/-- What a plain shape finds at `p` in the scope `c`, if its children find what `R` says. -/
def Shape.Finds (R : Scope → ExprId → Nat → Option Found → Prop) (g : Grammar) (text : Text)
    (c : Scope) (p : Nat) : Shape ExprId → Option Found → Prop
  | .literal l, o => o = (text.matchLiteral p l).map Found.nothing
  | .any, o => o = (text.matchOne p fun _ => true).map Found.nothing
  | .range lo hi, o => o = (text.matchOne p fun d => lo ≤ d && d ≤ hi).map Found.nothing
  | .set members, o => o = (text.matchOne p members.contains).map Found.nothing
  | .sequence items, o => Each (R c) items p o
  | .choice items, o => First (R c) items p o
  | .optional e, o => ∃ o', R c e p o' ∧ o = some (o'.getD (.nothing p))
  | .zeroMore e, o => ∃ count f, Many (R c) e p count f ∧ o = some f
  | .oneMore e, o => ∃ count f, Many (R c) e p count f ∧ o = if count < 1 then none else some f
  | .lookahead e, o => ∃ o', R c e p o' ∧ o = o'.map fun _ => .nothing p
  | .not e, o => ∃ o', R c.quiet e p o' ∧ o = if o'.isSome then none else some (.nothing p)
  | .token e, o => R c e p none ∧ o = none ∨ ∃ f, R c e p (some f) ∧ Combinators.Skips g text f o
  | .capture e mode, o => ∃ o', R c e p o' ∧ o = o'.map fun f => { f with nodes := mode.close text p f }
  | .minPrecedence e floor, o => R (c.reset floor) e p o
  | .leftRecursive _ _, _ | .cluster _, _ | .reference _, _ | .custom _ _, _ => False

/-- What may be asked for wherever a plain shape asks for its children. -/
def Protocol.Asks (π : Protocol) (ask : Scope → ExprId → Nat → Prop) (g : Grammar) (text : Text)
    (c : Scope) (p : Nat) : Shape ExprId → Prop
  | .sequence items => AskEach (π.tell c) (ask c) items p
  | .choice items => ∀ i ∈ items, ask c i p
  | .zeroMore e | .oneMore e => Combinators.Repeats π ask c e p text.length
  | .optional e | .lookahead e | .capture e _ => ask c e p
  | .not e => ask c.quiet e p
  | .token e => ask c e p ∧ ∀ f ws, g.whitespace = some ws → π.tell c e p (some f) →
      π.faults ∨ ∃ stop, g.skip text ws f.stop = .ok stop
  | .minPrecedence e floor => ask (c.reset floor) e p
  | .reference _ => π.faults
  | _ => True

section Dispatch

variable {π : Protocol} {ask : Scope → ExprId → Nat → Prop} {call call' : Caller} {m : Machine}
variable {s : Shape ExprId}

/-- A plain shape finds what it finds of what the protocol tells. -/
theorem dispatch_told (setting : Setting) (hcall : π.Serves ask call call')
    (hready : Ready π.grammar m) (hkeeps : π.Keeps m) (hp : m.state.stop ≤ setting.text.length)
    (id : ExprId) (hplain : s.isPlain = true)
    (hasks : π.Asks ask setting.grammar setting.text m.state.scope m.state.stop s) :
    Twins m (fun _ => π.faults) (dispatch setting call id s) (dispatch setting call' id s)
      (π.Leaves (s.Finds π.tell setting.grammar setting.text m.state.scope m.state.stop) m) := by
  refine Twins.state_bind ?_
  cases s with
  | literal l => exact Combinators.terminal_told hkeeps _
  | any => exact Combinators.terminal_told hkeeps _
  | range lo hi => exact Combinators.terminal_told hkeeps _
  | set members => exact Combinators.terminal_told hkeeps _
  | sequence items => exact Combinators.sequence_told hcall items hready hkeeps hasks
  | choice items => exact Combinators.choice_told hcall items hready hkeeps hasks
  | optional e => exact Combinators.optional_told hcall e hready hkeeps hasks
  | zeroMore e =>
      refine (Combinators.repetition_told hcall le_rfl 0 e hready hkeeps hasks hp).imp
        fun b m' hleaves => hleaves.imp ?_
      rintro o ⟨count, f, hmany, rfl⟩
      exact ⟨count, f, hmany, if_neg (Nat.not_lt_zero count)⟩
  | oneMore e => exact Combinators.repetition_told hcall le_rfl 1 e hready hkeeps hasks hp
  | lookahead e => exact Combinators.lookahead_told hcall e hready hkeeps hasks
  | not e => exact Combinators.negation_told hcall e hready hkeeps hasks
  | token e => exact Combinators.token_told hcall e hready hkeeps hasks.1 hasks.2
  | capture e mode =>
      exact Combinators.capture_told hcall setting.text e mode hready hkeeps hasks
  | minPrecedence e floor => exact Growth.minPrecedence_told hcall e floor hready hkeeps hasks
  | reference name => exact Twins.throw hasks
  | leftRecursive | cluster | custom => cases hplain

end Dispatch

/-! ## Where plain shapes end -/

variable {π : Protocol} {ask : Scope → ExprId → Nat → Prop} {g : Grammar} {text : Text} {c : Scope}
variable {R : Scope → ExprId → Nat → Option Found → Prop} {p : Nat} {s : Shape ExprId}

/-- Every item may be asked for, if it may be asked for anywhere from the first on. -/
theorem AskEach.of_forall {R : ExprId → Nat → Option Found → Prop} {ask : ExprId → Nat → Prop}
    {items : List ExprId} {last : Nat} (hp : p ≤ last)
    (hask : ∀ i ∈ items, ∀ q, p ≤ q → q ≤ last → ask i q)
    (hbounds : ∀ i ∈ items, ∀ q f, p ≤ q → q ≤ last → R i q (some f) →
      q ≤ f.stop ∧ f.stop ≤ last) : AskEach R ask items p := by
  induction items generalizing p with
  | nil => trivial
  | cons item rest ih =>
      refine ⟨hask item (List.mem_cons_self ..) p le_rfl hp, fun f hf => ?_⟩
      obtain ⟨hforward, hstop⟩ := hbounds item (List.mem_cons_self ..) p f le_rfl hp hf
      exact ih hstop (fun i hi q hq => hask i (List.mem_cons_of_mem _ hi) q (hforward.trans hq))
        fun i hi q f hq => hbounds i (List.mem_cons_of_mem _ hi) q f (hforward.trans hq)

/-- A plain shape may be matched if its children may be asked for anywhere in the text from there on,
    in the scopes that it matches them in, and faults are of no concern. -/
theorem Protocol.asks_of_forall (hfaults : π.faults) (hp : p ≤ text.length)
    (hask : ∀ i q, i ∈ s.children → p ≤ q → q ≤ text.length → ask c i q)
    (hquiet : ∀ e, s = .not e → ask c.quiet e p)
    (hreset : ∀ e floor, s = .minPrecedence e floor → ask (c.reset floor) e p)
    (hbounds : ∀ i q f, i ∈ s.children → p ≤ q → q ≤ text.length → π.tell c i q (some f) →
      q ≤ f.stop ∧ f.stop ≤ text.length) : π.Asks ask g text c p s := by
  have honly : ∀ e, s.children = [e] → e ∈ s.children :=
    fun e h => h ▸ List.mem_singleton_self e
  cases s with
  | sequence items =>
      exact AskEach.of_forall hp (fun i hi q => hask i q hi) fun i hi q f => hbounds i q f hi
  | choice items => exact fun i hi => hask i p hi le_rfl hp
  | zeroMore e | oneMore e =>
      exact ⟨fun q => hask e q (honly e rfl), fun q f => hbounds e q f (honly e rfl)⟩
  | optional e | lookahead e | capture e mode => exact hask e p (honly e rfl) le_rfl hp
  | not e => exact hquiet e rfl
  | token e => exact ⟨hask e p (honly e rfl) le_rfl hp, fun _ _ _ _ => Or.inl hfaults⟩
  | minPrecedence e floor => exact hreset e floor rfl
  | reference name => exact hfaults
  | literal | any | range | set | leftRecursive | cluster | custom => trivial

/-- What a plain shape finds is in the text, and farther on unless it is nullable, if that is so of
    its children. -/
theorem Shape.Finds.within {o : Option Found} {f : Found} (h : s.Finds R g text c p o)
    (nullable : ExprId → Bool) (hp : p ≤ text.length)
    (hR : ∀ c i q f, q ≤ text.length → R c i q (some f) → f.Within text q (nullable i))
    (ho : o = some f) : f.Within text p (s.strategy.holds nullable) := by
  -- what a terminal finds is what the rules say
  have hterminal : ∀ {stop : Option Nat}, Peg g text s p (stop.map Found.nothing) →
      o = stop.map Found.nothing → f.Within text p (s.strategy.holds g.derives) :=
    fun hpeg hstop => hpeg.bounds g.solves_derives hp (hstop ▸ ho)
  cases s with
  | literal l =>
      refine (hterminal (peg_literal g text l p) h).imp ?_
      rw [Shape.strategy]
      split <;> exact id
  | any => exact hterminal (peg_any g text p) h
  | range lo hi => exact hterminal (peg_range g text lo hi p) h
  | set members => exact hterminal (peg_set g text members p) h
  | sequence items => exact Each.within (hR c) h hp ho
  | choice items => exact First.within (hR c) h hp ho
  | optional e =>
      obtain ⟨o', htell, rfl⟩ := h
      cases ho
      cases o' with
      | none => exact .nothing hp
      | some f' => exact (hR c e p f' hp htell).imp fun _ => rfl
  | zeroMore e =>
      obtain ⟨count, f', hmany, rfl⟩ := h
      cases ho
      refine (hmany.within (fun q f hq hf => ?_) hp).imp fun _ => rfl
      exact ⟨(hR c e q f hq hf).forward, (hR c e q f hq hf).stop⟩
  | oneMore e =>
      obtain ⟨count, f', hmany, rfl⟩ := h
      split at ho
      · cases ho
      · rename_i hcount
        cases ho
        refine (hmany.within (fun q f hq hf => ?_) hp).imp fun hzero => ?_
        · exact ⟨(hR c e q f hq hf).forward, (hR c e q f hq hf).stop⟩
        · rw [of_decide_eq_true hzero] at hcount
          exact absurd Nat.zero_lt_one hcount
  | lookahead e =>
      obtain ⟨o', -, rfl⟩ := h
      obtain ⟨f', -, rfl⟩ := Option.map_eq_some_iff.mp ho
      exact .nothing hp
  | not e =>
      obtain ⟨o', -, rfl⟩ := h
      split at ho
      · cases ho
      · cases ho
        exact .nothing hp
  | token e =>
      rcases h with ⟨-, rfl⟩ | ⟨f', htell, hskips⟩
      · cases ho
      · have hfound := hR c e p f' hp htell
        rw [Combinators.Skips] at hskips
        cases hws : g.whitespace with
        | none =>
            simp only [hws] at hskips
            cases hskips.symm.trans ho
            exact hfound
        | some ws =>
            simp only [hws] at hskips
            obtain ⟨stop, hskip, rfl⟩ := hskips
            cases ho
            cases stop with
            | none => exact hfound
            | some stop =>
                have hblank := FastPath.skipWithin_bounds g.solves_derives _ ws f'.stop stop
                  hfound.stop hskip
                exact ((hfound.append hblank).withNodes f'.nodes).imp fun hboth =>
                  (Bool.and_eq_true_iff.mp hboth).1
  | capture e mode =>
      obtain ⟨o', htell, rfl⟩ := h
      obtain ⟨f', rfl, rfl⟩ := Option.map_eq_some_iff.mp ho
      exact (hR c e p f' hp htell).withNodes _
  | minPrecedence e floor =>
      cases ho
      exact hR _ e p f hp h
  | leftRecursive | cluster | reference | custom => cases h

end Packrat
