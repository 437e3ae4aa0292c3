import Packrat.Proofs.Contract.Combinators
import Packrat.Proofs.SlotContents

/-! # What a match tells, for the plain forms

    A match found where it ends and what it captured, or nothing (`Found`).  A `Protocol` says what
    the match of an expression tells of that, in a scope and at a position.  The forms are programs
    over a `call`; whoever calls keeps to the places where it may ask, and learns what the protocol
    tells.  So there is one lemma for each form: where it asks, and what it tells in turn.

    Faults are of concern or not (`Protocol.faults`).  Where they are, slots are blank, so that no
    transition is refused, and the lemmas say that the form answers.

    A loop is run with a bound on its rounds.  The lemmas compare it with a run for a longer text,
    so that they also say that the bound is never met. -/

namespace Packrat

open Matching

/-! ## What was found -/

/-- Where a match ended and what it captured. -/
structure Found where
  stop : Nat
  nodes : List CaptureNode

namespace Found

/-- A match that stays at a position. -/
def nothing (position : Nat) : Found :=
  { stop := position, nodes := [] }

/-- A match followed by another. -/
def append (f f' : Found) : Found :=
  { stop := f'.stop, nodes := f.nodes ++ f'.nodes }

@[simp] theorem stop_nothing (p : Nat) : (nothing p).stop = p := rfl

@[simp] theorem stop_append (f f' : Found) : (f.append f').stop = f'.stop := rfl

end Found

/-- What changes would have been found. -/
def Changes.found (c : Changes) : Found :=
  { stop := c.stop, nodes := c.captures }

@[simp] theorem Changes.stop_found (c : Changes) : c.found.stop = c.stop := rfl

namespace ParseState

variable {s t u : ParseState}

/-- What was found on the way from `s` to `t`. -/
def since (s t : ParseState) : Found :=
  { stop := t.stop, nodes := t.captures.nodes.drop s.captures.length }

/-- What a match from `s` that ended in `t` found. -/
def outcome (s : ParseState) (matched : Bool) (t : ParseState) : Option Found :=
  if matched then some (s.since t) else none

/-- Moving adds no captures. -/
theorem since_moveTo (s : ParseState) (stop : Nat) : s.since (s.moveTo stop) = .nothing stop := by
  simp [since, moveTo, Found.nothing, CaptureBuffer.length]

theorem since_self (s : ParseState) : s.since s = .nothing s.stop :=
  s.since_moveTo s.stop

/-- What was found in two stretches is what was found in the first and then in the second. -/
theorem since_append (hst : s.captures.nodes <+: t.captures.nodes)
    (htu : t.captures.nodes <+: u.captures.nodes) :
    s.since u = (s.since t).append (t.since u) := by
  obtain ⟨a, ha⟩ := hst
  obtain ⟨b, hb⟩ := htu
  simp [since, Found.append, CaptureBuffer.length, ← hb, ← ha]

/-- An outcome seen from an earlier state is the stretch before it and the outcome. -/
theorem outcome_append (hst : s.captures.nodes <+: t.captures.nodes)
    (htu : t.captures.nodes <+: u.captures.nodes) (b : Bool) :
    s.outcome b u = (t.outcome b u).map (s.since t).append := by
  cases b with
  | true => exact congrArg some (since_append hst htu)
  | false => rfl

/-- Replayed changes are what is found. -/
theorem since_merge (s : ParseState) (c : Changes) : s.since (s.merge c) = c.found := by
  simp [since, merge, Changes.found, CaptureBuffer.merge, CaptureBuffer.length]

/-- What a match from a settled state did is what it found. -/
theorem found_extract (hs : s.Settled) (hst : s.Kept t) : t.extract.found = s.since t := by
  simp only [extract, Changes.found, since, CaptureBuffer.extract, hst.committed, hs.captures]

end ParseState

/-! ## Blank slots -/

/-- The slot is as it was made. -/
def Slot.Blank (slot : Slot) : Prop :=
  ∃ kind, slot = .ofKind kind

namespace Slots

variable {a b : List Slot}

theorem fit_blank (h : ∀ slot ∈ a, slot.Blank) : fit a = true := by
  rw [fit, List.all_eq_true]
  intro slot hslot
  obtain ⟨kind, rfl⟩ := h slot hslot
  cases kind <;> rfl

/-- A slot that nobody writes has nothing to commit. -/
theorem commit_blank (h : ∀ slot ∈ a, slot.Blank) : commit a = a := by
  induction a with
  | nil => rfl
  | cons slot rest ih =>
      obtain ⟨⟨kind, rfl⟩, hrest⟩ := List.forall_mem_cons.mp h
      rw [commit, ih hrest]
      cases kind <;> rfl

/-- Going back past a commit always succeeds on slots that nobody writes. -/
theorem uncommit_blank (hab : List.Forall₂ Slot.Grown a b) (ha : ∀ slot ∈ a, slot.Blank)
    (hb : ∀ slot ∈ b, slot.Blank) :
    marksFit Slot.uncommit? b (a.map Slot.mark) = true ∧ uncommit b (a.map Slot.mark) = b := by
  induction hab with
  | nil => exact ⟨rfl, rfl⟩
  | @cons x y as bs hxy _ ih =>
      obtain ⟨⟨kind, rfl⟩, has⟩ := List.forall_mem_cons.mp ha
      obtain ⟨⟨kind', rfl⟩, hbs⟩ := List.forall_mem_cons.mp hb
      obtain ⟨hfit, hsame⟩ := ih has hbs
      have hback : (Slot.ofKind kind').uncommit? (Slot.ofKind kind).mark
          = some (Slot.ofKind kind') := by
        cases kind <;> cases kind' <;> first | rfl | cases hxy
      simp only [List.map_cons, marksFit, uncommit, withMarks, hback, Option.isSome_some,
        Bool.true_and] at hfit hsame ⊢
      exact ⟨hfit, by rw [hsame]⟩

end Slots

namespace ParseState

variable {s t : ParseState}

/-- Every slot is as it was made. -/
def Blank (s : ParseState) : Prop :=
  ∀ slot ∈ s.slots, slot.Blank

/-- A commit leaves blank slots blank. -/
theorem Blank.commit (h : s.Blank) : s.commit.Blank := by
  intro slot hslot
  exact h slot (Slots.commit_blank h ▸ hslot)

/-- Blank slots never refuse to be uncommitted, and stay blank. -/
theorem Blank.uncommit (hst : s.Grown t) (hs : s.Blank) (ht : t.Blank) :
    t.canUncommit s.snapshot = true ∧ (t.uncommit s.snapshot).Blank := by
  obtain ⟨hfit, hsame⟩ := Slots.uncommit_blank hst.slots hs ht
  refine ⟨hfit, ?_⟩
  intro slot hslot
  exact ht slot (hsame ▸ hslot)

/-- Changes that write no slot can be merged, and leave the slots blank. -/
theorem Blank.merge (h : s.Blank) {c : Changes} (hc : c.Bare) :
    s.canMerge c = true ∧ (s.merge c).Blank := by
  refine ⟨Slots.deltasFit_bare hc, ?_⟩
  have hsame : (s.merge c).slots = s.slots := Slots.merge_none hc
  intro slot hslot
  exact h slot (hsame ▸ hslot)

/-- A blank state has nothing in its slots to extract. -/
theorem Blank.bare_extract (h : s.Blank) : s.extract.Bare := by
  intro d hd
  obtain ⟨slot, hslot, rfl⟩ := List.mem_map.mp hd
  obtain ⟨kind, rfl⟩ := h slot hslot
  cases kind <;> rfl

theorem blank_initial (kinds : List SlotKind) : (ParseState.initial kinds).Blank := by
  intro slot hslot
  obtain ⟨kind, -, rfl⟩ := List.mem_map.mp hslot
  exact ⟨kind, rfl⟩

end ParseState

/-! ## Protocols -/

/-- What the matches of a parse may rely on and have to tell. -/
structure Protocol where
  grammar : Grammar
  /-- Faults are of no concern. -/
  faults : Prop
  /-- What is kept in the memo table. -/
  entry : MemoKey Fingerprint → Option Changes → Prop
  /-- What is kept of failures. -/
  recorded : Failures → Prop
  /-- What a match tells in a scope and at a position. -/
  tell : Scope → ExprId → Nat → Option Found → Prop

namespace Protocol

variable (π : Protocol)

/-- What holds of a machine wherever an expression is matched. -/
structure Keeps (m : Machine) : Prop where
  blank : π.faults ∨ m.state.Blank
  memo : ∀ key o, m.memo.Holds key o → π.entry key o
  recorded : π.recorded m.failures

/-- A form that was matched from `m` found an outcome with the given property. -/
structure Leaves (P : Option Found → Prop) (m : Machine) (matched : Bool) (m' : Machine) :
    Prop where
  keeps : π.Keeps m'
  outcome : P (m.state.outcome matched m'.state)

/-- Both callers keep the contract, agree wherever they may be asked, and tell what the protocol
    says. -/
structure Serves (ask : Scope → ExprId → Nat → Prop) (call call' : Caller) : Prop where
  obeys : Obeys π.grammar call call
  told : ∀ id m, Ready π.grammar m → π.Keeps m → ask m.state.scope id m.state.stop →
    Twins m (fun _ => π.faults) (call id) (call' id)
      (π.Leaves (π.tell m.state.scope id m.state.stop) m)

variable {π} {ask : Scope → ExprId → Nat → Prop} {call call' : Caller} {m m₁ : Machine}

/-- What is kept besides the state is kept when the state changes; of the slots it asks only that
    they are blank unless faults are allowed. -/
theorem Keeps.withState (h : π.Keeps m) {t : ParseState} (ht : π.faults ∨ t.Blank) :
    π.Keeps (m.withState t) :=
  ⟨ht, h.memo, h.recorded⟩

/-- A node that leaves one thing leaves all that follows from it. -/
theorem Leaves.imp {P Q : Option Found → Prop} {b : Bool} {m' : Machine} (h : π.Leaves P m b m')
    (hPQ : ∀ o, P o → Q o) : π.Leaves Q m b m' :=
  ⟨h.keeps, hPQ _ h.outcome⟩

/-- What an expression tells that was matched from a state like that of `m`. -/
theorem Leaves.of_state_eq {P : Option Found → Prop} {b : Bool} {m' : Machine}
    (h : π.Leaves P m₁ b m') (heq : m₁.state = m.state) : π.Leaves P m b m' :=
  ⟨h.keeps, heq ▸ h.outcome⟩

/-- Callers serve as well where less may be asked for. -/
theorem Serves.narrow (h : π.Serves ask call call') {ask' : Scope → ExprId → Nat → Prop}
    (hask : ∀ c id p, ask' c id p → ask c id p) : π.Serves ask' call call' :=
  ⟨h.obeys, fun id m hready hkeeps hasked => h.told id m hready hkeeps (hask _ id _ hasked)⟩

/-- The match of an expression, with its contract. -/
theorem Serves.asked (h : π.Serves ask call call') {id : ExprId} (hready : Ready π.grammar m)
    (hkeeps : π.Keeps m) (hask : ask m.state.scope id m.state.stop) :
    Twins m (fun _ => π.faults) (call id) (call' id) fun b m' =>
      π.Leaves (π.tell m.state.scope id m.state.stop) m b m' ∧ Left π.grammar m b m' :=
  (h.told id m hready hkeeps hask).and (h.obeys id m hready)

/-- The match of an expression in another scope, followed by a clean-up of the scope. -/
theorem Serves.asked_within (h : π.Serves ask call call') {id : ExprId} (hready : Ready π.grammar m)
    (hkeeps : π.Keeps m) {c : Scope} (hc : c.Canonical) (hask : ask c id m.state.stop)
    {u : ParseState → ParseState} (hu : ∀ t : ParseState,
      (u t).stop = t.stop ∧ (u t).captures = t.captures ∧ (u t).slots = t.slots) :
    Twins (m.withState (m.state.withScope c)) (fun _ => π.faults) (thenAlways (call id) u)
      (thenAlways (call' id) u) (π.Leaves (π.tell c id m.state.stop) m) := by
  have hcall := h.told id _ (hready.withScope hc) (hkeeps.withState hkeeps.blank) hask
  refine hcall.thenAlways ?_ (fun _ hfault => hfault)
  rintro b m' ⟨hkeeps', htell⟩
  obtain ⟨hstop, hcaptures, hslots⟩ := hu m'.state
  refine ⟨hkeeps'.withState (hkeeps'.blank.imp_right ?_), ?_⟩
  · intro hblank slot hslot
    exact hblank slot (hslots ▸ hslot)
  · have hsame : m.state.outcome b (u m'.state) = m.state.outcome b m'.state := by
      simp only [ParseState.outcome, ParseState.since, hstop, hcaptures]
    exact hsame ▸ htell

/-- A commit is refused only where faults are of no concern. -/
theorem Keeps.countersFit (h : π.Keeps m) : π.faults ∨ m.state.countersFit = true :=
  h.blank.imp_right Slots.fit_blank

/-- Where faults are ruled out the slots are blank, and blank slots can be uncommitted. -/
theorem Keeps.canUncommit (h : π.Keeps m) (h₁ : π.Keeps m₁) (hgrown : m.state.Grown m₁.state) :
    π.faults ∨ m₁.state.canUncommit m.state.snapshot = true := by
  rcases h.blank with hfaults | hblank
  · exact Or.inl hfaults
  · exact h₁.blank.imp_right fun hblank₁ => (hblank.uncommit hgrown hblank₁).1

theorem Keeps.commit (h : π.Keeps m) : π.Keeps (m.withState m.state.commit) :=
  h.withState (h.blank.imp_right ParseState.Blank.commit)

theorem Keeps.uncommit (h : π.Keeps m) (h₁ : π.Keeps m₁) (hgrown : m.state.Grown m₁.state) :
    π.Keeps (m₁.withState (m₁.state.uncommit m.state.snapshot)) := by
  refine h₁.withState ?_
  rcases h.blank with hfaults | hblank
  · exact Or.inl hfaults
  · exact h₁.blank.imp_right fun hblank₁ => (hblank.uncommit hgrown hblank₁).2

end Protocol

/-! ## What lists of items tell -/

section Items

variable (R : ExprId → Nat → Option Found → Prop)

/-- Items one after the other. -/
inductive Each : List ExprId → Nat → Option Found → Prop where
  | nil (p : Nat) : Each [] p (some (.nothing p))
  | fail {item : ExprId} {p : Nat} (rest : List ExprId) :
      R item p none → Each (item :: rest) p none
  | next {item : ExprId} {rest : List ExprId} {p : Nat} {f : Found} {o : Option Found} :
      R item p (some f) → Each rest f.stop o → Each (item :: rest) p (o.map f.append)

/-- The first item that matches. -/
inductive First : List ExprId → Nat → Option Found → Prop where
  | nil (p : Nat) : First [] p none
  | here {item : ExprId} {p : Nat} {f : Found} (rest : List ExprId) :
      R item p (some f) → First (item :: rest) p (some f)
  | next {item : ExprId} {rest : List ExprId} {p : Nat} {o : Option Found} :
      R item p none → First rest p o → First (item :: rest) p o

/-- The operand until it fails or stays in place, with the number of times that it moved. -/
inductive Many (operand : ExprId) : Nat → Nat → Found → Prop where
  | fail {p : Nat} : R operand p none → Many operand p 0 (.nothing p)
  | stay {p : Nat} {f : Found} :
      R operand p (some f) → f.stop = p → Many operand p 0 (.nothing p)
  | next {p count : Nat} {f f' : Found} :
      R operand p (some f) → f.stop ≠ p → Many operand f.stop count f' →
      Many operand p (count + 1) (f.append f')

variable {R} {R' : ExprId → Nat → Option Found → Prop} {items : List ExprId} {p : Nat}
variable {o : Option Found}

theorem Each.imp (hR : ∀ i ∈ items, ∀ q o, R i q o → R' i q o) (h : Each R items p o) :
    Each R' items p o := by
  induction h with
  | nil p => exact .nil p
  | fail rest hfail => exact .fail rest (hR _ (List.mem_cons_self ..) _ _ hfail)
  | next hfirst _ ih =>
      exact .next (hR _ (List.mem_cons_self ..) _ _ hfirst)
        (ih fun i hi => hR i (List.mem_cons_of_mem _ hi))

variable (R)

/-- Every item may be asked for where the ones before it end. -/
def AskEach (ask : ExprId → Nat → Prop) : List ExprId → Nat → Prop
  | [], _ => True
  | item :: rest, p => ask item p ∧ ∀ f, R item p (some f) → AskEach ask rest f.stop

end Items

/-! ## Forms -/

namespace Combinators

variable {π : Protocol} {ask : Scope → ExprId → Nat → Prop} {call call' : Caller} {m : Machine}

/-- A terminal tells the end of its match, and captures nothing. -/
theorem terminal_told (hkeeps : π.Keeps m) (stop : Option Nat) :
    Twins m (fun _ => π.faults) (terminal stop) (terminal stop)
      (π.Leaves (· = stop.map Found.nothing) m) := by
  cases stop with
  | none => exact Twins.pure ⟨hkeeps, rfl⟩
  | some stop =>
      refine Twins.onState_bind (Twins.pure ⟨hkeeps.withState hkeeps.blank, ?_⟩)
      exact congrArg some (m.state.since_moveTo stop)

/-- Items tell one after the other, each from where the one before it ended. -/
theorem matchAll_told (hcall : π.Serves ask call call') (items : List ExprId)
    (hready : Ready π.grammar m) (hkeeps : π.Keeps m)
    (hask : AskEach (π.tell m.state.scope) (ask m.state.scope) items m.state.stop) :
    Twins m (fun _ => π.faults) (matchAll call items) (matchAll call' items) fun b m' =>
      π.Leaves (Each (π.tell m.state.scope) items m.state.stop) m b m' ∧
        m.state.Grown m'.state := by
  induction items generalizing m with
  | nil =>
      refine Twins.pure ⟨⟨hkeeps, ?_⟩, .refl _⟩
      simp only [ParseState.outcome, if_true, ParseState.since_self]
      exact .nil _
  | cons item rest ih =>
      obtain ⟨hitem, hrest⟩ := hask
      refine (hcall.asked hready hkeeps hitem).bind ?_
      rintro matched m₁ ⟨⟨hkeeps₁, htell⟩, hmemo, hanswer⟩
      cases matched with
      | false => exact Twins.pure ⟨⟨hkeeps₁, .fail rest htell⟩, hanswer.grown⟩
      | true =>
          refine Twins.allowed_bind hkeeps₁.countersFit ?_
          intro hfit
          have hscope : m₁.state.commit.scope = m.state.scope := hanswer.grown.scope
          have hready₁ : Ready π.grammar (m₁.withState m₁.state.commit) :=
            ready_commit hmemo (hanswer.grown.scope ▸ hready.canonical) hfit
          have hgrown₁ : m.state.Grown m₁.state.commit := hanswer.grown.commit hfit
          refine (ih hready₁ hkeeps₁.commit ?_).imp ?_
          · dsimp only
            rw [hscope]
            exact hrest _ htell
          · rintro b m' ⟨⟨hkeeps', heach⟩, hgrown⟩
            refine ⟨⟨hkeeps', ?_⟩, hgrown₁.trans hgrown⟩
            rw [ParseState.outcome_append hgrown₁.nodes hgrown.nodes]
            dsimp only at heach
            rw [hscope] at heach
            exact .next htell heach

/-- A sequence tells what its items tell, or nothing if one of them fails. -/
theorem sequence_told (hcall : π.Serves ask call call') (items : List ExprId)
    (hready : Ready π.grammar m) (hkeeps : π.Keeps m)
    (hask : AskEach (π.tell m.state.scope) (ask m.state.scope) items m.state.stop) :
    Twins m (fun _ => π.faults) (sequence call items) (sequence call' items)
      (π.Leaves (Each (π.tell m.state.scope) items m.state.stop) m) := by
  refine Twins.state_bind ?_
  refine (matchAll_told hcall items hready hkeeps hask).bind ?_
  rintro matched m₁ ⟨⟨hkeeps₁, heach⟩, hgrown⟩
  cases matched with
  | true =>
      refine Twins.allowed_bind (hkeeps.canUncommit hkeeps₁ hgrown) ?_
      intro hfit
      exact Twins.pure ⟨hkeeps.uncommit hkeeps₁ hgrown, heach⟩
  | false =>
      refine Twins.onState_bind (Twins.pure ⟨hkeeps₁.withState ?_, heach⟩)
      rw [hgrown.restore]
      exact hkeeps.blank

/-- A choice tells what its first alternative that matches tells. -/
theorem choice_told (hcall : π.Serves ask call call') (items : List ExprId)
    (hready : Ready π.grammar m) (hkeeps : π.Keeps m)
    (hask : ∀ item ∈ items, ask m.state.scope item m.state.stop) :
    Twins m (fun _ => π.faults) (choice call items) (choice call' items)
      (π.Leaves (First (π.tell m.state.scope) items m.state.stop) m) := by
  induction items generalizing m with
  | nil => exact Twins.pure ⟨hkeeps, .nil _⟩
  | cons item rest ih =>
      obtain ⟨hitem, hrest⟩ := List.forall_mem_cons.mp hask
      refine (hcall.asked hready hkeeps hitem).bind ?_
      rintro matched m₁ ⟨⟨hkeeps₁, htell⟩, hmemo, hanswer⟩
      cases matched with
      | true => exact Twins.pure ⟨hkeeps₁, .here rest htell⟩
      | false =>
          have heq : m₁.state = m.state := hanswer
          have hnext := ih (hready.of_state_eq hmemo heq) hkeeps₁ (heq ▸ hrest)
          refine hnext.imp ?_
          rintro b m' ⟨hkeeps', hfirst⟩
          rw [heq] at hfirst
          exact ⟨hkeeps', .next htell hfirst⟩

/-- An option tells its operand, or that nothing was found in place. -/
theorem optional_told (hcall : π.Serves ask call call') (operand : ExprId)
    (hready : Ready π.grammar m) (hkeeps : π.Keeps m)
    (hask : ask m.state.scope operand m.state.stop) :
    Twins m (fun _ => π.faults) (optional call operand) (optional call' operand)
      (π.Leaves (fun o => ∃ o', π.tell m.state.scope operand m.state.stop o' ∧
        o = some (o'.getD (.nothing m.state.stop))) m) := by
  refine (hcall.asked hready hkeeps hask).bind ?_
  rintro matched m₁ ⟨⟨hkeeps₁, htell⟩, -, hanswer⟩
  refine Twins.pure ⟨hkeeps₁, _, htell, ?_⟩
  cases matched with
  | true => rfl
  | false =>
      have heq : m₁.state = m.state := hanswer
      rw [heq]
      exact congrArg some m.state.since_self

/-- Where a repetition asks for its operand, and how far the operand gets. -/
structure Repeats (π : Protocol) (ask : Scope → ExprId → Nat → Prop) (c : Scope) (operand : ExprId)
    (first last : Nat) : Prop where
  asked : ∀ p, first ≤ p → p ≤ last → ask c operand p
  bounds : ∀ p f, first ≤ p → p ≤ last → π.tell c operand p (some f) → p ≤ f.stop ∧ f.stop ≤ last

/-- A repetition tells its rounds one after the other.  They are few enough to end by themselves:
    each moves on, and `last` bounds how far. -/
theorem matchMany_told (hcall : π.Serves ask call call') (operand : ExprId)
    {rounds rounds' : Nat} (count : Nat) {last : Nat} (hready : Ready π.grammar m)
    (hkeeps : π.Keeps m) (hrepeats : Repeats π ask m.state.scope operand m.state.stop last)
    (hlast : m.state.stop ≤ last) (henough : last - m.state.stop < rounds)
    (hle : rounds ≤ rounds') :
    Twins m (fun _ => π.faults) (matchMany call operand rounds count)
      (matchMany call' operand rounds' count) fun count' m' =>
      ∃ more, count' = count + more ∧ π.Keeps m' ∧ m.state.Grown m'.state ∧
        Many (π.tell m.state.scope) operand m.state.stop more (m.state.since m'.state) := by
  induction rounds generalizing m count rounds' with
  | zero => omega
  | succ rounds ih =>
      obtain ⟨rounds', rfl⟩ : ∃ k, rounds' = k + 1 := ⟨rounds' - 1, by omega⟩
      refine Twins.state_bind ?_
      refine (hcall.asked hready hkeeps (hrepeats.asked _ le_rfl hlast)).bind ?_
      rintro matched m₁ ⟨⟨hkeeps₁, htell⟩, hmemo, hanswer⟩
      cases matched with
      | false =>
          have heq : m₁.state = m.state := hanswer
          refine Twins.pure ⟨0, rfl, hkeeps₁, hanswer.grown, ?_⟩
          rw [heq, ParseState.since_self]
          exact .fail htell
      | true =>
          have hkept : m.state.Kept m₁.state := hanswer
          obtain ⟨hforward, hstop⟩ := hrepeats.bounds _ _ le_rfl hlast htell
          refine Twins.state_bind ?_
          by_cases hstay : m₁.state.stop = m.state.stop
          · simp only [if_pos hstay]
            have hback : m₁.state.discard = m.state := hkept.discard hready.settled
            refine Twins.onState_bind (Twins.pure ⟨0, rfl, hkeeps₁.withState ?_, ?_, ?_⟩)
            · rw [hback]
              exact hkeeps.blank
            · show m.state.Grown m₁.state.discard
              rw [hback]
              exact .refl _
            · show Many _ operand _ 0 (m.state.since m₁.state.discard)
              rw [hback, ParseState.since_self]
              exact .stay htell hstay
          · simp only [if_neg hstay]
            refine Twins.allowed_bind hkeeps₁.countersFit ?_
            intro hfit
            have hscope : m₁.state.commit.scope = m.state.scope := hkept.scope
            have hgrown₁ : m.state.Grown m₁.state.commit := hkept.grown.commit hfit
            have hready₁ : Ready π.grammar (m₁.withState m₁.state.commit) :=
              ready_commit hmemo (hkept.scope ▸ hready.canonical) hfit
            have hmoved : m.state.stop < m₁.state.stop :=
              lt_of_le_of_ne hforward (Ne.symm hstay)
            have hrest : Repeats π ask m₁.state.commit.scope operand m₁.state.stop last := by
              rw [hscope]
              exact ⟨fun p hp => hrepeats.asked p (by omega),
                fun p f hp => hrepeats.bounds p f (by omega)⟩
            have hleft : last - m₁.state.stop < rounds := by
              have : m₁.state.stop ≤ last := hstop
              omega
            refine (ih (count + 1) hready₁ hkeeps₁.commit hrest hstop hleft (by omega)).imp ?_
            rintro count' m' ⟨more, rfl, hkeeps', hgrown, hmany⟩
            refine ⟨more + 1, by omega, hkeeps', hgrown₁.trans hgrown, ?_⟩
            rw [ParseState.since_append hgrown₁.nodes hgrown.nodes]
            dsimp only at hmany
            rw [hscope] at hmany
            exact .next htell hstay hmany

/-- A repetition ends by itself: with rounds for a longer text it does the same. -/
theorem repetition_told (hcall : π.Serves ask call call') {text longer : Text}
    (hlonger : text.length ≤ longer.length) (least : Nat) (operand : ExprId)
    (hready : Ready π.grammar m) (hkeeps : π.Keeps m)
    (hrepeats : Repeats π ask m.state.scope operand m.state.stop text.length)
    (hstop : m.state.stop ≤ text.length) :
    Twins m (fun _ => π.faults) (repetition call text least operand)
      (repetition call' longer least operand)
      (π.Leaves (fun o => ∃ count f, Many (π.tell m.state.scope) operand m.state.stop count f ∧
        o = if count < least then none else some f) m) := by
  refine Twins.state_bind ?_
  refine (matchMany_told hcall operand 0 hready hkeeps hrepeats hstop (by omega) (by omega)).bind ?_
  rintro count m₁ ⟨more, rfl, hkeeps₁, hgrown, hmany⟩
  rw [Nat.zero_add]
  by_cases hfew : more < least
  · simp only [if_pos hfew]
    refine Twins.onState_bind (Twins.pure ⟨hkeeps₁.withState ?_, more, _, hmany, ?_⟩)
    · rw [hgrown.restore]
      exact hkeeps.blank
    · rw [if_pos hfew]
      rfl
  · simp only [if_neg hfew]
    refine Twins.allowed_bind (hkeeps.canUncommit hkeeps₁ hgrown) ?_
    intro hfit
    refine Twins.pure ⟨hkeeps.uncommit hkeeps₁ hgrown, more, _, hmany, ?_⟩
    rw [if_neg hfew]
    rfl

/-- A lookahead tells whether its operand matches, and stays in place. -/
theorem lookahead_told (hcall : π.Serves ask call call') (operand : ExprId)
    (hready : Ready π.grammar m) (hkeeps : π.Keeps m)
    (hask : ask m.state.scope operand m.state.stop) :
    Twins m (fun _ => π.faults) (lookahead call operand) (lookahead call' operand)
      (π.Leaves (fun o => ∃ o', π.tell m.state.scope operand m.state.stop o' ∧
        o = o'.map fun _ => .nothing m.state.stop) m) := by
  refine (hcall.asked hready hkeeps hask).bind ?_
  rintro matched m₁ ⟨⟨hkeeps₁, htell⟩, -, hanswer⟩
  cases matched with
  | false => exact Twins.pure ⟨hkeeps₁, _, htell, rfl⟩
  | true =>
      have hkept : m.state.Kept m₁.state := hanswer
      have hback : m₁.state.discard = m.state := hkept.discard hready.settled
      refine Twins.onState_bind (Twins.pure ⟨hkeeps₁.withState ?_, _, htell, ?_⟩)
      · rw [hback]
        exact hkeeps.blank
      · show some (m.state.since m₁.state.discard) = _
        rw [hback, ParseState.since_self]
        rfl

/-- The operand of a negation is matched with recording off. -/
theorem negation_told (hcall : π.Serves ask call call') (operand : ExprId)
    (hready : Ready π.grammar m) (hkeeps : π.Keeps m)
    (hask : ask { m.state.scope with recording := false } operand m.state.stop) :
    Twins m (fun _ => π.faults) (negation call operand) (negation call' operand)
      (π.Leaves (fun o => ∃ o',
        π.tell { m.state.scope with recording := false } operand m.state.stop o' ∧
          o = if o'.isSome then none else some (.nothing m.state.stop)) m) := by
  let c : Scope := { m.state.scope with recording := false }
  have hc : c.Canonical := ⟨hready.canonical.seeds, hready.canonical.floors⟩
  have hback : ∀ t : ParseState, t.scope = c →
      ({ t with recording := m.state.recording } : ParseState) = t.withScope m.state.scope := by
    intro t ht
    obtain ⟨hseeds, hfloors, -⟩ := ParseState.eq_of_scope (s := m.state.withScope c) ht
    exact ParseState.eq_withScope t hseeds hfloors rfl
  refine Twins.state_bind (Twins.onState_bind ?_)
  have htold := hcall.asked_within hready hkeeps hc hask
    (u := ({ · with recording := m.state.recording })) fun _ => ⟨rfl, rfl, rfl⟩
  refine (htold.and (hcall.obeys.call_scoped hready hc hback operand)).bind ?_
  rintro matched m₁ ⟨⟨hkeeps₁, htell⟩, -, hanswer⟩
  cases matched with
  | false =>
      have heq : m₁.state = m.state := hanswer
      refine Twins.pure ⟨hkeeps₁, _, htell, ?_⟩
      rw [heq]
      exact congrArg some m.state.since_self
  | true =>
      have hkept : m.state.Kept m₁.state := hanswer
      refine Twins.onState_bind (Twins.pure ⟨hkeeps₁.withState ?_, _, htell, rfl⟩)
      rw [hkept.discard hready.settled]
      exact hkeeps.blank

/-- What a token found, once whitespace is skipped. -/
def Skips (g : Grammar) (text : Text) (f : Found) (o : Option Found) : Prop :=
  match g.whitespace with
  | none => o = some f
  | some whitespace =>
      ∃ stop, g.skip text whitespace f.stop = .ok stop ∧ o = some { f with stop := stop.getD f.stop }

/-- A token tells its operand with the blanks after it. -/
theorem token_told {setting : Setting} (hcall : π.Serves ask call call') (operand : ExprId)
    (hready : Ready π.grammar m) (hkeeps : π.Keeps m) (hask : ask m.state.scope operand m.state.stop)
    (hskip : ∀ f whitespace, setting.grammar.whitespace = some whitespace →
      π.tell m.state.scope operand m.state.stop (some f) →
      π.faults ∨ ∃ stop, setting.grammar.skip setting.text whitespace f.stop = .ok stop) :
    Twins m (fun _ => π.faults) (token call setting operand) (token call' setting operand)
      (π.Leaves (fun o => π.tell m.state.scope operand m.state.stop none ∧ o = none ∨
        ∃ f, π.tell m.state.scope operand m.state.stop (some f) ∧
          Skips setting.grammar setting.text f o) m) := by
  refine (hcall.asked hready hkeeps hask).bind ?_
  rintro matched m₁ ⟨⟨hkeeps₁, htell⟩, -, hanswer⟩
  cases matched with
  | false => exact Twins.pure ⟨hkeeps₁, Or.inl ⟨htell, rfl⟩⟩
  | true =>
      cases hws : setting.grammar.whitespace with
      | none =>
          simp only [if_true]
          refine Twins.pure ⟨hkeeps₁, Or.inr ⟨_, htell, ?_⟩⟩
          rw [Skips, hws]
          rfl
      | some whitespace =>
          simp only [if_true]
          refine Twins.state_bind ?_
          refine Twins.answered_bind (hskip _ whitespace hws htell) ?_
          intro stop hrun
          have htold : ∀ t : ParseState, t.captures = m₁.state.captures →
              t.stop = stop.getD m₁.state.stop →
              Skips setting.grammar setting.text (m.state.since m₁.state)
                (some (m.state.since t)) := by
            intro t hcaptures ht
            rw [Skips, hws]
            refine ⟨stop, hrun, ?_⟩
            simp only [ParseState.since, hcaptures, ht]
          cases stop with
          | none => exact Twins.pure ⟨hkeeps₁, Or.inr ⟨_, htell, htold m₁.state rfl rfl⟩⟩
          | some stop =>
              refine Twins.onState_bind (Twins.pure ⟨hkeeps₁.withState hkeeps₁.blank, ?_⟩)
              exact Or.inr ⟨_, htell, htold (m₁.state.moveTo stop) rfl rfl⟩

end Combinators

/-- The nodes that a capture makes of those of its operand. -/
def CaptureMode.close (mode : CaptureMode) (text : Text) (start : Nat) (f : Found) :
    List CaptureNode :=
  if mode.wraps then
    [{ accessor := mode.accessor, multiple := mode.multiple, tags := mode.tags
       start, stop := f.stop
       text := if mode.keepsText then some (text.slice start f.stop) else none
       children := f.nodes }]
  else f.nodes.map mode.decorate

namespace Combinators

variable {π : Protocol} {ask : Scope → ExprId → Nat → Prop} {call call' : Caller} {m : Machine}

/-- A capture closes over the nodes that its operand tells. -/
theorem capture_told (hcall : π.Serves ask call call') (text : Text) (operand : ExprId)
    (mode : CaptureMode) (hready : Ready π.grammar m) (hkeeps : π.Keeps m)
    (hask : ask m.state.scope operand m.state.stop) :
    Twins m (fun _ => π.faults) (capture call text operand mode) (capture call' text operand mode)
      (π.Leaves (fun o => ∃ o', π.tell m.state.scope operand m.state.stop o' ∧
        o = o'.map fun f => { f with nodes := mode.close text m.state.stop f }) m) := by
  refine Twins.state_bind ?_
  refine (hcall.asked hready hkeeps hask).bind ?_
  rintro matched m₁ ⟨⟨hkeeps₁, htell⟩, -, hanswer⟩
  cases matched with
  | false => exact Twins.pure ⟨hkeeps₁, _, htell, rfl⟩
  | true =>
      have hkept : m.state.Kept m₁.state := hanswer
      refine Twins.state_bind (Twins.onState_bind (Twins.pure ⟨hkeeps₁.withState hkeeps₁.blank, ?_⟩))
      refine ⟨_, htell, ?_⟩
      obtain ⟨added, hadded⟩ := hkept.nodes
      by_cases hwraps : mode.wraps = true
      · simp [ParseState.outcome, ParseState.since, CaptureMode.close, CaptureBuffer.close, hwraps,
          CaptureBuffer.length, ← hadded]
      · simp [ParseState.outcome, ParseState.since, CaptureMode.close, CaptureBuffer.close, hwraps,
          CaptureBuffer.length, ← hadded]

end Combinators

end Packrat
