import Packrat.Proofs.Contract.Growth
import Packrat.Proofs.Protocol.Combinators

/-! # What a match tells, for seed growing

    While a boundary grows, every run of an operand begins in the state where the boundary began,
    in the same scope but for the seed at the key.  So all that changes is the seed, and what is
    known of a seed is carried from run to run by an invariant.  Growing ends because every seed
    reaches farther than the one before and none beyond the text; it ends with a seed that the
    operand does not surpass. -/

namespace Packrat

open Matching

/-! ## Scopes of a boundary -/

namespace Scope

variable {c : Scope} {key : SeedKey}

/-- The scope with another seed. -/
def seeded (c : Scope) (key : SeedKey) (seed : Option Changes) : Scope :=
  { c with seeds := c.seeds.insert key seed }

/-- The scope with another floor for a cluster. -/
def atLevel (c : Scope) (id : ExprId) (level : Precedence) : Scope :=
  { c with floors := c.floors.set id level }

theorem Canonical.seeded (h : c.Canonical) (key : SeedKey) (seed : Option Changes) :
    (c.seeded key seed).Canonical :=
  ⟨h.seeds.insert key seed, h.floors⟩

theorem Canonical.atLevel (h : c.Canonical) (id : ExprId) (level : Precedence) :
    (c.atLevel id level).Canonical :=
  ⟨h.seeds, h.floors.set id level⟩

/-- The later seed replaces the earlier. -/
theorem seeded_seeded (h : c.Canonical) (a b : Option Changes) :
    (c.seeded key a).seeded key b = c.seeded key b := by
  have hseeds : (c.seeds.insert key a).insert key b = c.seeds.insert key b := by
    refine ((h.seeds.insert key a).insert key b).ext (h.seeds.insert key b) ?_ fun _ => Iff.rfl
    intro j
    rw [Seeds.get?_insert, Seeds.get?_insert, Seeds.get?_insert]
    split <;> rfl
  simp only [seeded, hseeds]

/-- A seed that is there already. -/
theorem seeded_self (h : c.Canonical) {seed : Option Changes} (hget : c.seeds.get? key = some seed) :
    c.seeded key seed = c := by
  have hseeds : c.seeds.insert key seed = c.seeds := by
    refine (h.seeds.insert key seed).ext h.seeds ?_ fun _ => Iff.rfl
    intro j
    rw [Seeds.get?_insert]
    split
    · rename_i hj
      rw [hj, hget]
    · rfl
  simp only [seeded, hseeds]

/-- The later floor replaces the earlier. -/
theorem atLevel_atLevel (h : c.Canonical) (id : ExprId) (k l : Precedence) :
    (c.atLevel id k).atLevel id l = c.atLevel id l := by
  have hfloors : (c.floors.set id k).set id l = c.floors.set id l := by
    refine ((h.floors.set id k).set id l).ext (h.floors.set id l) ?_ rfl
    intro i
    rw [Floors.explicit?_set, Floors.explicit?_set, Floors.explicit?_set]
    split <;> rfl
  simp only [atLevel, hfloors]

end Scope

/-! ## Growing -/

namespace Growth

variable {π : Protocol} {ask : Scope → ExprId → Nat → Prop} {call call' : Caller} {m m₁ : Machine}
variable {s : ParseState} {c d : Scope} {key : SeedKey} {best : Option Changes}
variable {inv inv' : Option Changes → Prop}

/-- A seed that adds nothing to slots, unless faults are of no concern. -/
def BareSeed (π : Protocol) (seed : Option Changes) : Prop :=
  ∀ changes, seed = some changes → π.faults ∨ changes.Bare

/-- The seed does not reach beyond what the operand found. -/
def Surpasses (best : Option Changes) (o : Option Found) : Prop :=
  ∃ f, o = some f ∧ advances f.stop best = true

/-- The machine stands in `s`, in the scope `d`. -/
structure Stands (π : Protocol) (s : ParseState) (d : Scope) (m : Machine) : Prop where
  idle : PredicatesIdle π.grammar m.memo
  keeps : π.Keeps m
  state : m.state = s.withScope d

theorem Stands.ready (h : Stands π s d m) (hs : s.Settled) (hd : d.Canonical) :
    Ready π.grammar m := by
  refine ⟨?_, ?_, h.idle⟩
  · rw [h.state]
    exact hs.withScope d
  · rw [h.state]
    exact hd

theorem Stands.blank (h : Stands π s d m) : π.faults ∨ s.Blank := by
  have hblank := h.keeps.blank
  rw [h.state] at hblank
  exact hblank

theorem Stands.restore (h : Stands π s d m) (hgrown : m.state.Grown m₁.state) :
    m₁.state.restore s.snapshot = s.withScope d := by
  have hsnap : m.state.snapshot = s.snapshot := by
    rw [h.state]
    rfl
  rw [← hsnap, hgrown.restore, h.state]

/-- An operand that failed, or whose match was undone. -/
theorem Stands.of_state_eq (h : Stands π s d m) (hidle : PredicatesIdle π.grammar m₁.memo)
    (hkeeps : π.Keeps m₁) (heq : m₁.state = m.state) : Stands π s d m₁ :=
  ⟨hidle, hkeeps, heq.trans h.state⟩

/-- An operand matched where the boundary began. -/
theorem Stands.asked (hcall : π.Serves ask call call') (h : Stands π s d m) (hs : s.Settled)
    (hd : d.Canonical) {id : ExprId} (hask : ask d id s.stop) :
    Twins m (fun _ => π.faults) (call id) (call' id) fun b m' =>
      π.Leaves (π.tell d id s.stop) m b m' ∧ Left π.grammar m b m' := by
  have hasked := fun hask : ask m.state.scope id m.state.stop =>
    hcall.asked (h.ready hs hd) h.keeps hask
  rw [h.state] at hasked
  exact hasked hask

/-- What an operand did becomes the seed, and the machine stands where it stood. -/
theorem install_told (h : Stands π s (c.seeded key best) m) (hs : s.Settled) (hc : c.Canonical)
    (hkeeps : π.Keeps m₁) (hleft : Left π.grammar m true m₁) :
    Twins m₁ (fun _ => π.faults) (install key s.snapshot) (install key s.snapshot)
      fun changes m' => changes.found = m.state.since m₁.state ∧ (π.faults ∨ changes.Bare) ∧
        Stands π s (c.seeded key (some changes)) m' := by
  have hkept : m.state.Kept m₁.state := hleft.2
  have hsettled : m.state.Settled := (h.ready hs (hc.seeded key best)).settled
  refine Twins.state_bind (Twins.onState_bind (Twins.onTally_bind (Twins.onState_bind ?_)))
  refine Twins.pure ⟨ParseState.found_extract hsettled hkept, ?_, hleft.1, ?_, ?_⟩
  · exact hkeeps.blank.imp_right ParseState.Blank.bare_extract
  · refine ⟨h.blank.imp_right ?_, hkeeps.memo, hkeeps.recorded⟩
    intro hblank slot hslot
    have hback : (m₁.state.restore s.snapshot).slots = s.slots := by
      rw [h.restore hkept.grown]
      rfl
    exact hblank slot (hback ▸ hslot)
  · let reseed : ParseState → ParseState := fun t =>
      { t with seeds := t.seeds.insert key (some m₁.state.extract) }
    calc reseed (m₁.state.restore s.snapshot)
        = reseed (s.withScope (c.seeded key best)) := congrArg reseed (h.restore hkept.grown)
      _ = s.withScope ((c.seeded key best).seeded key (some m₁.state.extract)) := rfl
      _ = s.withScope (c.seeded key (some m₁.state.extract)) := by
          rw [Scope.seeded_seeded hc]

/-- A seed is replayed on top of the state where the boundary began. -/
theorem replay_told (hkeeps : π.Keeps m₁) (hcaptures : m₁.state.captures = m.state.captures)
    {seed : Option Changes} (hseed : BareSeed π seed) {P : Option Found → Prop}
    (hP : P (seed.map Changes.found)) :
    Twins m₁ (fun _ => π.faults) (replay seed) (replay seed) (π.Leaves P m) := by
  cases seed with
  | none => exact Twins.pure ⟨hkeeps, hP⟩
  | some changes =>
      have hmerge : π.faults ∨
          m₁.state.canMerge changes = true ∧ (m₁.state.merge changes).Blank := by
        rcases hseed changes rfl with hfaults | hbare
        · exact Or.inl hfaults
        · exact hkeeps.blank.imp_right fun hblank => hblank.merge hbare
      refine Twins.allowed_bind (hmerge.imp_right And.left) ?_
      intro _
      refine Twins.pure ⟨hkeeps.withState (hmerge.imp_right And.right), ?_⟩
      have hfound : m.state.since (m₁.state.merge changes) = changes.found := by
        rw [← m₁.state.since_merge changes]
        simp only [ParseState.since, hcaptures]
      simp only [ParseState.outcome, if_true, hfound]
      exact hP

/-- How much farther a seed can get. -/
def room (first last : Nat) : Option Changes → Nat
  | none => last - first + 1
  | some seed => last - seed.stop

theorem room_lt {first last : Nat} {changes : Changes} (hfirst : first ≤ changes.stop)
    (hlast : changes.stop ≤ last) (hadvances : advances changes.stop best = true) :
    room first last (some changes) < room first last best := by
  cases best with
  | none =>
      simp only [room]
      omega
  | some seed =>
      have hlt : seed.stop < changes.stop := by simpa [advances] using hadvances
      simp only [room]
      omega

/-! ## Left recursion -/

/-- What is known of the seeds of a left-recursive boundary: an invariant that every run of the
    operand preserves. -/
structure Growable (π : Protocol) (ask : Scope → ExprId → Nat → Prop) (scope : Option Changes → Scope)
    (operand : ExprId) (first last : Nat) (inv : Option Changes → Prop) : Prop where
  asked : ∀ best, inv best → ask (scope best) operand first
  bounds : ∀ best f, inv best → π.tell (scope best) operand first (some f) →
    first ≤ f.stop ∧ f.stop ≤ last
  grown : ∀ best changes, inv best → π.tell (scope best) operand first (some changes.found) →
    advances changes.stop best = true → (π.faults ∨ changes.Bare) → inv (some changes)

theorem grow_told (hcall : π.Serves ask call call') {operand : ExprId} {last : Nat}
    (runs runs' : Nat)
    (hgrowable : Growable π ask (c.seeded key) operand s.stop last inv) (hs : s.Settled)
    (hc : c.Canonical) (h : Stands π s (c.seeded key best) m) (hinv : inv best)
    (hbare : BareSeed π best) (henough : room s.stop last best < runs) (hle : runs ≤ runs') :
    Twins m (fun _ => π.faults) (grow call key operand s.snapshot runs best)
      (grow call' key operand s.snapshot runs' best) fun best' m' =>
      Stands π s (c.seeded key best') m' ∧ BareSeed π best' ∧ inv best' ∧
        ∃ o, π.tell (c.seeded key best') operand s.stop o ∧ ¬ Surpasses best' o := by
  induction runs generalizing m best runs' with
  | zero => omega
  | succ runs ih =>
      obtain ⟨runs', rfl⟩ : ∃ k, runs' = k + 1 := ⟨runs' - 1, by omega⟩
      refine (h.asked hcall hs (hc.seeded key best) (hgrowable.asked best hinv)).bind ?_
      rintro matched m₁ ⟨⟨hkeeps₁, htell⟩, hleft⟩
      cases matched with
      | false =>
          refine Twins.pure ⟨h.of_state_eq hleft.1 hkeeps₁ hleft.2, hbare, hinv, none, htell, ?_⟩
          rintro ⟨f, hf, -⟩
          cases hf
      | true =>
          have hkept : m.state.Kept m₁.state := hleft.2
          refine Twins.state_bind ?_
          by_cases hfar : advances m₁.state.stop best = true
          · simp only [hfar, if_true]
            refine (install_told h hs hc hkeeps₁ hleft).bind ?_
            rintro changes m₂ ⟨hfound, hbare₂, h₂⟩
            have hstop : changes.stop = m₁.state.stop := congrArg Found.stop hfound
            have htell₂ : π.tell (c.seeded key best) operand s.stop (some changes.found) := by
              rw [hfound]
              exact htell
            obtain ⟨hfirst, hlast⟩ := hgrowable.bounds best _ hinv htell₂
            have hroom := room_lt hfirst hlast (hstop ▸ hfar)
            refine ih runs' h₂ (hgrowable.grown best changes hinv htell₂ (hstop ▸ hfar) hbare₂) ?_
              (by omega) (by omega)
            rintro _ ⟨⟩
            exact hbare₂
          · simp only [hfar]
            refine Twins.onState_bind (Twins.pure ⟨⟨hleft.1, hkeeps₁.withState ?_, ?_⟩, hbare, hinv,
              some _, htell, ?_⟩)
            · rw [h.restore hkept.grown]
              exact h.blank
            · exact h.restore hkept.grown
            · rintro ⟨f, hf, hadvances⟩
              cases hf
              exact hfar hadvances

/-- A left-recursive boundary replays a seed, or runs its operand once if it is blocked, or grows a
    seed.  Growing ends by itself: with runs for a longer text it does the same. -/
theorem leftRecursive_told (hcall : π.Serves ask call call') {text longer : Text}
    (hlonger : text.length ≤ longer.length) (id operand : ExprId) (assoc : Bool)
    (hready : Ready π.grammar m) (hkeeps : π.Keeps m) {P : Option Found → Prop}
    (hkey : key = { expr := id, position := m.state.stop })
    (hreplay : ∀ seed, m.state.seeds.get? key = some seed →
      BareSeed π seed ∧ P (seed.map Changes.found))
    (honce : m.state.seeds.get? key = none → (assoc && m.state.seeds.isBlocked id) = true →
      let c := { m.state.scope with seeds := (m.state.seeds.insert key none).setBlocked id false }
      ask c operand m.state.stop ∧ ∀ o, π.tell c operand m.state.stop o → P o)
    (hgrows : m.state.seeds.get? key = none → (assoc && m.state.seeds.isBlocked id) = false →
      let c := { m.state.scope with
        seeds := if assoc then (m.state.seeds.insert key none).setBlocked id true
          else m.state.seeds.insert key none }
      ∃ inv, Growable π ask (c.seeded key) operand m.state.stop text.length inv ∧ inv none ∧
        ∀ best o, inv best → π.tell (c.seeded key best) operand m.state.stop o →
          ¬ Surpasses best o → P (best.map Changes.found)) :
    Twins m (fun _ => π.faults) (leftRecursive call text id operand assoc)
      (leftRecursive call' longer id operand assoc) (π.Leaves P m) := by
  have hcan : m.state.seeds.Canonical := hready.canonical.seeds
  refine Twins.state_bind ?_
  dsimp only
  rw [← hkey]
  cases hget : m.state.seeds.get? key with
  | some seed => exact replay_told hkeeps rfl (hreplay seed hget).1 (hreplay seed hget).2
  | none =>
      cases hblocked : (assoc && m.state.seeds.isBlocked id) with
      | true =>
          simp only [if_true]
          obtain ⟨hask, htells⟩ := honce hget hblocked
          have hc : Scope.Canonical { m.state.scope with
              seeds := (m.state.seeds.insert key none).setBlocked id false } :=
            ⟨(hcan.insert key none).setBlocked id false, hready.canonical.floors⟩
          refine Twins.onState_bind ((hcall.asked_within hready hkeeps hc hask
            (u := fun t => { t with seeds := (t.seeds.setBlocked id true).remove key })
            fun _ => ⟨rfl, rfl, rfl⟩).imp ?_)
          intro b m' hleaves
          exact hleaves.imp htells
      | false =>
          simp only [Bool.false_eq_true, if_false]
          obtain ⟨inv, hgrowable, hnone, hend⟩ := hgrows hget hblocked
          generalize hcdef : ({ m.state.scope with
            seeds := if assoc then (m.state.seeds.insert key none).setBlocked id true
              else m.state.seeds.insert key none } : Scope) = c at hgrowable hend
          have hc : c.Canonical := by
            rw [← hcdef]
            refine ⟨?_, hready.canonical.floors⟩
            cases assoc with
            | true => exact (hcan.insert key none).setBlocked id true
            | false => exact hcan.insert key none
          have hseeded : c.seeds.get? key = some none := by
            rw [← hcdef]
            cases assoc with
            | true => simp only [if_true, Seeds.get?_setBlocked, Seeds.get?_insert]
            | false => simp only [Bool.false_eq_true, if_false, Seeds.get?_insert, if_true]
          refine Twins.onState_bind ?_
          generalize hm₁ : m.withState _ = m₁
          have hstands : Stands π m.state (c.seeded key none) m₁ := by
            rw [Scope.seeded_self hc hseeded, ← hm₁, ← hcdef]
            exact ⟨hready.memo, hkeeps.withState hkeeps.blank, rfl⟩
          have hgrown := grow_told hcall (text.length - m.state.stop + 2)
            (longer.length - m.state.stop + 2) hgrowable hready.settled hc hstands hnone
            (by rintro _ ⟨⟩) (by simp only [room]; omega) (by omega)
          refine (hgrown.thenAlways (Q := fun best n => π.Keeps n ∧
            n.state.captures = m.state.captures ∧ BareSeed π best ∧ P (best.map Changes.found))
            ?_ fun _ hfault => hfault).bind ?_
          · rintro best n ⟨hn, hbare, hinv, o, htell, hsurpasses⟩
            refine ⟨hn.keeps.withState hn.keeps.blank, ?_, hbare, hend best o hinv htell hsurpasses⟩
            show n.state.captures = _
            rw [hn.state]
            rfl
          · rintro best n ⟨hn, hcaptures, hbare, hP⟩
            exact replay_told hn hcaptures hbare hP

/-! ## Clusters -/

/-- Alternatives tried until one gets farther than the seed. -/
inductive Climbs (R : ExprId → Option Found → Prop) (best : Option Changes) :
    List ExprId → Option Found → Prop where
  | nil : Climbs R best [] none
  | here {alternative : ExprId} {o : Option Found} (rest : List ExprId) :
      R alternative o → Surpasses best o → Climbs R best (alternative :: rest) o
  | next {alternative : ExprId} {rest : List ExprId} {o o' : Option Found} :
      R alternative o → ¬ Surpasses best o → Climbs R best rest o' →
      Climbs R best (alternative :: rest) o'

theorem climbOnce_told (hcall : π.Serves ask call call') (alternatives : List ExprId)
    (hask : ∀ i ∈ alternatives, ask (c.seeded key best) i s.stop) (hs : s.Settled)
    (hc : c.Canonical) (h : Stands π s (c.seeded key best) m) :
    Twins m (fun _ => π.faults) (climbOnce call key s.snapshot best alternatives)
      (climbOnce call' key s.snapshot best alternatives) fun grown m' =>
      Climbs (fun i => π.tell (c.seeded key best) i s.stop) best alternatives
        (grown.map Changes.found) ∧
      BareSeed π grown ∧ Stands π s (c.seeded key (grown.or best)) m' := by
  induction alternatives generalizing m with
  | nil => exact Twins.pure ⟨.nil, by rintro _ ⟨⟩, h⟩
  | cons alternative rest ih =>
      obtain ⟨hfirst, hrest⟩ := List.forall_mem_cons.mp hask
      refine (h.asked hcall hs (hc.seeded key best) hfirst).bind ?_
      rintro matched m₁ ⟨⟨hkeeps₁, htell⟩, hleft⟩
      cases matched with
      | false =>
          refine (ih hrest (h.of_state_eq hleft.1 hkeeps₁ hleft.2)).imp ?_
          rintro grown m' ⟨hclimbs, hbare, hstands⟩
          refine ⟨.next htell ?_ hclimbs, hbare, hstands⟩
          rintro ⟨f, hf, -⟩
          cases hf
      | true =>
          have hkept : m.state.Kept m₁.state := hleft.2
          refine Twins.state_bind ?_
          by_cases hfar : advances m₁.state.stop best = true
          · simp only [hfar, if_true]
            refine (install_told h hs hc hkeeps₁ hleft).bind ?_
            rintro changes m₂ ⟨hfound, hbare₂, h₂⟩
            refine Twins.pure ⟨?_, ?_, h₂⟩
            · rw [Option.map_some, hfound]
              exact .here rest htell ⟨_, rfl, hfar⟩
            · rintro _ ⟨⟩
              exact hbare₂
          · simp only [hfar]
            have hback : Stands π s (c.seeded key best)
                (m₁.withState (m₁.state.restore s.snapshot)) := by
              refine ⟨hleft.1, hkeeps₁.withState ?_, h.restore hkept.grown⟩
              rw [h.restore hkept.grown]
              exact h.blank
            refine Twins.onState_bind ((ih hrest hback).imp ?_)
            rintro grown m' ⟨hclimbs, hbare, hstands⟩
            refine ⟨.next htell ?_ hclimbs, hbare, hstands⟩
            rintro ⟨f, hf, hadvances⟩
            cases hf
            exact hfar hadvances

/-- What is known of the seeds of a cluster while a group runs, and afterwards. -/
structure Climbable (π : Protocol) (ask : Scope → ExprId → Nat → Prop)
    (scope : Option Changes → Scope) (group : Group ExprId) (first last : Nat)
    (inv inv' : Option Changes → Prop) : Prop where
  reached : ∀ seed, inv (some seed) → first ≤ seed.stop
  asked : ∀ best, inv best → ∀ i ∈ group.alternatives, ask (scope best) i first
  bounds : ∀ best i f, inv best → i ∈ group.alternatives → π.tell (scope best) i first (some f) →
    first ≤ f.stop ∧ f.stop ≤ last
  grown : ∀ best changes, inv best →
    Climbs (fun i => π.tell (scope best) i first) best group.alternatives (some changes.found) →
    (π.faults ∨ changes.Bare) →
    if group.kind.grows then inv (some changes) else inv' (some changes)
  ended : ∀ best, inv best →
    Climbs (fun i => π.tell (scope best) i first) best group.alternatives none → inv' best

theorem Climbable.imp {scope : Option Changes → Scope} {group : Group ExprId} {first last : Nat}
    {inv'' : Option Changes → Prop} (h : Climbable π ask scope group first last inv inv')
    (himp : ∀ best, inv' best → inv'' best) :
    Climbable π ask scope group first last inv inv'' := by
  refine ⟨h.reached, h.asked, h.bounds, ?_, fun best hinv hclimbs =>
    himp best (h.ended best hinv hclimbs)⟩
  intro best changes hinv hclimbs hbare
  have hgrown := h.grown best changes hinv hclimbs hbare
  split
  · rwa [if_pos ‹_›] at hgrown
  · rw [if_neg ‹_›] at hgrown
    exact himp _ hgrown

/-- What an alternative found that became the seed. -/
theorem Climbs.surpasses {R : ExprId → Option Found → Prop} {alternatives : List ExprId} {f : Found}
    (h : Climbs R best alternatives (some f)) :
    (∃ i ∈ alternatives, R i (some f)) ∧ advances f.stop best = true := by
  generalize ho : some f = o at h
  induction h with
  | nil => cases ho
  | here rest htell hsurpasses =>
      obtain ⟨f', hf', hadvances⟩ := hsurpasses
      cases ho.trans hf'
      exact ⟨⟨_, List.mem_cons_self .., ho ▸ htell⟩, hadvances⟩
  | next _ _ _ ih =>
      obtain ⟨⟨i, hi, htell⟩, hadvances⟩ := ih ho
      exact ⟨⟨i, List.mem_cons_of_mem _ hi, htell⟩, hadvances⟩

/-- Where none became the seed, every alternative was tried and did not surpass it. -/
theorem Climbs.stalls {R : ExprId → Option Found → Prop} {alternatives : List ExprId}
    (h : Climbs R best alternatives none) :
    ∀ i ∈ alternatives, ∃ o, R i o ∧ ¬ Surpasses best o := by
  generalize hnone : (none : Option Found) = o at h
  induction h with
  | nil => simp
  | here _ _ hsurpasses =>
      obtain ⟨f, rfl, -⟩ := hsurpasses
      cases hnone
  | next htell hstalls _ ih => exact List.forall_mem_cons.mpr ⟨⟨_, htell, hstalls⟩, ih hnone⟩

theorem climb_told (hcall : π.Serves ask call call') {group : Group ExprId} {last : Nat}
    (rounds rounds' : Nat)
    (hclimbable : Climbable π ask (c.seeded key) group s.stop last inv inv') (hs : s.Settled)
    (hc : c.Canonical) (h : Stands π s (c.seeded key best) m) (hinv : inv best)
    (hbare : BareSeed π best) (henough : room s.stop last best < rounds) (hle : rounds ≤ rounds') :
    Twins m (fun _ => π.faults) (climb call key group s.snapshot rounds best)
      (climb call' key group s.snapshot rounds' best) fun best' m' =>
      Stands π s (c.seeded key best') m' ∧ BareSeed π best' ∧ inv' best' := by
  induction rounds generalizing m best rounds' with
  | zero => omega
  | succ rounds ih =>
      obtain ⟨rounds', rfl⟩ : ∃ k, rounds' = k + 1 := ⟨rounds' - 1, by omega⟩
      refine (climbOnce_told hcall group.alternatives (hclimbable.asked best hinv) hs hc h).bind ?_
      rintro grown m₁ ⟨hclimbs, hbare₁, h₁⟩
      cases grown with
      | none => exact Twins.pure ⟨h₁, hbare, hclimbable.ended best hinv hclimbs⟩
      | some changes =>
          have hgrown := hclimbable.grown best changes hinv hclimbs (hbare₁ changes rfl)
          cases hgrows : group.kind.grows with
          | false =>
              simp only [hgrows, Bool.false_eq_true, if_false] at hgrown ⊢
              exact Twins.pure ⟨h₁, hbare₁, hgrown⟩
          | true =>
              simp only [hgrows, if_true] at hgrown ⊢
              obtain ⟨⟨i, hi, htell⟩, hadvances⟩ := hclimbs.surpasses
              obtain ⟨hfirst, hlast⟩ := hclimbable.bounds best i _ hinv hi htell
              have hroom := room_lt hfirst hlast hadvances
              exact ih rounds' h₁ hgrown hbare₁ (by omega) (by omega)

/-- Groups run in order, each with its own floor. -/
theorem climbAll_told (hcall : π.Serves ask call call') {text longer : Text}
    (hlonger : text.length ≤ longer.length) {inv : List (Group ExprId) → Option Changes → Prop}
    (hs : s.Settled) (hc : c.Canonical) (hposition : key.position = s.stop)
    (groups : List (Group ExprId))
    (hclimbable : ∀ group rest, group :: rest <:+ groups →
      Climbable π ask ((c.atLevel key.expr (levelFloor group)).seeded key)
        group s.stop text.length (inv (group :: rest)) (inv rest))
    (hd : ∀ level, d.atLevel key.expr level = c.atLevel key.expr level)
    (h : Stands π s (d.seeded key best) m) (hinv : inv groups best) (hbare : BareSeed π best) :
    Twins m (fun _ => π.faults) (climbAll call text key groups best)
      (climbAll call' longer key groups best) fun best' m' =>
      π.Keeps m' ∧ m'.state.captures = s.captures ∧ BareSeed π best' ∧ inv [] best' := by
  induction groups generalizing m best d with
  | nil =>
      refine Twins.pure ⟨h.keeps, ?_, hbare, hinv⟩
      rw [h.state]
      rfl
  | cons group rest ih =>
      have hgroup := hclimbable group rest List.suffix_rfl
      refine Twins.onState_bind (Twins.state_bind ?_)
      generalize hm₁ : m.withState _ = m₁
      have hscope : d.atLevel key.expr (levelFloor group) = c.atLevel key.expr (levelFloor group) :=
        hd _
      have hstate : m₁.state
          = s.withScope ((c.atLevel key.expr (levelFloor group)).seeded key best) := by
        rw [← hm₁, h.state, ← hscope]
        rfl
      have hstands : Stands π s ((c.atLevel key.expr (levelFloor group)).seeded key best) m₁ := by
        refine ⟨?_, ?_, hstate⟩
        · rw [← hm₁]
          exact h.idle
        · rw [← hm₁]
          exact h.keeps.withState h.keeps.blank
      have hsnap : m₁.state.snapshot = s.snapshot := by
        rw [hstate]
        rfl
      dsimp only
      rw [hsnap, hposition]
      have hroom : room s.stop text.length best < text.length - s.stop + 2 := by
        cases best with
        | none =>
            simp only [room]
            omega
        | some seed =>
            have hreached := hgroup.reached seed hinv
            simp only [room]
            omega
      have hclimb := climb_told hcall _ (longer.length - s.stop + 2) hgroup hs
        (hc.atLevel key.expr _) hstands hinv hbare hroom (by omega)
      refine hclimb.bind ?_
      rintro best' m₂ ⟨h₂, hbare₂, hinv₂⟩
      refine ih (fun group' rest' hsuffix => ?_) (fun level => ?_) h₂ hinv₂ hbare₂
      · exact hclimbable group' rest' (hsuffix.trans (List.suffix_cons group rest))
      · exact Scope.atLevel_atLevel hc key.expr _ level

/-- A cluster replays a seed, or runs the groups at or above its floor.  They end by themselves: with
    rounds for a longer text the cluster does the same. -/
theorem cluster_told (hcall : π.Serves ask call call') {text longer : Text}
    (hlonger : text.length ≤ longer.length) (id : ExprId) (groups : List (Group ExprId))
    (hready : Ready π.grammar m) (hkeeps : π.Keeps m) {P : Option Found → Prop}
    (hkey : key = { expr := id, position := m.state.stop })
    (hreplay : ∀ seed, m.state.seeds.get? key = some seed →
      BareSeed π seed ∧ P (seed.map Changes.found))
    (hclimbs : m.state.seeds.get? key = none →
      let admitted := groups.takeWhile fun group => m.state.floors.floor id ≤ group.precedence
      ∃ inv : List (Group ExprId) → Option Changes → Prop,
        (∀ group rest, group :: rest <:+ admitted → Climbable π ask
          ((m.state.scope.atLevel id (levelFloor group)).seeded key) group m.state.stop text.length
          (inv (group :: rest)) (inv rest)) ∧
        inv admitted none ∧
        ∀ best, inv [] best → P (best.map Changes.found)) :
    Twins m (fun _ => π.faults) (cluster call text id groups) (cluster call' longer id groups)
      (π.Leaves P m) := by
  have hid : key.expr = id := by rw [hkey]
  have hposition : key.position = m.state.stop := by rw [hkey]
  refine Twins.state_bind ?_
  dsimp only
  rw [← hkey]
  cases hget : m.state.seeds.get? key with
  | some seed => exact replay_told hkeeps rfl (hreplay seed hget).1 (hreplay seed hget).2
  | none =>
      obtain ⟨inv, hclimbable, hnone, hend⟩ := hclimbs hget
      refine Twins.onState_bind ?_
      generalize (groups.takeWhile fun group => m.state.floors.floor id ≤ group.precedence)
        = admitted at hclimbable hnone ⊢
      rw [← hid] at hclimbable
      have hstands : Stands π m.state (m.state.scope.seeded key none)
          (m.withState { m.state with seeds := m.state.seeds.insert key none }) :=
        ⟨hready.memo, hkeeps.withState hkeeps.blank, rfl⟩
      have hclimb := climbAll_told hcall hlonger hready.settled hready.canonical hposition admitted
        hclimbable (fun _ => rfl) hstands hnone (by rintro _ ⟨⟩)
      refine (hclimb.thenAlways (Q := fun best n => π.Keeps n ∧
        n.state.captures = m.state.captures ∧ BareSeed π best ∧ P (best.map Changes.found))
        ?_ fun _ hfault => hfault).bind ?_
      · rintro best n ⟨hn, hcaptures, hbare, hinv⟩
        exact ⟨hn.withState hn.blank, hcaptures, hbare, hend best hinv⟩
      · rintro best n ⟨hn, hcaptures, hbare, hP⟩
        exact replay_told hn hcaptures hbare hP

/-! ## Precedence resets -/

theorem minPrecedence_told (hcall : π.Serves ask call call') (operand : ExprId) (floor : Precedence)
    (hready : Ready π.grammar m) (hkeeps : π.Keeps m)
    (hask : ask { m.state.scope with seeds := m.state.seeds.unblockAll, floors := .uniform floor }
      operand m.state.stop) :
    Twins m (fun _ => π.faults) (minPrecedence call operand floor)
      (minPrecedence call' operand floor)
      (π.Leaves (π.tell
        { m.state.scope with seeds := m.state.seeds.unblockAll, floors := .uniform floor }
        operand m.state.stop) m) := by
  have hc : Scope.Canonical
      { m.state.scope with seeds := m.state.seeds.unblockAll, floors := .uniform floor } :=
    ⟨hready.canonical.seeds.unblockAll, Floors.canonical_uniform floor⟩
  exact Twins.state_bind (Twins.onState_bind (hcall.asked_within hready hkeeps hc hask
    fun _ => ⟨rfl, rfl, rfl⟩))

end Growth

end Packrat
