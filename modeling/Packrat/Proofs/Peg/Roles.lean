import Packrat.Proofs.Peg.Agreement

/-! # Grammars of which most follows the rules

    Tokens and what is below them are plain expressions, which find what the rules say.  The few
    others have a ROLE in their grammar.  What an expression tells is read off its role, and without a
    role the rules tell it (`Roles.Tells`); where it is asked for is read off its role too, and
    without a role it is anywhere in the text (`Roles.Asks`).

    So of a grammar only the roles have to be looked at (`Roles.serves_invoke`). -/

namespace Packrat

open Matching Engine

/-- The roles in a grammar: what is told for each at a position, and where it is asked for. -/
structure Roles (ρ : Type) where
  grammar : Grammar
  text : Text
  role : ExprId → Option ρ
  told : Scope → ρ → Nat → Option Found → Prop
  asked : Scope → ρ → Nat → Prop

namespace Roles

variable {ρ τ : Type} {R : Roles ρ} {c : Scope} {id : ExprId} {r : ρ} {x : τ} {p : Nat}
variable {o : Option Found}

/-- An expression tells what its role does, or else what the rules find. -/
def Tells (R : Roles ρ) (c : Scope) (id : ExprId) (p : Nat) (o : Option Found) : Prop :=
  match R.role id with
  | none => PegAt R.grammar R.text id p o
  | some r => R.told c r p o

/-- An expression is asked for in the text, where its role is if it has one. -/
def Asks (R : Roles ρ) (c : Scope) (id : ExprId) (p : Nat) : Prop :=
  p ≤ R.text.length ∧ match R.role id with
  | none => True
  | some r => R.asked c r p

/-- An expression without a role tells what the rules find. -/
theorem tells_plain (hid : R.role id = none) :
    R.Tells c id p o ↔ PegAt R.grammar R.text id p o := by
  rw [Tells, hid]

/-- An expression with a role tells what its role does. -/
theorem tells_role (hid : R.role id = some r) : R.Tells c id p o ↔ R.told c r p o := by
  rw [Tells, hid]

/-- An expression without a role may be asked for at any position of the text. -/
theorem asks_plain (hid : R.role id = none) (hp : p ≤ R.text.length) : R.Asks c id p := by
  refine ⟨hp, ?_⟩
  rw [hid]
  trivial

/-- An expression with a role may be asked for where its role is. -/
theorem asks_role (hid : R.role id = some r) (hp : p ≤ R.text.length) (h : R.asked c r p) :
    R.Asks c id p := by
  refine ⟨hp, ?_⟩
  rw [hid]
  exact h

/-- Scopes that look the same to every role are told the same in. -/
theorem Tells.congr {c' : Scope} (h : R.Tells c id p o)
    (htold : ∀ r, R.told c r p o → R.told c' r p o) : R.Tells c' id p o := by
  cases hid : R.role id with
  | none => exact (tells_plain hid).mpr ((tells_plain hid).mp h)
  | some r => exact (tells_role hid).mpr (htold r ((tells_role hid).mp h))

/-- Tokens are plain, and find what they are to find. -/
structure Tokens (R : Roles ρ) (token : τ → ExprId) (finds : τ → Nat → Option Found → Prop) :
    Prop where
  plain : ∀ x, R.role (token x) = none
  found : ∀ {x p o}, PegAt R.grammar R.text (token x) p o → finds x p o

/-- A token is asked for anywhere in the text, and finds what it is to find. -/
theorem Tokens.served {token : τ → ExprId} {finds : τ → Nat → Option Found → Prop}
    (h : R.Tokens token finds) (c : Scope) (x : τ) (hp : p ≤ R.text.length) :
    R.Asks c (token x) p ∧ ∀ o, R.Tells c (token x) p o → finds x p o :=
  ⟨asks_plain (h.plain x) hp, fun _ htells => h.found ((tells_plain (h.plain x)).mp htells)⟩

/-- The protocol of the roles, where faults are of no concern.  It is for the memo table to say what
    is kept in it. -/
def protocol (R : Roles ρ) (kept : MemoKey Fingerprint → Option Changes → Prop) : Protocol where
  grammar := R.grammar
  faults := True
  entry := kept
  recorded _ := True
  tell := R.Tells

/-- What may be kept: what is told in every scope that looks the same. -/
def Kept (R : Roles ρ) (key : MemoKey Fingerprint) (o : Option Changes) : Prop :=
  ∀ c : Scope, c.seeds.Canonical → c.seeds.digest = key.print.seeds →
    R.Tells c key.expr key.position (o.map Changes.found)

/-- What is told may be kept, if a scope that looks the same is told the same in. -/
theorem admits_kept (config : Config) {s : ParseState} (hcan : s.seeds.Canonical) (id : ExprId)
    (htold : ∀ c : Scope, c.seeds.Canonical → c.seeds.digest = s.seeds.digest →
      ∀ r o, R.told s.scope r s.stop o → R.told c r s.stop o) :
    (R.protocol R.Kept).Admits ⟨R.grammar, R.text, config⟩ s id := by
  refine Protocol.admits_of_told rfl trivial (fun _ => trivial) fun o => ⟨?_, ?_⟩
  · intro hkept
    exact hkept s.scope hcan rfl
  · intro htells c hc hdigest
    exact htells.congr fun r => htold c hc hdigest r _

variable {kept : MemoKey Fingerprint → Option Changes → Prop}

/-- A shape tells what its expression is to tell, if that is so where the expression has a role. -/
theorem dispatch_told {n : Nullability} {call call' : Caller} {m : Machine} {s : Shape ExprId}
    (config : Config) (hplain : Plain R.grammar n fun id => R.role id = none)
    (hcall : (R.protocol kept).Serves R.Asks call call') (hs : R.grammar.shape? id = some s)
    (hready : Ready R.grammar m) (hkeeps : (R.protocol kept).Keeps m)
    (hask : R.Asks m.state.scope id m.state.stop)
    (hrole : ∀ r, R.role id = some r → R.asked m.state.scope r m.state.stop →
      Twins m (fun _ => True) (dispatch ⟨R.grammar, R.text, config⟩ call id s)
        (dispatch ⟨R.grammar, R.text, config⟩ call' id s)
        ((R.protocol kept).Leaves (R.told m.state.scope r m.state.stop) m)) :
    Twins m (fun _ => True) (dispatch ⟨R.grammar, R.text, config⟩ call id s)
      (dispatch ⟨R.grammar, R.text, config⟩ call' id s)
      ((R.protocol kept).Leaves (R.Tells m.state.scope id m.state.stop) m) := by
  obtain ⟨hp, hasked⟩ := hask
  cases hid : R.role id with
  | none =>
      exact dispatch_peg ⟨R.grammar, R.text, config⟩ trivial rfl hplain hcall
        (fun hi => tells_plain hi) (fun hi hle => asks_plain hi hle) hid hs hready hkeeps hp
  | some r =>
      rw [hid] at hasked
      refine (hrole r hid hasked).imp fun b m' hleaves => hleaves.imp fun o htold => ?_
      exact (tells_role hid).mpr htold

/-- So every invocation tells what its expression is to tell: only the expressions with a role have
    to be looked at. -/
theorem serves_invoke {n : Nullability} (config : Config)
    (hplain : Plain R.grammar n fun id => R.role id = none)
    (hadmits : ∀ id m, Ready R.grammar m →
      (R.protocol kept).Admits ⟨R.grammar, R.text, config⟩ m.state id)
    (hrole : ∀ {call m id r s}, (R.protocol kept).Serves R.Asks call call → Ready R.grammar m →
      (R.protocol kept).Keeps m → R.grammar.shape? id = some s → R.role id = some r →
      m.state.stop ≤ R.text.length → R.asked m.state.scope r m.state.stop →
      Twins m (fun _ => True) (dispatch ⟨R.grammar, R.text, config⟩ call id s)
        (dispatch ⟨R.grammar, R.text, config⟩ call id s)
        ((R.protocol kept).Leaves (R.told m.state.scope r m.state.stop) m)) (nesting : Nat) :
    (R.protocol kept).Serves R.Asks (invoke ⟨R.grammar, R.text, config⟩ nesting)
      (invoke ⟨R.grammar, R.text, config⟩ nesting) := by
  refine Protocol.serves_of_dispatch ⟨R.grammar, R.text, config⟩ rfl trivial hadmits ?_ nesting
  intro call hcall id expr m hnode hready hkeeps hask
  have hs : R.grammar.shape? id = some expr.shape := Grammar.shape?_of_node? hnode
  exact dispatch_told config hplain hcall hs hready hkeeps hask fun r hid hasked =>
    hrole hcall hready hkeeps hs hid hask.1 hasked

end Roles

end Packrat
