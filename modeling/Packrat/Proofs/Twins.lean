import Packrat.Engine.Machine
import Packrat.Proofs.Rollback

/-!
# Twin programs

Every form is matched by a program over a `call` that matches the children. Two facts about such a
program go together: what it does to the machine, and at which machines it calls. Both are said by
running it with two callers side by side. If the callers agree wherever the program may call, the
two runs are the same; so whatever the program does, it calls nowhere else.

* **`Matching.Twins`** — two programs that run alike from a machine, with a postcondition for an
  answer and one for the scope that a fault leaves behind.
* **`Twins.bind`**, **`Twins.thenAlways`** and a rule for each basic program — the laws.
-/

namespace Packrat

/-- The machine with another parse state. -/
abbrev Machine.withState (m : Machine) (s : ParseState) : Machine :=
  { m with state := s }

namespace Matching

variable {α β : Type} {m : Machine} {E : Scope → Prop}

/-! ## Programs that answer -/

/-- A bind that answers has answered in both parts. -/
theorem bind_ok {x : Matching α} {f : α → Matching β} {b : β} {m' : Machine}
    (h : (x >>= f) m = .ok b m') : ∃ a m₁, x m = .ok a m₁ ∧ f a m₁ = .ok b m' := by
  simp only [Bind.bind, EStateM.bind] at h
  split at h
  · rename_i a m₁ hx
    exact ⟨a, m₁, hx, h⟩
  · cases h

/-- A bind goes on with what its first part answers. -/
theorem bind_eq {x : Matching α} {f : α → Matching β} {a : α} {m' : Machine}
    (h : x m = .ok a m') : (x >>= f) m = f a m' := by
  simp only [Bind.bind, EStateM.bind, h]

/-- A computation over grammar and text leaves the machine as it is. -/
theorem lift_ok {v : Except Fault α} {a : α} {m' : Machine} (h : lift v m = .ok a m') :
    v = .ok a ∧ m' = m := by
  cases v with
  | ok b =>
      cases h
      exact ⟨rfl, rfl⟩
  | error e => cases h

/-- What is done on the way out is done to the state that the program leaves. -/
theorem thenAlways_ok {x : Matching α} {u : ParseState → ParseState} {a : α} {m' : Machine}
    (h : thenAlways x u m = .ok a m') :
    ∃ m₁, x m = .ok a m₁ ∧ m' = m₁.withState (u m₁.state) := by
  simp only [thenAlways] at h
  split at h
  · rename_i b m₁ hx
    cases h
    exact ⟨m₁, hx, rfl⟩
  · cases h

theorem thenAlways_eq {x : Matching α} {u : ParseState → ParseState} {a : α} {m' : Machine}
    (h : x m = .ok a m') : thenAlways x u m = .ok a (m'.withState (u m'.state)) := by
  simp only [thenAlways, h]

/-! ## Twins -/

/-- Run from `m`, the programs `x` and `y` do the same. An answer satisfies `Q`, and a fault leaves a
    scope that satisfies `E`. -/
structure Twins (m : Machine) (E : Scope → Prop) (x y : Matching α) (Q : α → Machine → Prop) :
    Prop where
  same : y m = x m
  answer {a : α} {m' : Machine} : x m = .ok a m' → Q a m'
  fault {e : Fault} {m' : Machine} : x m = .error e m' → E m'.state.scope

namespace Twins

variable {x y : Matching α} {Q R : α → Machine → Prop}

/-- What is asserted of the answers may be weakened. -/
theorem imp (h : Twins m E x y R) (hQ : ∀ a m', R a m' → Q a m') : Twins m E x y Q :=
  ⟨h.same, fun hx => hQ _ _ (h.answer hx), h.fault⟩

/-- So may what is asserted of the scope in which a program faults. -/
theorem imp_fault {D : Scope → Prop} (h : Twins m D x y Q) (hE : ∀ c, D c → E c) :
    Twins m E x y Q :=
  ⟨h.same, h.answer, fun hx => hE _ (h.fault hx)⟩

/-- What is known of a program in two ways. -/
theorem and {D : Scope → Prop} {z : Matching α} (h : Twins m E x y Q) (h' : Twins m D x z R) :
    Twins m E x y fun a m' => Q a m' ∧ R a m' :=
  ⟨h.same, fun hx => ⟨h.answer hx, h'.answer hx⟩, h.fault⟩

/-- Besides what is known of an answer, it is one. -/
theorem ran (h : Twins m E x y Q) : Twins m E x y fun a m' => Q a m' ∧ x m = .ok a m' :=
  ⟨h.same, fun hx => ⟨h.answer hx, hx⟩, h.fault⟩

/-- A program that is known to answer leaves no fault behind, unless faults are of no concern. -/
theorem settle {D : Scope → Prop} {faults : Prop} (h : Twins m D x y Q)
    (hanswers : faults ∨ ∃ a m', x m = .ok a m') : Twins m (fun _ => faults) x y Q := by
  refine ⟨h.same, h.answer, ?_⟩
  intro e m' hx
  refine hanswers.resolve_right ?_
  rintro ⟨a, m₁, hok⟩
  cases hx.symm.trans hok

theorem pure {a : α} (h : Q a m) : Twins m E (Pure.pure a) (Pure.pure a) Q := by
  refine ⟨rfl, ?_, ?_⟩
  · intro b m' hx
    cases hx
    exact h
  · intro e m' hx
    cases hx

/-- A program followed by another. -/
theorem bind {R : β → Machine → Prop} {x y : Matching β} {f g : β → Matching α}
    (hx : Twins m E x y R) (hf : ∀ b m', R b m' → Twins m' E (f b) (g b) Q) :
    Twins m E (x >>= f) (y >>= g) Q := by
  have hsame := hx.same
  cases hrun : x m with
  | ok b m₁ =>
      have hk := hf b m₁ (hx.answer hrun)
      have hxf : (x >>= f) m = f b m₁ := bind_eq hrun
      have hyg : (y >>= g) m = g b m₁ := bind_eq (hsame.trans hrun)
      refine ⟨?_, ?_, ?_⟩
      · rw [hxf, hyg, hk.same]
      · intro a m' h
        exact hk.answer (hxf ▸ h)
      · intro e m' h
        exact hk.fault (hxf ▸ h)
  | error e m₁ =>
      have hxf : (x >>= f) m = .error e m₁ := by
        simp only [Bind.bind, EStateM.bind, hrun]
      have hyg : (y >>= g) m = .error e m₁ := by
        simp only [Bind.bind, EStateM.bind, hsame, hrun]
      refine ⟨hyg.trans hxf.symm, ?_, ?_⟩
      · intro a m' h
        rw [hxf] at h
        cases h
      · intro e' m' h
        rw [hxf] at h
        cases h
        exact hx.fault hrun

/-! ## Basic programs -/

/-- Reading the state goes on with it. -/
theorem state_bind {f g : ParseState → Matching α}
    (h : Twins m E (f m.state) (g m.state) Q) : Twins m E (state >>= f) (state >>= g) Q :=
  ⟨h.same, h.answer, h.fault⟩

theorem get_bind {f g : Machine → Matching α} (h : Twins m E (f m) (g m) Q) :
    Twins m E (MonadState.get >>= f) (MonadState.get >>= g) Q :=
  ⟨h.same, h.answer, h.fault⟩

/-- A change of the state goes on in the changed machine. -/
theorem onState_bind {u : ParseState → ParseState} {f g : Unit → Matching α}
    (h : Twins (m.withState (u m.state)) E (f ()) (g ()) Q) :
    Twins m E (onState u >>= f) (onState u >>= g) Q :=
  ⟨h.same, h.answer, h.fault⟩

theorem onTally_bind {u : Tally → Tally} {f g : Unit → Matching α}
    (h : Twins { m with tally := u m.tally } E (f ()) (g ()) Q) :
    Twins m E (onTally u >>= f) (onTally u >>= g) Q :=
  ⟨h.same, h.answer, h.fault⟩

theorem log_bind {entry : LogEntry} {f g : Unit → Matching α}
    (h : Twins { m with log := entry :: m.log } E (f ()) (g ()) Q) :
    Twins m E (log entry >>= f) (log entry >>= g) Q :=
  ⟨h.same, h.answer, h.fault⟩

theorem throw {e : Fault} (h : E m.state.scope) :
    Twins m E (MonadExcept.throw e) (MonadExcept.throw e) Q := by
  refine ⟨rfl, ?_, ?_⟩
  · intro a m' hx
    cases hx
  · intro e' m' hx
    cases hx
    exact h

/-- A transition that a slot may refuse: it was allowed, or the scope is the one that it leaves. -/
theorem transition {allowed : ParseState → Bool} {u : ParseState → ParseState}
    (hscope : E (u m.state).scope) :
    Twins m E (Matching.transition allowed u) (Matching.transition allowed u)
      fun _ m' => allowed m.state ∧ m' = m.withState (u m.state) := by
  refine ⟨rfl, ?_, ?_⟩
  · intro a m' hx
    rw [Matching.transition] at hx
    split at hx
    · rename_i hok
      cases hx
      exact ⟨hok, rfl⟩
    · cases hx
  · intro e m' hx
    rw [Matching.transition] at hx
    split at hx
    · cases hx
    · cases hx
      exact hscope

/-- A guarded change faults in the scope of its target, and otherwise goes on there. -/
theorem transition_bind {allowed : ParseState → Bool} {u : ParseState → ParseState}
    {f g : Unit → Matching α} (hscope : E (u m.state).scope)
    (h : allowed m.state → Twins (m.withState (u m.state)) E (f ()) (g ()) Q) :
    Twins m E (Matching.transition allowed u >>= f) (Matching.transition allowed u >>= g) Q := by
  refine (transition hscope).bind ?_
  rintro ⟨⟩ m' ⟨hok, rfl⟩
  exact h hok

/-- A transition that is known to be allowed, unless faults are of no concern. -/
theorem allowed_bind {allowed : ParseState → Bool} {u : ParseState → ParseState}
    {f g : Unit → Matching α} (hallowed : E (u m.state).scope ∨ allowed m.state = true)
    (h : allowed m.state → Twins (m.withState (u m.state)) E (f ()) (g ()) Q) :
    Twins m E (Matching.transition allowed u >>= f) (Matching.transition allowed u >>= g) Q := by
  rcases hallowed with hscope | hok
  · exact transition_bind hscope h
  · have hrun : Matching.transition allowed u m = .ok () (m.withState (u m.state)) := if_pos hok
    have hk := h hok
    refine ⟨?_, ?_, ?_⟩
    · rw [bind_eq hrun, bind_eq hrun, hk.same]
    · intro a m' hx
      exact hk.answer (bind_eq (f := f) hrun ▸ hx)
    · intro e m' hx
      exact hk.fault (bind_eq (f := f) hrun ▸ hx)

/-- After a commit that did not fault, the counters are known to have been in range. -/
theorem commit_bind {f g : Unit → Matching α} (hscope : E m.state.scope)
    (h : m.state.countersFit → Twins (m.withState m.state.commit) E (f ()) (g ()) Q) :
    Twins m E (commit >>= f) (commit >>= g) Q :=
  transition_bind hscope h

/-- After an uncommit that did not fault, the mark is known to have been in range. -/
theorem uncommit_bind {mark : Snapshot} {f g : Unit → Matching α} (hscope : E m.state.scope)
    (h : m.state.canUncommit mark →
      Twins (m.withState (m.state.uncommit mark)) E (f ()) (g ()) Q) :
    Twins m E (uncommit mark >>= f) (uncommit mark >>= g) Q :=
  transition_bind hscope h

/-- After a merge that did not fault, the changes are known to have been in range. -/
theorem merge_bind {changes : Changes} {f g : Unit → Matching α} (hscope : E m.state.scope)
    (h : m.state.canMerge changes →
      Twins (m.withState (m.state.merge changes)) E (f ()) (g ()) Q) :
    Twins m E (merge changes >>= f) (merge changes >>= g) Q :=
  transition_bind hscope h

/-- A fingerprint is that of the state, and taking it changes nothing. -/
theorem fingerprint (hscope : E m.state.scope) :
    Twins m E Matching.fingerprint Matching.fingerprint
      fun print m' => print = m.state.fingerprint ∧ m' = m := by
  refine ⟨rfl, ?_, ?_⟩
  · intro print m' hx
    rw [Matching.fingerprint] at hx
    split at hx
    · cases hx
      exact ⟨rfl, rfl⟩
    · cases hx
  · intro e m' hx
    rw [Matching.fingerprint] at hx
    split at hx
    · cases hx
    · cases hx
      exact hscope

theorem lift_bind {v : Except Fault β} {f g : β → Matching α} (hscope : E m.state.scope)
    (h : ∀ b, v = .ok b → Twins m E (f b) (g b) Q) :
    Twins m E (lift v >>= f) (lift v >>= g) Q := by
  cases v with
  | ok b =>
      have hb := h b rfl
      exact ⟨hb.same, hb.answer, hb.fault⟩
  | error e =>
      refine ⟨rfl, ?_, ?_⟩
      · intro a m' hx
        cases hx
      · intro e' m' hx
        cases hx
        exact hscope

/-- An analysis that is known to answer, unless faults are of no concern. -/
theorem answered_bind {v : Except Fault β} {f g : β → Matching α}
    (hanswers : E m.state.scope ∨ ∃ b, v = .ok b)
    (h : ∀ b, v = .ok b → Twins m E (f b) (g b) Q) :
    Twins m E (lift v >>= f) (lift v >>= g) Q := by
  rcases hanswers with hscope | ⟨b, rfl⟩
  · exact lift_bind hscope h
  · have hb := h b rfl
    exact ⟨hb.same, hb.answer, hb.fault⟩

/-- A clean-up after a program, also after a fault. -/
theorem thenAlways {D : Scope → Prop} {u : ParseState → ParseState} (h : Twins m D x y R)
    (hQ : ∀ a m', R a m' → Q a (m'.withState (u m'.state)))
    (hscope : ∀ s : ParseState, D s.scope → E (u s).scope) :
    Twins m E (Matching.thenAlways x u) (Matching.thenAlways y u) Q := by
  refine ⟨?_, ?_, ?_⟩
  · simp only [Matching.thenAlways, h.same]
  · intro a m' hx
    obtain ⟨m₁, hrun, rfl⟩ := thenAlways_ok hx
    exact hQ _ _ (h.answer hrun)
  · intro e m' hx
    cases hrun : x m with
    | ok b m₁ =>
        simp only [Matching.thenAlways, hrun] at hx
        cases hx
    | error e' m₁ =>
        simp only [Matching.thenAlways, hrun] at hx
        cases hx
        exact hscope _ (h.fault hrun)

end Twins

end Matching

end Packrat
