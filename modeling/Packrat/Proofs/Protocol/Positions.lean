import Packrat.Proofs.Protocol.Combinators

/-! # Where matches end

    A match that is found ends in the text and not before it began, and it ends where it began only
    if something is nullable.  What lists of items find is bounded like that if what the items find
    is. -/

namespace Packrat

variable {text : Text} {p : Nat} {b b' : Bool} {f f' : Found}

/-- Found in the text, and not where it began unless something is nullable. -/
structure Found.Within (text : Text) (p : Nat) (nullable : Bool) (f : Found) : Prop where
  forward : p ≤ f.stop
  stop : f.stop ≤ text.length
  nullable : f.stop = p → nullable = true

namespace Found.Within

theorem imp (h : f.Within text p b) (hb : b = true → b' = true) : f.Within text p b' :=
  ⟨h.forward, h.stop, fun heq => hb (h.nullable heq)⟩

theorem nothing (hp : p ≤ text.length) : (Found.nothing p).Within text p true :=
  ⟨le_rfl, hp, fun _ => rfl⟩

/-- What lies within the text in two stretches lies within it as a whole, and is empty only if both
    are. -/
theorem append (h : f.Within text p b) (h' : f'.Within text f.stop b') :
    (f.append f').Within text p (b && b') := by
  refine ⟨h.forward.trans h'.forward, h'.stop, ?_⟩
  intro heq
  have hstop : f'.stop = p := heq
  have hforward := h.forward
  have hforward' := h'.forward
  rw [h.nullable (by omega), h'.nullable (by omega)]
  rfl

/-- Captures may be replaced: positions do not depend on them. -/
theorem withNodes (h : f.Within text p b) (nodes : List CaptureNode) :
    ({ f with nodes := nodes } : Found).Within text p b :=
  ⟨h.forward, h.stop, h.nullable⟩

/-- What is not nullable moves on. -/
theorem moved (h : f.Within text p false) : p < f.stop :=
  h.forward.lt_of_ne fun heq => Bool.noConfusion (h.nullable heq.symm)

end Found.Within

section Items

variable {R : ExprId → Nat → Option Found → Prop} {nullable : ExprId → Bool}
variable {items : List ExprId} {operand : ExprId} {o : Option Found}

/-- A row of items stays within the text, and is in place only if every item may be. -/
theorem Each.within (hR : ∀ i q f, q ≤ text.length → R i q (some f) → f.Within text q (nullable i))
    (h : Each R items p o) (hp : p ≤ text.length) (ho : o = some f) :
    f.Within text p (items.all nullable) := by
  induction h generalizing f with
  | nil p =>
      cases ho
      exact .nothing hp
  | fail => cases ho
  | next hitem _ ih =>
      obtain ⟨f', rfl, rfl⟩ := Option.map_eq_some_iff.mp ho
      have hfirst := hR _ _ _ hp hitem
      exact (hfirst.append (ih hfirst.stop rfl)).imp (by simp)

/-- A choice stays within the text, and is in place only if an alternative may be. -/
theorem First.within (hR : ∀ i q f, q ≤ text.length → R i q (some f) → f.Within text q (nullable i))
    (h : First R items p o) (hp : p ≤ text.length) (ho : o = some f) :
    f.Within text p (items.any nullable) := by
  induction h with
  | nil => cases ho
  | here rest hitem =>
      cases ho
      exact (hR _ _ _ hp hitem).imp (by simp +contextual)
  | next _ _ ih => exact (ih hp ho).imp (by simp +contextual)

/-- What moved at all is not where it began. -/
theorem Many.within (hR : ∀ q f, q ≤ text.length → R operand q (some f) →
      q ≤ f.stop ∧ f.stop ≤ text.length) {count : Nat} (h : Many R operand p count f)
    (hp : p ≤ text.length) : f.Within text p (decide (count = 0)) := by
  induction h with
  | fail | stay => exact .nothing hp
  | @next p count f f' hfound hmoved _ ih =>
      obtain ⟨hforward, hstop⟩ := hR _ _ hp hfound
      have hfirst : f.Within text p false := ⟨hforward, hstop, fun heq => absurd heq hmoved⟩
      exact (hfirst.append (ih hstop)).imp (by simp)

end Items

end Packrat
