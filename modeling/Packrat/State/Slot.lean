/-!
# Slots: extra state that custom expressions keep during a parse

A slot is a list of names or a counter. Each splits into a committed view and what was added since,
and follows the transitions of the parse state: restore goes back to a mark, uncommit only moves
the commit point back, discard drops what is not committed, commit takes it over, extract and merge
move it elsewhere.

A transition can be refused: a mark or delta made by the other kind of slot does not fit, and a
counter does not leave its range. Over a list of slots, the slots before the first refusal are
processed and the others stay; **`Slots.fit`**, **`Slots.marksFit`** and **`Slots.deltasFit`** tell
whether nothing is refused.

* **`Slot`**, **`SlotMark`**, **`SlotDelta`** — a slot, a way back, and what was added.
* **`Slot.print`** — what later matches can depend on.
-/

namespace Packrat

/-- Kinds of slots that a parse can be given. -/
inductive SlotKind where
  /-- A list of names that later matches depend on. -/
  | names
  /-- A list of names that later matches do not depend on. -/
  | quietNames
  | counter
deriving DecidableEq, Inhabited, Repr

/-- Extra state of a parse. -/
inductive Slot where
  /-- Names, of which the first `committed` are committed. -/
  | names (quiet : Bool) (committed : Nat) (entries : List String)
  /-- A committed amount and a pending one. -/
  | counter (committed pending : Nat)
deriving DecidableEq, Inhabited, Repr

/-- A way back to an earlier slot. -/
inductive SlotMark where
  | names (committed length : Nat)
  | counter (committed pending : Nat)
deriving DecidableEq, Inhabited, Repr

/-- What was added to a slot since its commit point. -/
inductive SlotDelta where
  | names (entries : List String)
  | counter (pending : Nat)
deriving DecidableEq, Inhabited, Repr

/-- The part of a slot that a later match can depend on. -/
inductive SlotPrint where
  | names (entries : List String)
  | total (amount : Nat)
  | nothing
deriving DecidableEq, Inhabited, Repr

namespace Slot

/-- The greatest amount that a counter holds. -/
def limit : Nat := 0xffffffff

/-- A fresh slot. -/
def ofKind : SlotKind → Slot
  | .names => .names false 0 []
  | .quietNames => .names true 0 []
  | .counter => .counter 0 0

/-- Remember a slot. -/
def mark : Slot → SlotMark
  | .names _ committed entries => .names committed entries.length
  | .counter committed pending => .counter committed pending

/-- Go back to a mark. -/
def restore? : Slot → SlotMark → Option Slot
  | .names quiet _ entries, .names committed length =>
      some (.names quiet committed (entries.take length))
  | .counter _ _, .counter committed pending => some (.counter committed pending)
  | _, _ => none

/-- Keep the contents and move the commit point back to a mark. -/
def uncommit? : Slot → SlotMark → Option Slot
  | .names quiet _ entries, .names committed _ => some (.names quiet committed entries)
  | .counter committed pending, .counter earlier _ =>
      if earlier ≤ committed ∧ pending + (committed - earlier) ≤ limit then
        some (.counter earlier (pending + (committed - earlier)))
      else none
  | _, _ => none

/-- Drop what is not committed. -/
def discard : Slot → Slot
  | .names quiet committed entries => .names quiet committed (entries.take committed)
  | .counter committed _ => .counter committed 0

/-- Whether what is committed and what is not add up within the range. -/
def fits : Slot → Bool
  | .names _ _ _ => true
  | .counter committed pending => committed + pending ≤ limit

/-- Commit everything. -/
def commit? : Slot → Option Slot
  | .names quiet _ entries => some (.names quiet entries.length entries)
  | .counter committed pending =>
      if committed + pending ≤ limit then some (.counter (committed + pending) 0) else none

/-- What was added since the commit point, if anything. -/
def extract : Slot → Option SlotDelta
  | .names _ committed entries =>
      if committed < entries.length then some (.names (entries.drop committed)) else none
  | .counter _ pending => if pending = 0 then none else some (.counter pending)

/-- Append what was added elsewhere. -/
def merge? : Slot → SlotDelta → Option Slot
  | .names quiet committed entries, .names more => some (.names quiet committed (entries ++ more))
  | .counter committed pending, .counter more =>
      if pending + more ≤ limit then some (.counter committed (pending + more)) else none
  | _, _ => none

/-- What later matches can depend on. -/
def print : Slot → SlotPrint
  | .names false _ entries => .names entries
  | .names true _ _ => .nothing
  | .counter committed pending => .total (committed + pending)

end Slot

namespace Slots

/-- Whether every slot fits. -/
def fit (slots : List Slot) : Bool :=
  slots.all Slot.fits

/-- Commit slots in order, up to the first refusal. -/
def commit : List Slot → List Slot
  | [] => []
  | slot :: slots =>
      match slot.commit? with
      | some slot => slot :: commit slots
      | none => slot :: slots

/-- Apply a transition to slots and marks pairwise, up to the first refusal or the end of either
    list; the other slots stay. -/
def withMarks (step : Slot → SlotMark → Option Slot) : List Slot → List SlotMark → List Slot
  | slot :: slots, mark :: marks =>
      match step slot mark with
      | some slot => slot :: withMarks step slots marks
      | none => slot :: slots
  | slots, _ => slots

/-- Whether no slot refuses its mark, up to the end of the shorter list. -/
def marksFit (step : Slot → SlotMark → Option Slot) : List Slot → List SlotMark → Bool
  | slot :: slots, mark :: marks => (step slot mark).isSome && marksFit step slots marks
  | _, _ => true

/-- Go back to marks. -/
def restore : List Slot → List SlotMark → List Slot :=
  withMarks Slot.restore?

/-- Move commit points back to marks. -/
def uncommit : List Slot → List SlotMark → List Slot :=
  withMarks Slot.uncommit?

/-- Append deltas, each to the slot at its place, up to the first refusal. -/
def merge : List Slot → List (Option SlotDelta) → List Slot
  | slot :: slots, none :: deltas => slot :: merge slots deltas
  | slot :: slots, some delta :: deltas =>
      match slot.merge? delta with
      | some slot => slot :: merge slots deltas
      | none => slot :: slots
  | slots, _ => slots

/-- Whether every delta finds a slot that does not refuse it. -/
def deltasFit : List Slot → List (Option SlotDelta) → Bool
  | _, [] => true
  | [], deltas => deltas.all Option.isNone
  | _ :: slots, none :: deltas => deltasFit slots deltas
  | slot :: slots, some delta :: deltas => (slot.merge? delta).isSome && deltasFit slots deltas

end Slots

end Packrat
