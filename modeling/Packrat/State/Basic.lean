import Packrat.Capture.Buffer
import Packrat.State.Floors
import Packrat.State.Seeds

/-!
# Parse state

The state of a parse is where its committed view ends, where its uncommitted view ends, whether
failures are recorded, and the captures, seeds, floors and slots. An expression is matched with an
empty uncommitted view; if it matches, the uncommitted view holds its effects.

* **`ParseState.snapshot`** — a way back; **`restore`** goes there and **`uncommit`** only moves the
  commit point there.
* **`ParseState.discard`**, **`commit`** — the uncommitted view is dropped or taken over.
* **`ParseState.extract`**, **`merge`** — the uncommitted view as changes, and their replay.
* **`ParseState.fingerprint`** — everything that can change what a match does.
* **`ParseState.countersFit`**, **`canRestore`**, **`canUncommit`**, **`canMerge`** — whether no slot
  refuses a transition. One that is refused has moved the positions and the captures, and the slots
  before the one that refused.
-/

namespace Packrat

/-- State threaded through a parse. -/
structure ParseState where
  /-- End of the committed view. -/
  start : Nat := 0
  /-- End of the uncommitted view: the current position. -/
  stop : Nat := 0
  /-- Whether failures are recorded. -/
  recording : Bool := true
  captures : CaptureBuffer := {}
  seeds : Seeds ExactDigest := Seeds.empty
  floors : Floors := {}
  slots : List Slot := []

/-- A way back to a parse state. -/
structure Snapshot where
  start : Nat
  stop : Nat
  captures : CaptureMark
  slots : List SlotMark
deriving DecidableEq, Inhabited, Repr

/-- What decides how an expression matches at a position. -/
structure Fingerprint where
  seeds : ExactDigest
  floors : Floors
  slots : List SlotPrint
  recording : Bool
deriving DecidableEq, Inhabited, Repr

namespace ParseState

/-- The state at the start of a parse with the given slots. -/
def initial (kinds : List SlotKind) : ParseState :=
  { slots := kinds.map Slot.ofKind }

/-- Remember the state. -/
def snapshot (s : ParseState) : Snapshot :=
  { start := s.start, stop := s.stop, captures := s.captures.mark
    slots := s.slots.map Slot.mark }

/-- Go back to a snapshot. Seeds and floors are put back by whoever changed them. -/
def restore (s : ParseState) (m : Snapshot) : ParseState :=
  { s with
    start := m.start
    stop := m.stop
    captures := s.captures.restore m.captures
    slots := Slots.restore s.slots m.slots }

/-- Keep everything and move the commit point back to a snapshot. -/
def uncommit (s : ParseState) (m : Snapshot) : ParseState :=
  { s with
    start := m.start
    captures := s.captures.uncommit m.captures
    slots := Slots.uncommit s.slots m.slots }

/-- Drop the uncommitted view. -/
def discard (s : ParseState) : ParseState :=
  { s with
    stop := s.start
    captures := s.captures.discard
    slots := s.slots.map Slot.discard }

/-- Take over the uncommitted view. -/
def commit (s : ParseState) : ParseState :=
  { s with
    start := s.stop
    captures := s.captures.commit
    slots := Slots.commit s.slots }

/-- The uncommitted view as changes. -/
def extract (s : ParseState) : Changes :=
  { stop := s.stop, captures := s.captures.extract, slots := s.slots.map Slot.extract }

/-- Replay changes on top of the uncommitted view. -/
def merge (s : ParseState) (c : Changes) : ParseState :=
  { s with
    stop := c.stop
    captures := s.captures.merge c.captures
    slots := Slots.merge s.slots c.slots }

/-- Whether every counter adds up within its range, so that the state can be committed and has a
    fingerprint. -/
def countersFit (s : ParseState) : Bool :=
  Slots.fit s.slots

/-- Whether the slots can go back to a snapshot. -/
def canRestore (s : ParseState) (m : Snapshot) : Bool :=
  Slots.marksFit Slot.restore? s.slots m.slots

/-- Whether the commit points of the slots can move back to a snapshot. -/
def canUncommit (s : ParseState) (m : Snapshot) : Bool :=
  Slots.marksFit Slot.uncommit? s.slots m.slots

/-- Whether changes can be replayed on the slots. -/
def canMerge (s : ParseState) (c : Changes) : Bool :=
  Slots.deltasFit s.slots c.slots

/-- Move the current position. -/
def moveTo (s : ParseState) (stop : Nat) : ParseState :=
  { s with stop }

/-- Append a name to the list of names at `index`, if there is one. -/
def pushName? (s : ParseState) (index : Nat) (name : String) : Option ParseState :=
  match s.slots[index]? with
  | some (.names quiet committed entries) =>
      some { s with slots := s.slots.set index (.names quiet committed (entries ++ [name])) }
  | _ => none

/-- The counter at `index`, if there is one, as its committed and its pending amount. -/
def counter? (s : ParseState) (index : Nat) : Option (Nat × Nat) :=
  match s.slots[index]? with
  | some (.counter committed pending) => some (committed, pending)
  | _ => none

/-- The state with the counter at `index` set. -/
def setCounter (s : ParseState) (index committed pending : Nat) : ParseState :=
  { s with slots := s.slots.set index (.counter committed pending) }

/-- What decides later matches, whether or not failures are recorded. -/
def fingerprint (s : ParseState) : Fingerprint :=
  { seeds := s.seeds.digest, floors := s.floors, slots := s.slots.map Slot.print
    recording := false }

/-- Short text of a state. -/
def inspect (s : ParseState) : String :=
  s!"ParseState \x7b start: {s.start}, end: {s.stop}, record_errors: {s.recording}, " ++
    s!"captures: {s.captures.length}, seeds: {s.seeds.length}, extensions: {s.slots.length} \x7d"

end ParseState

/-- Short text of a snapshot. -/
def Snapshot.inspect (m : Snapshot) : String :=
  s!"Snapshot \x7b start: {m.start}, end: {m.stop}, capture: CaptureSnapshot \x7b committed: " ++
    s!"{m.captures.committed}, len: {m.captures.length} \x7d, .. \x7d"

end Packrat
