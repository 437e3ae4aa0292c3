import Packrat.Capture.Node
import Packrat.State.Slot

/-!
# Changes: the effects of a successful match

What a match did, in a form that can be replayed: the position it reached, the nodes it captured
and what it added to each slot. Memo entries and seeds are changes.
-/

namespace Packrat

/-- Replayable effects of a match. -/
structure Changes where
  /-- Position reached. -/
  stop : Nat
  captures : List CaptureNode := []
  /-- What was added to the slot at each place. -/
  slots : List (Option SlotDelta) := []
deriving Inhabited

/-- Changes that only move the position. -/
def Changes.at (stop : Nat) : Changes := { stop }

end Packrat
