import Packrat.Expr.Attributes
import Packrat.Ordered

/-!
# Precedence floors

A cluster runs only its levels at or above its floor. A floor is set for one cluster, or for all
of them by replacing the whole table by a default. Whoever changes a floor puts it back.

* **`Floors.floor`** — the floor of a cluster: its own entry, else the default.
-/

namespace Packrat

/-- The precedence floors in force. -/
structure Floors where
  /-- Floors set for single clusters. -/
  explicit : List (ExprId × Precedence) := []
  /-- Floor of every other cluster. -/
  fallback : Precedence := 0
deriving DecidableEq, Inhabited, Repr

namespace Floors

/-- The floor set for one cluster, if any. -/
def explicit? (f : Floors) (cluster : ExprId) : Option Precedence :=
  f.explicit.lookup cluster

/-- The floor of a cluster. -/
def floor (f : Floors) (cluster : ExprId) : Precedence :=
  (f.explicit? cluster).getD f.fallback

/-- Set the floor of a cluster. -/
def set (f : Floors) (cluster : ExprId) (floor : Precedence) : Floors :=
  { f with explicit := Ordered.insert cluster floor f.explicit }

/-- Put back what was set for a cluster. -/
def reset (f : Floors) (cluster : ExprId) (previous : Option Precedence) : Floors :=
  match previous with
  | some floor => f.set cluster floor
  | none => { f with explicit := Ordered.erase cluster f.explicit }

/-- Every cluster has the same floor. -/
def uniform (floor : Precedence) : Floors :=
  { explicit := [], fallback := floor }

end Floors

end Packrat
