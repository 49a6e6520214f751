import BrokerForest.Decimal
import BrokerForest.Words
/-!
# Depths: where a node stands within its tree

Depths are real numbers that grow from a root to the leaves of its tree.  A node picks its
own, with a little jitter, so that depths chosen apart rarely collide.

* `Depth.initial` — the depth of a node on its own;
* `Depth.beneath` — a depth for a child of a node;
* `Depth.exceed` — move down past a father, if not there yet;
* `Depth.rise` — move up past a requester, if not there yet;
* `Depth.undercut` — the same, staying below one's own father: already there, a draw that
  fits, the midpoint, or no room.
-/

namespace BrokerForest

/-- A depth. -/
structure Depth where
  value : Float
deriving DecidableEq, Inhabited

namespace Depth

instance : LT Depth := ⟨fun a b => a.value < b.value⟩

instance (a b : Depth) : Decidable (a < b) :=
  inferInstanceAs (Decidable (a.value < b.value))

instance : LE Depth := ⟨fun a b => a.value ≤ b.value⟩

instance (a b : Depth) : Decidable (a ≤ b) :=
  inferInstanceAs (Decidable (a.value ≤ b.value))

/-- How far beneath its father a child settles, before jitter. -/
def stride : Float := 1.0

/-- The bound of the jitter. -/
def jitter : Float := 0.1

/-- How often the gap beneath a bound is halved before the midpoint is tried. -/
def shrinks : Nat := 64

/-- Whether a depth is no number.  Such a depth is neither above nor below any other. -/
def isNaN (d : Depth) : Bool := d.value.isNaN

/-- How two depths compare; one that is no number does not compare at all. -/
def order (a b : Depth) : Option Ordering :=
  if a < b then some .lt
  else if b < a then some .gt
  else if a.value == b.value then some .eq
  else none

/-- The depth of a node on its own. -/
def initial (ws : Words) : Depth × Words :=
  let (r, ws) := ws.real 0.0 jitter
  (⟨r⟩, ws)

/-- A depth for a child of a node at `bound`. -/
def beneath (bound : Depth) (ws : Words) : Depth × Words :=
  let (r, ws) := ws.real 0.0 jitter
  (⟨bound.value + stride + r⟩, ws)

/-- A depth a stride above `bound`, with nothing to stay below. -/
def above (bound : Depth) (ws : Words) : Depth × Words :=
  let (r, ws) := ws.real 0.0 jitter
  (⟨bound.value - stride - r⟩, ws)

/-- A depth greater than `bound` in place of `d`; none if `d` is greater already. -/
def exceed (d bound : Depth) (ws : Words) : Option Depth × Words :=
  if bound < d then (none, ws)
  else
    let (lower, ws) := beneath bound ws
    (some lower, ws)

/-- Whether a depth lies strictly between two others. -/
def Between (floor bound d : Depth) : Prop := floor < d ∧ d < bound

instance (floor bound d : Depth) : Decidable (Between floor bound d) :=
  inferInstanceAs (Decidable (_ ∧ _))

/-- Up to `n` draws from a gap beneath `bound` that halves each time, until one is
above `floor`. -/
def drawBetween (floor bound : Depth) : Nat → Float → Words → Option Depth × Words
  | 0, _, ws => (none, ws)
  | n + 1, gap, ws =>
    let (r, ws) := ws.real 0.5 1.0
    let candidate : Depth := ⟨bound.value - gap * r⟩
    if Between floor bound candidate then (some candidate, ws)
    else drawBetween floor bound n (gap / 2.0) ws

/-- The depth halfway between two others, as doubles compute it. -/
def midpoint (floor bound : Depth) : Depth :=
  ⟨floor.value + (bound.value - floor.value) / 2.0⟩

/-- A depth less than `bound` in place of `d`, with nothing to stay below. -/
def rise (d bound : Depth) (ws : Words) : Depth × Words :=
  if d < bound then (d, ws) else above bound ws

/-- A depth less than `bound` in place of `d`, and greater than `floor` if there is one;
none if there is no room. -/
def undercut (d bound : Depth) (floor : Option Depth) (ws : Words) : Option Depth × Words :=
  match floor with
  | none =>
    let (higher, ws) := rise d bound ws
    (some higher, ws)
  | some floor =>
    if Between floor bound d then (some d, ws)
    else if bound ≤ floor then (none, ws)
    else
      match drawBetween floor bound shrinks stride ws with
      | (some candidate, ws) => (some candidate, ws)
      | (none, ws) =>
        let middle := midpoint floor bound
        if Between floor bound middle then (some middle, ws) else (none, ws)

/-- A depth as the event lines show it, with four decimal places. -/
def label (d : Depth) : String := Decimal.fixed 4 d.value

end Depth

end BrokerForest
