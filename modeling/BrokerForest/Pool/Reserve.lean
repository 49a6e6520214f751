import BrokerForest.Duration
import BrokerForest.Pool.Basic
/-!
# Reserves: the pools that refusals fill

A search keeps the peers that refused it, and those that were named in a refusal, in pools
of its own.  Peers from some of them are asked with force; before a peer from a delayed one
the search pauses for a random time.

* `Force` — which bounds on its degree a peer is asked to overlook;
* `Reserve.draw` — the newest usable peer, and the pause before it is asked.
-/

namespace BrokerForest

/-- The bounds on its degree that a peer is asked to overlook. -/
structure Force where
  maxDegree : Bool
  minDegree : Bool
deriving DecidableEq, Inhabited

namespace Force

/-- To overlook nothing. -/
def none : Force := ⟨false, false⟩

/-- To overlook the upper bound. -/
def overMax : Force := ⟨true, false⟩

/-- To overlook the lower bound. -/
def underMin : Force := ⟨false, true⟩

end Force

/-- A pool with a bound, whose peers are asked with the same force. -/
structure Reserve where
  pool : Pool
  bound : Option Nat
  force : Force
  delay : Option Duration
deriving DecidableEq

namespace Reserve

/-- An empty reserve whose peers are asked without force. -/
def plain (most : Nat) : Reserve := ⟨.empty, some most, .none, none⟩

/-- An empty reserve whose peers are asked with force. -/
def forced (force : Force) (most : Nat) : Reserve := { plain most with force := force }

/-- An empty reserve without a bound, whose peers are asked after a pause. -/
def delayed (delay : Duration) : Reserve := ⟨.empty, none, .none, some delay⟩

/-- How many are held. -/
def size (r : Reserve) : Nat := r.pool.size

/-- The reserve after a peer is added. -/
def add (r : Reserve) (p : Peer) : Reserve := { r with pool := r.pool.add r.bound p }

/-- The reserve after the peers are added one by one. -/
def addAll (r : Reserve) (peers : List Peer) : Reserve :=
  { r with pool := r.pool.addAll r.bound peers }

/-- The newest in a reserve, and the reserve without it.  No word is taken. -/
def drawNewest (r : Reserve) (ws : Words) : Option (Peer × Reserve) × Words :=
  (r.pool.draw.map fun (p, rest) => (p, { r with pool := rest }), ws)

/-- The pause, in milliseconds, before a peer from a reserve is asked. -/
def pause (r : Reserve) (ws : Words) : Option Nat × Words :=
  match r.delay with
  | none => (none, ws)
  | some delay =>
    if delay.milliseconds = 0 then (none, ws)
    else
      let (n, ws) := ws.below delay.milliseconds
      (some n, ws)

/-- Draws until a peer is usable. -/
def draw (r : Reserve) (usable : Peer → Bool) (ws : Words) : Draw Reserve :=
  drawUsable drawNewest usable r.size r ws

end Reserve

end BrokerForest
