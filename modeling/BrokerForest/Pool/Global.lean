import BrokerForest.Binary64
import BrokerForest.Pool.Basic
/-!
# The global pool: candidates from anywhere in the forest

* `Global.add`, `Global.merge`, `Global.remove` — the pool of candidates heard of;
* `Global.hint` — one good candidate, drawn before all others;
* `Global.fork` — a search takes a copy of the pool, and the hint with it;
* `Global.sample` — a random part of the pool.
-/

namespace BrokerForest

/-- The candidates heard of, and the hint. -/
structure Global where
  pool : Pool
  hint : Option Peer
  most : Nat
deriving DecidableEq

namespace Global

/-- A global pool that holds nobody. -/
def empty (most : Nat) : Global := ⟨.empty, none, most⟩

/-- The pool with one candidate more. -/
def add (g : Global) (p : Peer) : Global := { g with pool := g.pool.add (some g.most) p }

/-- The pool with candidates added one by one, but for those excluded. -/
def merge (g : Global) (candidates : List Peer) (excluded : Peer → Bool) : Global :=
  { g with pool := g.pool.addAll (some g.most) (candidates.filter fun p => !excluded p) }

/-- The pool with another hint. -/
def setHint (g : Global) (p : Peer) : Global := { g with hint := some p }

/-- What a search leaves behind of the pool it takes a copy of: all but the hint. -/
def withoutHint (g : Global) : Global := { g with hint := none }

/-- The copy that a search takes, and what it leaves behind. -/
def fork (g : Global) : Global × Global := (g, g.withoutHint)

/-- The pool without a candidate, which is not the hint any more either. -/
def remove (g : Global) (p : Peer) : Global :=
  { g with pool := g.pool.remove p, hint := if p.isThe g.hint then none else g.hint }

/-- How many are held, the hint counted apart. -/
def size (g : Global) : Nat := g.pool.size + (if g.hint.isSome then 1 else 0)

/-- The candidates, the oldest first, without the hint. -/
def snapshot (g : Global) : List Peer := g.pool.entries

/-- The hint, or the newest candidate. -/
def drawNext (g : Global) (ws : Words) : Option (Peer × Global) × Words :=
  match g.hint with
  | some p => (some (p, g.withoutHint), ws)
  | none => (g.pool.draw.map fun (p, rest) => (p, { g with pool := rest }), ws)

/-- Draws until a peer is usable. -/
def draw (g : Global) (usable : Peer → Bool) (ws : Words) : Draw Global :=
  drawUsable drawNext usable g.size g ws

/-- A fraction, brought between zero and one. -/
def clamp (fraction : Float) : Float :=
  if fraction < 0.0 then 0.0 else if 1.0 < fraction then 1.0 else fraction

/-- The whole number nearest to a fraction of `count`, a half going up; zero if the
fraction is no number. -/
def share (count : Nat) (fraction : Float) : Nat :=
  match Binary64.read (count.toFloat * clamp fraction) with
  | .finite false mantissa exponent => Binary64.scaled .up 1 mantissa exponent
  | _ => 0

/-- The candidates that are not ignored. -/
def eligible (g : Global) (ignored : List Peer) : List Peer :=
  g.pool.entries.filter fun p => !p.among ignored

/-- A random fraction of the candidates that are not ignored, in the order of drawing. -/
def sample (g : Global) (fraction : Float) (ignored : List Peer) (ws : Words) :
    List Peer × Words :=
  let eligible := g.eligible ignored
  Words.choose (share eligible.length fraction) eligible ws

end Global

end BrokerForest
