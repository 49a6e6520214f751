import BrokerForest.Peer
import BrokerForest.Words
/-!
# Pools of candidates

A pool holds descriptions of peers, the oldest first.  It takes a peer once only, forgets
the oldest beyond its bound, and gives back the newest.

* `Pool.add`, `Pool.remove`, `Pool.contains` — by identity;
* `Pool.draw` — takes the newest away;
* `drawUsable` — draws from anything that can be drawn from until a peer is usable.
-/

namespace BrokerForest

/-- A pool of candidates, the oldest first. -/
structure Pool where
  entries : List Peer
deriving DecidableEq, Inhabited

namespace Pool

/-- A pool that holds nobody. -/
def empty : Pool := ⟨[]⟩

/-- How many are held. -/
def size (q : Pool) : Nat := q.entries.length

/-- Whether nobody is held. -/
def isEmpty (q : Pool) : Bool := q.entries.isEmpty

/-- Whether a peer is held. -/
def contains (q : Pool) (p : Peer) : Bool := p.among q.entries

/-- What a list keeps under a bound on its length: its end.  Without a bound it keeps all. -/
def keepNewest (bound : Option Nat) (entries : List Peer) : List Peer :=
  match bound with
  | some most => entries.drop (entries.length - most)
  | none => entries

/-- The pool after a peer is added.  A peer that is held already changes nothing; otherwise
it is the newest, and the oldest beyond the bound are forgotten. -/
def add (q : Pool) (bound : Option Nat) (p : Peer) : Pool :=
  if q.contains p then q else ⟨keepNewest bound (q.entries ++ [p])⟩

/-- The pool after the peers are added one by one. -/
def addAll (q : Pool) (bound : Option Nat) (peers : List Peer) : Pool :=
  peers.foldl (fun q p => q.add bound p) q

/-- The newest, and the pool without it. -/
def draw (q : Pool) : Option (Peer × Pool) :=
  q.entries.getLast?.map fun newest => (newest, ⟨q.entries.dropLast⟩)

/-- The pool without a peer. -/
def remove (q : Pool) (p : Peer) : Pool := ⟨q.entries.eraseP p.same⟩

end Pool

/-- What came of drawing until a peer was usable. -/
structure Draw (σ : Type) where
  /-- The usable peer, if there was one. -/
  found : Option Peer
  /-- Everyone drawn, in order; all but `found` were not usable. -/
  asked : List Peer
  /-- What is left. -/
  rest : σ
  /-- The words that are left. -/
  words : Words

/-- Draws at most `n` times, until a peer is usable or nobody is left. -/
def drawUsable {σ : Type} (draw : σ → Words → Option (Peer × σ) × Words)
    (usable : Peer → Bool) : Nat → σ → Words → Draw σ
  | 0, s, ws => ⟨none, [], s, ws⟩
  | n + 1, s, ws =>
    match draw s ws with
    | (none, ws) => ⟨none, [], s, ws⟩
    | (some (p, s), ws) =>
      if usable p then ⟨some p, [p], s, ws⟩
      else
        let later := drawUsable draw usable n s ws
        { later with asked := p :: later.asked }

end BrokerForest
