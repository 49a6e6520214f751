import BrokerForest.Pool.Basic
/-!
# The regional pool: the neighborhood in the tree

A node remembers the chain of its ancestors beyond its father, and its siblings.

* `Regional.setUpstream`, `Regional.upstreamChain` — the chain, the closest ancestor first;
* `Regional.setSiblings`, `Regional.siblings` — the siblings, the oldest first;
* `Regional.drawNext` — three times in four a sibling, where there is a choice.
-/

namespace BrokerForest

/-- The ancestors and siblings of a node.  The pool `upstream` has the farthest ancestor
first, so that the closest is drawn first. -/
structure Regional where
  upstream : Pool
  siblingPool : Pool
  upstreamMax : Nat
  siblingsMax : Nat
deriving DecidableEq

namespace Regional

/-- A regional pool that holds nobody. -/
def empty (upstreamMax siblingsMax : Nat) : Regional :=
  ⟨.empty, .empty, upstreamMax, siblingsMax⟩

/-- The ancestors, the closest first. -/
def upstreamChain (r : Regional) : List Peer := r.upstream.entries.reverse

/-- The siblings, the oldest first. -/
def siblings (r : Regional) : List Peer := r.siblingPool.entries

/-- The pool with the closest of the ancestors in a chain. -/
def setUpstream (r : Regional) (chain : List Peer) : Regional :=
  { r with upstream := Pool.empty.addAll (some r.upstreamMax) (chain.take r.upstreamMax).reverse }

/-- The pool with other siblings. -/
def setSiblings (r : Regional) (siblings : List Peer) : Regional :=
  { r with siblingPool := Pool.empty.addAll (some r.siblingsMax) siblings }

/-- The pool with one sibling more. -/
def addSibling (r : Regional) (p : Peer) : Regional :=
  { r with siblingPool := r.siblingPool.add (some r.siblingsMax) p }

/-- The pool with siblings added one by one. -/
def addSiblings (r : Regional) (siblings : List Peer) : Regional :=
  siblings.foldl addSibling r

/-- The pool without a sibling. -/
def removeSibling (r : Regional) (p : Peer) : Regional :=
  { r with siblingPool := r.siblingPool.remove p }

/-- Whether a peer is held. -/
def contains (r : Regional) (p : Peer) : Bool := r.upstream.contains p || r.siblingPool.contains p

/-- How many are held, a peer that is both ancestor and sibling twice. -/
def size (r : Regional) : Nat := r.upstream.size + r.siblingPool.size

/-- The ancestors, the closest first, and then the siblings. -/
def entries (r : Regional) : List Peer := r.upstreamChain ++ r.siblings

/-- The pool that holds nobody, under the same bounds. -/
def clear (r : Regional) : Regional := empty r.upstreamMax r.siblingsMax

/-- How often a sibling is drawn where there is also an ancestor. -/
def siblingBias : Float := 0.75

/-- The closest ancestor, and the pool without it. -/
def drawAncestor (r : Regional) : Option (Peer × Regional) :=
  r.upstream.draw.map fun (p, rest) => (p, { r with upstream := rest })

/-- The newest sibling, and the pool without it. -/
def drawSibling (r : Regional) : Option (Peer × Regional) :=
  r.siblingPool.draw.map fun (p, rest) => (p, { r with siblingPool := rest })

/-- A sibling or an ancestor, and the pool without it.  A word is taken only where there is
a choice. -/
def drawNext (r : Regional) (ws : Words) : Option (Peer × Regional) × Words :=
  if r.siblingPool.isEmpty then (r.drawAncestor, ws)
  else if r.upstream.isEmpty then (r.drawSibling, ws)
  else
    let (x, ws) := ws.unit
    (if x < siblingBias then r.drawSibling else r.drawAncestor, ws)

/-- Draws until a peer is usable. -/
def draw (r : Regional) (usable : Peer → Bool) (ws : Words) : Draw Regional :=
  drawUsable drawNext usable r.size r ws

end Regional

end BrokerForest
