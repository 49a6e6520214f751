import BrokerForest.Message
import BrokerForest.Neighbors
import BrokerForest.Pool.Global
import BrokerForest.Pool.Regional
import BrokerForest.Settings
/-!
# Positions: where a node stands in the forest, and whom it knows

* `Position.start` — a colorless root that knows nobody;
* `Position.children`, `chainForChildren`, `localRoot` — the tree as the node sees it;
* `Position.settle` — the rank that a child takes beneath its father's;
* `Position.hear` — candidates that others tell of.
-/

namespace BrokerForest

/-- Where a node stands, and whom it knows. -/
structure Position where
  rank : Rank
  father : Option Peer
  /-- The depth that the father last told of. -/
  fatherDepth : Option Depth
  neighbors : Neighbors
  regional : Regional
  global : Global
deriving DecidableEq

/-- What of a rank has changed. -/
structure RankChange where
  color : Bool
  depth : Bool
deriving DecidableEq

namespace Position

/-- A colorless root that knows nobody. -/
def start (settings : Settings) (ws : Words) : Position × Words :=
  let (depth, ws) := Depth.initial ws
  ({ rank := ⟨.colorless, depth⟩
     father := none
     fatherDepth := none
     neighbors := .empty
     regional := .empty settings.upstreamMax settings.maxDegree
     global := .empty settings.globalMax }, ws)

/-- Whether the node has no father. -/
def isRoot (p : Position) : Bool := p.father.isNone

/-- Whether a peer is the father. -/
def isFather (p : Position) (peer : Peer) : Bool := peer.isThe p.father

/-- The brokers beside the node other than its father. -/
def children (p : Position) : List Peer := p.neighbors.children p.father

/-- The chain above a child of the node, up to a length. -/
def chainForChildren (p : Position) (most : Nat) : List Peer :=
  (p.father.toList ++ p.regional.upstreamChain).take most

/-- The farthest ancestor that the node knows of, or the node itself. -/
def localRoot (p : Position) (self : Peer) : Peer :=
  p.regional.upstreamChain.getLast?.getD (p.father.getD self)

/-- Takes a rank beneath the father's: its color, and a depth greater than its depth. -/
def settle (p : Position) (father : Rank) (ws : Words) : RankChange × Position × Words :=
  let p := { p with fatherDepth := some father.depth }
  if p.rank.color = father.color then
    match p.rank.depth.exceed father.depth ws with
    | (some depth, ws) => (⟨false, true⟩, { p with rank := ⟨p.rank.color, depth⟩ }, ws)
    | (none, ws) => (⟨false, false⟩, p, ws)
  else
    let (depth, ws) := Depth.beneath father.depth ws
    (⟨true, true⟩, { p with rank := ⟨father.color, depth⟩ }, ws)

/-- Whether a candidate is the node itself, beside it or around it in the tree. -/
def knows (p : Position) (self candidate : Peer) : Bool :=
  candidate.same self || p.neighbors.contains candidate || p.regional.contains candidate

/-- Takes the candidates that others tell of into the global pool, but for those known or
excluded. -/
def hear (p : Position) (self : Peer) (candidates : List Peer) (excluded : Peer → Bool) :
    Position :=
  { p with global := p.global.merge candidates fun c => excluded c || p.knows self c }

/-- Excludes nobody. -/
def nobody (_ : Peer) : Bool := false

end Position

end BrokerForest
