import BrokerForest.Mailbox
import BrokerForest.Pool.Search
import BrokerForest.Position
import BrokerForest.Slot
import BrokerForest.Ticker
/-!
# Nodes

A node has its position in the forest, the slot that its reconfigurations take turns in,
the mailbox of the negotiation that goes on, and the root connector, a ticker by which a
root looks for another tree to join.

* `Search` — a search for a father;
* `Negotiation` — a request that is under way, and what it is for;
* `Holder` — what holds the slot, and how far it has come;
* `Errand` — a reconfiguration that waits for the slot;
* `Node` — all of a node.
-/

namespace BrokerForest

/-- A search for a father. -/
structure Search where
  /-- The father whose loss began the search. -/
  dead : Option Peer
  /-- Whether the node remains what it is if there is no father for it. -/
  asRoot : Bool
  /-- The root connector that runs the search. -/
  connector : Option Nat
  pools : SearchPools
  /-- Who was tried, each with the kind of pool it came from, the last first. -/
  tried : List (NodeId × PoolKind)
  tries : Nat
deriving DecidableEq

namespace Search

/-- Whether a candidate from a kind of pool may be tried. -/
def admits (search : Search) (self : Peer) (neighbors : Neighbors) (candidate : Peer)
    (kind : PoolKind) : Bool :=
  !candidate.same self && !candidate.isThe search.dead &&
    !search.tried.contains (candidate.id, kind) && !neighbors.contains candidate

/-- The search once a candidate is tried. -/
def mark (search : Search) (pools : SearchPools) (candidate : Candidate) : Search :=
  { search with
    pools := pools
    tried := (candidate.peer.id, candidate.source) :: search.tried
    tries := search.tries + 1 }

/-- The search after a peer's refusal.  A hint that leads back to the node is none. -/
def learn (search : Search) (self peer : Peer) (refusal : Refusal) : Search :=
  let pools := match refusal with
    | .busy => search.pools.onBusy peer
    | .maxDegree siblings => search.pools.onMaxDegree peer siblings
    | .minDegree upstream => search.pools.onMinDegree peer upstream
    | .depthOrColor none => search.pools
    | .depthOrColor (some hint) =>
      if hint.same self then search.pools else search.pools.onHint hint
  { search with pools := pools }

end Search

/-- What a negotiation is for. -/
inductive Purpose where
  /-- To ask one peer. -/
  | ask
  /-- To join the tree of the peer at a URL. -/
  | join
  /-- To try a candidate of a search, from a kind of pool. -/
  | search (search : Search) (source : PoolKind)
deriving DecidableEq

/-- A request that is under way. -/
structure Negotiation where
  peer : Peer
  purpose : Purpose
deriving DecidableEq

/-- Whom a node is about to ask. -/
structure Attempt where
  url : String
  force : Force
  purpose : Purpose
deriving DecidableEq

/-- What holds a node's slot, and how far it has come.  Wherever it lets go of the node between
two steps, the node may handle events. -/
inductive Holder where
  /-- Someone outside, who does nothing with it. -/
  | outsider
  /-- A search between two candidates. -/
  | searching (search : Search)
  /-- Someone is to be asked, and no link is open yet. -/
  | opening (attempt : Attempt)
  /-- The link is open, and the request is made up. -/
  | asking (negotiation : Negotiation) (request : Request)
  /-- A negotiation that waits for its answer. -/
  | negotiating (negotiation : Negotiation)
  /-- A negotiation whose request did not go out. -/
  | retreating (negotiation : Negotiation)
  /-- The father is told that the node leaves it. -/
  | leaving (father : Peer)
  /-- The node is to become the root of a new tree, either because a search has found nobody to
  repair its tree with or because it was told to. -/
  | founding (repair : Bool)
deriving DecidableEq

namespace Holder

/-- Whether the holder of a slot has something left to do. -/
def isEngaged : Holder → Bool
  | .outsider => false
  | _ => true

/-- Whether the holder of a slot can go on whatever happens. -/
def isReady : Holder → Bool
  | .outsider | .negotiating _ => false
  | _ => true

/-- Whether the holder of a slot is looking for a father, or was. -/
def isSeeking : Holder → Bool
  | .outsider | .leaving _ | .founding false => false
  | _ => true

/-- The negotiation for which a link is open. -/
def negotiation? : Holder → Option Negotiation
  | .asking negotiation _ | .negotiating negotiation | .retreating negotiation => some negotiation
  | _ => none

/-- Whether there is a wait for an answer. -/
def isWaiting : Holder → Bool
  | .negotiating _ | .retreating _ => true
  | _ => false

end Holder

/-- A reconfiguration that waits for the slot. -/
inductive Errand where
  /-- The father is gone: find another. -/
  | repair (dead : Peer)
  /-- The interval of a root connector has passed: find a tree to join. -/
  | connect (connector : Nat)
  /-- Join the tree of the peer at a URL. -/
  | join (url : String)
  /-- Become the root of a new tree. -/
  | reroot
deriving DecidableEq

/-- A root connector, and which of those that the node started it is. -/
structure Connector where
  serial : Nat
  ticker : Ticker
deriving DecidableEq

/-- A node. -/
structure Node where
  settings : Settings
  self : Peer
  position : Position
  slot : Slot Holder
  mailbox : Mailbox
  /-- What waits for the slot, the longest waiting first. -/
  errands : List Errand
  connector : Option Connector
  /-- How many root connectors the node has started. -/
  connectors : Nat
  stopped : Bool
deriving DecidableEq

namespace Node

/-- A stopped node at the start of its life. -/
def start (settings : Settings) (self : Peer) (ws : Words) : Node × Words :=
  let (position, ws) := Position.start settings ws
  ({ settings := settings
     self := self
     position := position
     slot := .free
     mailbox := .empty
     errands := []
     connector := none
     connectors := 0
     stopped := true }, ws)

/-- Whether a reconfiguration of the node goes on. -/
def isEngaged (n : Node) : Bool := n.slot.holder.any Holder.isEngaged

/-- Whether a reconfiguration of the node can go on whatever happens. -/
def isReady (n : Node) : Bool := n.slot.holder.any Holder.isReady

/-- Whether the node is looking for a father. -/
def isSeeking (n : Node) : Bool := n.slot.holder.any Holder.isSeeking

/-- The negotiation for which the node has opened a link. -/
def negotiation? (n : Node) : Option Negotiation := n.slot.holder.bind Holder.negotiation?

/-- Whether the node waits for an answer. -/
def isWaiting (n : Node) : Bool := n.slot.holder.any Holder.isWaiting

/-- Whether a root connector waits for the end of its interval. -/
def isConnecting (n : Node) : Bool := n.connector.any fun c => c.ticker.isWaiting

/-- The node with an errand more. -/
def queue (n : Node) (errand : Errand) : Node := { n with errands := n.errands ++ [errand] }

/-- The node with a new root connector, in place of any before it. -/
def startConnector (n : Node) : Node :=
  { n with connector := some ⟨n.connectors, .start⟩, connectors := n.connectors + 1 }

/-- The node without a root connector. -/
def dropConnector (n : Node) : Node := { n with connector := none }

/-- The node after the search of a root connector, which runs again or not.  Nothing comes
of it if the connector was replaced meanwhile. -/
def settleConnector (n : Node) (serial : Option Nat) (outcome : TickOutcome) : Node :=
  match n.connector with
  | none => n
  | some c =>
    if serial = some c.serial then
      { n with connector := some { c with ticker := c.ticker.settle outcome } }
    else n

/-- The chain above a child of the node. -/
def chain (n : Node) : List Peer := n.position.chainForChildren n.settings.upstreamMax

/-- The message that tells the children of the node's rank and chain. -/
def update (n : Node) (upstream : List Peer) : Message :=
  .update ⟨n.position.rank, upstream, n.settings.hops⟩

end Node

end BrokerForest
