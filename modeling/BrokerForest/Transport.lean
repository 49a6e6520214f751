import BrokerForest.Message
/-!
# Transports: what carries links and messages

Links are counted: opening one that is open already takes another reference to it, whether
or not the transport says so, and closing releases one.

* `Transport` — what a node can ask of the world outside it;
* `Event` — what a node experiences of it.
-/

namespace BrokerForest

/-- Why opening a link does not give a new one. -/
inductive LinkError where
  | malformedUrl (url : String)
  | refused (url : String)
  | alreadyLinked (peer : Peer)
deriving DecidableEq

namespace LinkError

/-- An error in words. -/
def message : LinkError → String
  | .malformedUrl url => "malformed url: " ++ url
  | .refused url => "connection refused: " ++ url
  | .alreadyLinked peer => "already linked to " ++ peer.label

end LinkError

/-- The sort of traffic that a message is part of. -/
inductive TrafficClass where
  | control
  | gossip
deriving DecidableEq

/-- What a node experiences. -/
inductive Event where
  | message (origin : Peer) (message : Message)
  | opened (peer : Peer)
  | closed (peer : Peer)
  | dead (peer : Peer)
deriving DecidableEq

/-- A world outside a node, in which links are opened and closed and messages sent. -/
class Transport (σ : Type) where
  /-- Opens a link to whom a URL leads to, or takes another reference to it. -/
  openLink : String → σ → Except LinkError Peer × σ
  /-- Releases one reference to the link to a peer. -/
  closeLink : Peer → σ → σ
  /-- Sends a message over the link to a peer, and says whether there is one. -/
  send : Peer → Message → TrafficClass → σ → Bool × σ

end BrokerForest
