import BrokerForest.Transport
/-!
# Outcomes: what negotiations and searches come to

* `Outcome.Negotiation` — what asking one peer comes to;
* `JoinError` — why a node does not join the tree of the peer at a URL;
* `Outcome` — what ends a reconfiguration of a node.
-/

namespace BrokerForest

/-- Why a negotiation fails without an answer. -/
inductive NegotiationError where
  | link (error : LinkError)
  | notConnected (peer : Peer)
  | unreachable (peer : Peer)
deriving DecidableEq

namespace NegotiationError

/-- An error in words. -/
def message : NegotiationError → String
  | .link error => error.message
  | .notConnected peer => "not connected to " ++ peer.label
  | .unreachable peer => peer.label ++ " is unreachable"

end NegotiationError

/-- What asking one peer comes to. -/
inductive NegotiationResult where
  | accepted (father : Peer)
  | refused (peer : Peer) (rank : Rank) (refusal : Refusal)
  | selfConnect
  | failed (error : NegotiationError)
deriving DecidableEq

/-- Why a node does not join the tree of the peer at a URL. -/
inductive JoinError where
  | attached (father : Peer)
  | failed (error : NegotiationError)
  | rejected (reason : RefusalKind)
  | stopped
deriving DecidableEq

namespace JoinError

/-- An error in words. -/
def message : JoinError → String
  | .attached father => "already attached beneath " ++ father.label
  | .failed error => error.message
  | .rejected reason => "rejected: " ++ reason.name
  | .stopped => "the manager is stopped"

end JoinError

/-- What ends a reconfiguration of a node. -/
inductive Outcome where
  | asked (result : NegotiationResult)
  | joined (result : Except JoinError Peer)
  | searched (father : Option Peer)

end BrokerForest
