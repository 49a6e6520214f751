import BrokerForest.Color
import BrokerForest.Depth
import BrokerForest.Peer
import BrokerForest.Pool.Reserve
/-!
# Messages between brokers

A broker that looks for a father sends a request and gets a response; a father keeps its
children informed; brokers tell one another of candidates.  Most messages carry the rank of
their sender: its color and its depth.

* `Request`, `Response` — one negotiation; a response accepts or says why not;
* `Message` — everything that travels over a link;
* `Message.subject` — the name of a message's kind.
-/

namespace BrokerForest

/-- Where a broker stands: its color and its depth. -/
structure Rank where
  color : Color
  depth : Depth
deriving DecidableEq, Inhabited

/-- A broker asks to become a child. -/
structure Request where
  rank : Rank
  force : Force
deriving DecidableEq

/-- Why a broker does not become a child. -/
inductive RefusalKind where
  | depthOrColor
  | maxDegree
  | minDegree
  | busy
deriving DecidableEq, Inhabited

namespace RefusalKind

/-- The name of a kind of refusal. -/
def name : RefusalKind → String
  | .depthOrColor => "NotDepthOrColor"
  | .maxDegree => "NotMaxDegree"
  | .minDegree => "NotMinDegree"
  | .busy => "Busy"

end RefusalKind

/-- Why a broker does not become a child, and whom else to ask. -/
inductive Refusal where
  | depthOrColor (hint : Option Peer)
  | maxDegree (siblings : List Peer)
  | minDegree (upstream : List Peer)
  | busy
deriving DecidableEq

namespace Refusal

/-- The kind of a refusal. -/
def kind : Refusal → RefusalKind
  | .depthOrColor _ => .depthOrColor
  | .maxDegree _ => .maxDegree
  | .minDegree _ => .minDegree
  | .busy => .busy

end Refusal

/-- What a broker learns when it is accepted: the chain above it, and its siblings. -/
structure Acceptance where
  upstream : List Peer
  siblings : List Peer
deriving DecidableEq

/-- What a request comes to. -/
inductive Answer where
  | accepted (acceptance : Acceptance)
  | refused (refusal : Refusal)
deriving DecidableEq

/-- The answer to a request, with the rank of the broker that was asked. -/
structure Response where
  rank : Rank
  answer : Answer
deriving DecidableEq

/-- A father tells its children of a child that is gone. -/
structure SiblingDead where
  rank : Rank
  candidates : List Peer
  dead : Peer
deriving DecidableEq

/-- A father tells its children of its new rank or chain.  Where nothing changes on the
way, it travels `hops` levels further down. -/
structure Update where
  rank : Rank
  upstream : List Peer
  hops : UInt32
deriving DecidableEq

/-- A father tells its children of a new child. -/
structure NewSibling where
  rank : Rank
  upstream : List Peer
  siblings : List Peer
  candidates : List Peer
  sibling : Peer
deriving DecidableEq

/-- What travels over a link. -/
inductive Message where
  | request (request : Request)
  | response (response : Response)
  | siblingDead (news : SiblingDead)
  | update (update : Update)
  | newSibling (news : NewSibling)
  | candidates (peers : List Peer)
  | goodCandidate (peer : Peer)
  | noLongerChild
deriving DecidableEq

/-- How far an update travels below the node that it has reached. -/
def Update.hopsLeft (u : Update) : UInt32 := if u.hops = 0 then 0 else u.hops - 1

namespace Response

/-- Whether a response accepts. -/
def isAcceptance (r : Response) : Bool :=
  match r.answer with
  | .accepted _ => true
  | .refused _ => false

/-- The refusal of a response that does not accept. -/
def refusal? (r : Response) : Option Refusal :=
  match r.answer with
  | .accepted _ => none
  | .refused refusal => some refusal

/-- The name of a response's kind. -/
def subject (r : Response) : String :=
  match r.answer with
  | .accepted _ => "CONNECTION_ACCEPTED"
  | .refused (.depthOrColor _) => "NOT_DEPTH_OR_COLOR"
  | .refused (.maxDegree _) => "NOT_MAX_DEGREE"
  | .refused (.minDegree _) => "NOT_MIN_DEGREE"
  | .refused .busy => "BUSY"

end Response

namespace Message

/-- The name of a message's kind. -/
def subject : Message → String
  | .request _ => "REQUEST"
  | .response r => r.subject
  | .siblingDead _ => "SIBLING_DEAD"
  | .update _ => "UPDATE"
  | .newSibling _ => "NEW_SIBLING"
  | .candidates _ => "PERIODIC_UPDATE"
  | .goodCandidate _ => "GOOD_CANDIDATE"
  | .noLongerChild => "NOLONGERCHILD"

/-- The names of all kinds of messages. -/
def subjects : List String :=
  ["REQUEST", "CONNECTION_ACCEPTED", "NOT_DEPTH_OR_COLOR", "NOT_MAX_DEGREE", "NOT_MIN_DEGREE",
   "BUSY", "SIBLING_DEAD", "UPDATE", "NEW_SIBLING", "PERIODIC_UPDATE", "GOOD_CANDIDATE",
   "NOLONGERCHILD"]

end Message

end BrokerForest
