import BrokerForest.Tree
/-!
# Negotiations: asking a peer to be the father

A negotiation opens a link, sends its request over it, and takes what its mailbox holds by
the time the wait is over.  Between any two of these steps the node goes on handling events.

* `Session.contact` — a link is opened to whom is to be asked;
* `Session.ask` — the request is sent;
* `Session.giveUp` — a request that did not go out is given up;
* `Session.conclude` — the wait for an answer is over.
-/

namespace BrokerForest

namespace Session

variable {σ : Type} [Transport σ]

/-- The session with another mailbox. -/
def withMailbox (s : Session σ) (mailbox : Mailbox) : Session σ :=
  s.withNode { s.node with mailbox := mailbox }

/-- A link is opened to whom is to be asked, and the request is made up of the rank that the
node has then; or there is nobody to be asked. -/
def contact (s : Session σ) (url : String) (force : Force) :
    Except NegotiationResult (Peer × Request) × Session σ :=
  match s.openLink url with
  | (.error error, s) => (.error (.failed (.link error)), s)
  | (.ok peer, s) =>
    if peer.same s.node.self then (.error .selfConnect, s.closeLink peer)
    else (.ok (peer, ⟨s.node.position.rank, force⟩), s)

/-- The wait for an answer begins, and the request is sent, if it can be. -/
def ask (s : Session σ) (peer : Peer) (request : Request) : Bool × Session σ :=
  (s.withMailbox (s.node.mailbox.expect peer)).send peer (.request request) .control

/-- A request to a peer did not go out.  Whatever was delivered for it meanwhile is lost. -/
def giveUp (s : Session σ) (peer : Peer) : NegotiationResult × Session σ :=
  (.failed (.notConnected peer), (s.withMailbox .empty).closeLink peer)

/-- The wait for a peer's answer is over.  The link is kept only to a father. -/
def conclude (s : Session σ) (peer : Peer) : NegotiationResult × Session σ :=
  let collected := s.node.mailbox.collect
  let s := s.withMailbox .empty
  match collected with
  | .error _ => (.failed (.unreachable peer), s.closeLink peer)
  | .ok response =>
    match response.answer with
    | .accepted acceptance => (.accepted peer, s.attach peer response.rank acceptance)
    | .refused refusal => (.refused peer response.rank refusal, s.closeLink peer)

end Session

end BrokerForest
