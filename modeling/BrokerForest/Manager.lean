import BrokerForest.Dispatch
import BrokerForest.Reconfiguration
/-!
# Managing a node

What the owner of a node can have it do, and what its timers do.

* `Session.start`, `stop` — whether it takes part;
* `Session.requestJoin`, `requestReroot`, `leave` — its neighbors;
* `Session.tick` — the interval of its root connector passes;
* `Session.gossip` — it tells some candidates of others.
-/

namespace BrokerForest

namespace Session

variable {σ : Type} [Transport σ]

/-- A stopped node starts; a root looks for a tree to join from then on. -/
def start (s : Session σ) : Session σ :=
  if s.node.stopped then
    let s := s.withNode { s.node with stopped := false }
    if s.node.position.isRoot then s.startConnector else s
  else s

/-- The node stops. -/
def stop (s : Session σ) : Session σ :=
  (s.withNode { s.node with stopped := true }).dropConnector

/-- The node is to join the tree of the peer at a URL. -/
def requestJoin (s : Session σ) (url : String) : Session σ :=
  if s.node.stopped then s.finish (.joined (.error .stopped))
  else
    match s.node.position.father with
    | some father => s.finish (.joined (.error (.attached father)))
    | none => s.queue (.join url)

/-- The node is to become the root of a new tree. -/
def requestReroot (s : Session σ) : Session σ := s.queue .reroot

/-- The node parts from a neighbor. -/
def leave (s : Session σ) (peer : Peer) : Session σ :=
  if s.node.position.neighbors.contains peer then (s.tell peer .noLongerChild).depart peer
  else s

/-- The interval of the root connector passes.  A node that is stopped or has a father
needs it no more. -/
def tick (s : Session σ) : Session σ :=
  match s.node.connector with
  | none => s
  | some c =>
    if c.ticker.isWaiting then
      let s := s.withNode { s.node with connector := some { c with ticker := c.ticker.fire } }
      if s.node.stopped || !s.node.position.isRoot then
        s.withNode (s.node.settleConnector (some c.serial) .stop)
      else s.queue (.connect c.serial)
    else s

/-- A round of gossip: some candidates of the global pool are told of others. -/
def gossip (s : Session σ) : Session σ :=
  let g := s.node.position.global
  let (payload, ws) := g.sample s.node.settings.payloadFraction [] s.words
  let (recipients, ws) := g.sample s.node.settings.recipientFraction payload ws
  let s := s.withWords ws
  if payload.isEmpty || recipients.isEmpty then s
  else
    let s := recipients.foldl (fun s p => s.sendTransient p (.candidates payload) .gossip) s
    s.note (.gossip payload.length recipients.length)

end Session

end BrokerForest
