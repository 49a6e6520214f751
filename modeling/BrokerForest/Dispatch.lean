import BrokerForest.Admission
import BrokerForest.Tree
/-!
# Dispatch: handling what a node experiences

* `Session.onEvent` — any event is handled;
* `Session.onMessage` — a message is handled according to its kind.

News of the tree counts only if it comes from the father.
-/

namespace BrokerForest

namespace Position

/-- The position after the father tells of a sibling that is gone. -/
def onSiblingDead (p : Position) (self : Peer) (news : SiblingDead) : Position :=
  { p with
    regional := p.regional.removeSibling news.dead
    fatherDepth := some news.rank.depth }.hear self news.candidates news.dead.same

/-- The position after the father tells of a new sibling. -/
def onNewSibling (p : Position) (self : Peer) (news : NewSibling) : Position :=
  let siblings := (news.siblings ++ [news.sibling]).filter fun sibling => !sibling.same self
  { p with
    fatherDepth := some news.rank.depth
    regional := (p.regional.setUpstream news.upstream).addSiblings siblings
    }.hear self news.candidates nobody

/-- The position after a candidate is recommended. -/
def onGoodCandidate (p : Position) (self candidate : Peer) : Position :=
  if candidate.same self then p else { p with global := p.global.setHint candidate }

end Position

namespace Session

variable {σ : Type} [Transport σ]

/-- A response goes into the mailbox.  One that nobody waits for is a violation; an
acceptance among them is turned down, as its sender takes the node for a child. -/
def onResponse (s : Session σ) (origin : Peer) (response : Response) : Session σ :=
  match s.node.mailbox.deliver origin response with
  | .ok mailbox => s.withNode { s.node with mailbox := mailbox }
  | .error _ =>
    let s := s.note (.violation origin.id response.subject)
    if response.isAcceptance then s.sendTransient origin .noLongerChild .control else s

/-- The father's rank or chain has changed.  The children are told if the node's rank
changes with it, or if the news is to travel further. -/
def onUpdate (s : Session σ) (origin : Peer) (news : Update) : Session σ :=
  let p := s.node.position
  if !p.isFather origin then s
  else
    let p := { p with regional := p.regional.setUpstream news.upstream }
    let (change, p, ws) := p.settle news.rank s.words
    let s := (s.withPosition p).withWords ws
    if change.color || change.depth || 0 < news.hops then
      s.sendAll p.children (.update ⟨p.rank, s.node.chain, news.hopsLeft⟩)
    else s

/-- A message is handled. -/
def onMessage (s : Session σ) (origin : Peer) (message : Message) : Session σ :=
  let p := s.node.position
  let self := s.node.self
  match message with
  | .request request => s.examine origin request
  | .response response => s.onResponse origin response
  | .siblingDead news =>
    if p.isFather origin then s.withPosition (p.onSiblingDead self news) else s
  | .update news => s.onUpdate origin news
  | .newSibling news =>
    if p.isFather origin && !news.sibling.same self then
      s.withPosition (p.onNewSibling self news)
    else s
  | .candidates peers => s.withPosition (p.hear self peers Position.nobody)
  | .goodCandidate peer => s.withPosition (p.onGoodCandidate self peer)
  | .noLongerChild => s.depart origin

/-- An event is handled.  Brokers become neighbors only by a request, clients by their
link. -/
def onEvent (s : Session σ) (event : Event) : Session σ :=
  match event with
  | .message origin message => s.onMessage origin message
  | .opened peer =>
    if peer.broker then s
    else
      let p := s.node.position
      s.withPosition { p with neighbors := p.neighbors.add peer }
  | .closed peer | .dead peer =>
    let s := s.withNode { s.node with mailbox := s.node.mailbox.cancel peer }
    s.depart peer

end Session

end BrokerForest
