import BrokerForest.Session
/-!
# Tree: taking and losing one's place

* `Session.attach` — a father has accepted the node;
* `Session.newTree` — the node becomes the root of a new tree;
* `Session.depart` — a neighbor is gone.
-/

namespace BrokerForest

namespace Position

/-- The position beneath a father that has accepted the node. -/
def attach (p : Position) (self father : Peer) (rank : Rank) (acceptance : Acceptance)
    (ws : Words) : Position × Words :=
  let p := { p with
    father := some father
    neighbors := p.neighbors.add father
    global := p.global.remove father }
  let (_, p, ws) := p.settle rank ws
  let siblings := acceptance.siblings.filter fun sibling => !sibling.same self
  ({ p with regional := (p.regional.setUpstream acceptance.upstream).setSiblings siblings }, ws)

/-- The position of the root of a new tree: one token more, a fresh depth, and the former
neighborhood among the candidates. -/
def newTree (p : Position) (self : Peer) (ws : Words) : Position × Words :=
  let (depth, ws) := Depth.initial ws
  ({ p with
    rank := ⟨p.rank.color.extend self.token, depth⟩
    father := none
    fatherDepth := none
    regional := p.regional.clear
    global := p.global.merge p.regional.entries self.same }, ws)

/-- The position without a neighbor. -/
def forget (p : Position) (peer : Peer) : Position :=
  { p with neighbors := p.neighbors.remove peer }

/-- The position without a father. -/
def orphan (p : Position) : Position := { p with father := none, fatherDepth := none }

end Position

namespace Session

variable {σ : Type} [Transport σ]

/-- A father has accepted the node: it takes its place beneath it and tells its children. -/
def attach (s : Session σ) (father : Peer) (rank : Rank) (acceptance : Acceptance) :
    Session σ :=
  let (p, ws) := s.node.position.attach s.node.self father rank acceptance s.words
  let s := (s.withPosition p).withWords ws
  let s := s.note (.attachToFather father.id p.rank)
  let s := s.sendAll p.children (s.node.update s.node.chain)
  s.dropConnector

/-- The node becomes the root of a new tree and tells its children. -/
def newTree (s : Session σ) : Session σ :=
  let (p, ws) := s.node.position.newTree s.node.self s.words
  let s := (s.withPosition p).withWords ws
  let s := s.note (.newTree p.rank)
  s.sendAll p.children (s.node.update [])

/-- A neighbor is gone.  If it was the father the node looks for another, unless it is
stopped; if it was another broker, the children learn of it. -/
def depart (s : Session σ) (peer : Peer) : Session σ :=
  let p := s.node.position
  let wasFather := p.isFather peer
  let s := s.withPosition (p.forget peer)
  if !p.neighbors.isBroker peer then s
  else
    let s := s.closeLink peer
    if wasFather then
      let s := s.withPosition s.node.position.orphan
      let s := (s.note (.fatherGone peer.id)).dropConnector
      if s.node.stopped then s else s.queue (.repair peer)
    else
      let p := s.node.position
      (s.note (.siblingGone peer.id)).sendAll p.children
        (.siblingDead ⟨p.rank, p.global.snapshot, peer⟩)

end Session

end BrokerForest
