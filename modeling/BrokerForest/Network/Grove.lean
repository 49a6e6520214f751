import BrokerForest.Network.Mesh
/-!
# Groves: networks that come to rest between operations

A grove is a finite network of running brokers over a transport that loses nothing.  Links
are counted: a link between two nodes is there as long as its ends hold references to it,
and what goes over it arrives in order.  Operations start when the grove is at rest.  What
an operation causes happens in any order, but for searches: one begins when none goes on,
and when all that another has caused is over.  Then it goes on step by step, and what is on
its way may arrive between any two of its steps.

* `Atlas` — the nodes of a network, and whom its URLs lead to;
* `Berth` — the transport as one node sees it;
* `Grove` — the nodes that live, the references to their links, and what is on its way;
* `Grove.Step`, `Grove.Reachable` — what can happen, and what a grove can come to;
* `Grove.AtRest`, `Grove.Agrees` — that nothing is left to do, and that both ends of every
  edge have the same idea of it.
-/

namespace BrokerForest

/-- The nodes of a network, and whom its URLs lead to. -/
structure Atlas where
  peers : List Peer
  resolve : String → Option Peer
  distinct : (peers.map Peer.id).Nodup
  brokers : ∀ p ∈ peers, p.broker = true
  resolves : ∀ p ∈ peers, ∃ url, p.primaryUrl = some url ∧ resolve url = some p
  leads : ∀ url p, resolve url = some p → p ∈ peers

/-- Where a node is: in which network, as whom, and who else lives. -/
structure Post where
  atlas : Atlas
  own : Peer
  alive : NodeId → Bool

/-- The transport as one node sees it. -/
structure Berth extends Post where
  /-- The references to the link with another node. -/
  refs : NodeId → Nat
  /-- What is on its way to another node, the oldest first. -/
  out : NodeId → List Event

namespace Berth

/-- The berth with something more on its way. -/
def put (b : Berth) (v : NodeId) (e : Event) : Berth :=
  { b with out := Function.update b.out v (b.out v ++ [e]) }

/-- The berth with another number of references. -/
def count (b : Berth) (v : NodeId) (n : Nat) : Berth :=
  { b with refs := Function.update b.refs v n }

/-- Opens a link to whom a URL leads to, or takes another reference to it. -/
def openLink (url : String) (b : Berth) : Except LinkError Peer × Berth :=
  match b.atlas.resolve url with
  | none => (.error (.refused url), b)
  | some p =>
    if !b.alive p.id then (.error (.refused url), b)
    else if p.same b.own then (.ok p, b)
    else
      let linked := b.count p.id (b.refs p.id + 1)
      if b.refs p.id = 0 then (.ok p, linked.put p.id (.opened b.own))
      else (.error (.alreadyLinked p), linked)

/-- Releases a reference to a link; the last one closes it. -/
def closeLink (p : Peer) (b : Berth) : Berth :=
  match b.refs p.id with
  | 0 => b
  | 1 => (b.count p.id 0).put p.id (.closed b.own)
  | n + 2 => b.count p.id (n + 1)

/-- Sends a message over a link, if there is one. -/
def send (p : Peer) (message : Message) (b : Berth) : Bool × Berth :=
  if b.refs p.id = 0 then (false, b) else (true, b.put p.id (.message b.own message))

instance : Transport Berth where
  openLink := openLink
  closeLink := closeLink
  send p message _ b := send p message b

end Berth

/-- A network of brokers. -/
structure Grove where
  atlas : Atlas
  /-- The nodes that live. -/
  node? : NodeId → Option Node
  /-- The references to the link between two nodes. -/
  refs : NodeId → NodeId → Nat
  /-- What is on its way from the first node to the second, the oldest first. -/
  queue : NodeId → NodeId → List Event

/-- Whether an event is the loss of a neighbor. -/
def Event.isLoss : Event → Bool
  | .closed _ | .dead _ | .message _ .noLongerChild => true
  | .message _ _ | .opened _ => false

/-- Whether an event is that a peer has died. -/
def Event.isDeath : Event → Bool
  | .dead _ => true
  | _ => false

/-- Whether an event tells of a sibling that is gone. -/
def Event.isObituary : Event → Bool
  | .message _ (.siblingDead _) => true
  | _ => false

/-- Whether an act is the start of an operation. -/
def Act.isOrder : Act → Bool
  | requestJoin _ | requestReroot | leave _ | tick => true
  | _ => false

namespace Grove

/-- The transport as a node of a grove sees it. -/
def berth (g : Grove) (n : Node) : Berth where
  atlas := g.atlas
  own := n.self
  alive v := (g.node? v).isSome
  refs := g.refs n.self.id
  out := g.queue n.self.id

/-- A node of a grove at work. -/
def session (g : Grove) (n : Node) (ws : Words) : Session Berth := ⟨n, g.berth n, ws, []⟩

/-- The grove after a node has acted. -/
def after (g : Grove) (u : NodeId) (s : Session Berth) : Grove where
  atlas := g.atlas
  node? := Function.update g.node? u (some s.node)
  refs x y :=
    if x = u then s.outside.refs y else if y = u then s.outside.refs x else g.refs x y
  queue x y := if x = u then s.outside.out y else g.queue x y

/-- The grove without the oldest of what is on its way from one node to another. -/
def dropOldest (g : Grove) (v u : NodeId) : Grove :=
  { g with queue := fun x y => if x = v ∧ y = u then (g.queue x y).tail else g.queue x y }

/-- The grove after a node has crashed: its links are gone, and those at their other ends
find it dead. -/
def crash (g : Grove) (n : Node) : Grove where
  atlas := g.atlas
  node? := Function.update g.node? n.self.id none
  refs x y := if x = n.self.id ∨ y = n.self.id then 0 else g.refs x y
  queue x y :=
    if x = n.self.id then
      if g.refs x y = 0 then g.queue x y else g.queue x y ++ [.dead n.self]
    else if y = n.self.id then []
    else g.queue x y

/-- Whether nothing is on its way. -/
def Silent (g : Grove) : Prop := ∀ v w, g.queue v w = []

/-- Whether no reconfiguration of any node goes on. -/
def Idle (g : Grove) : Prop := ∀ u n, g.node? u = some n → n.isEngaged = false

/-- Whether nothing is left to do. -/
def AtRest (g : Grove) : Prop :=
  g.Silent ∧ g.Idle ∧ ∀ u n, g.node? u = some n → n.errands = []

/-- Whether an event on its way from one node to another may still be so when a node begins
to look for a father in place of one that it lost: it is the death of a node, the loss of
either of the two for the other, or news of a loss, which only a father tells. -/
def Leftover (u : NodeId) (lost : Peer) (v w : NodeId) (e : Event) : Prop :=
  e.isDeath = true ∨ (e.isObituary = true ∧ (w = u → v = lost.id)) ∨
    (e.isLoss = true ∧ (v = u ∧ w = lost.id ∨ v = lost.id ∧ w = u))

/-- Whether a node can begin an errand: nothing is on its way that an errand of any node has
caused. -/
def Clear (g : Grove) (u : NodeId) : Errand → Prop
  | .repair lost => ∀ v w, ∀ e ∈ g.queue v w, Leftover u lost v w e
  | _ => g.Silent

/-- What can happen in a grove, if every act meets a condition. -/
inductive Step (cond : ActCondition) : Grove → Grove → Prop where
  /-- An operation starts. -/
  | order {g : Grove} {u : NodeId} {n : Node} {a : Act} (ws : Words) (rest : g.AtRest)
      (node : g.node? u = some n) (order : a.isOrder = true) (meets : cond n ws a) :
      Step cond g (g.after u (a.run (g.session n ws)))
  /-- A node crashes. -/
  | crash {g : Grove} {u : NodeId} {n : Node} (rest : g.AtRest) (node : g.node? u = some n) :
      Step cond g (g.crash n)
  /-- The oldest event on its way from one node to another is experienced. -/
  | deliver {g : Grove} {u v : NodeId} {n : Node} {e : Event} {later : List Event} (ws : Words)
      (node : g.node? u = some n) (oldest : g.queue v u = e :: later)
      (meets : cond n ws (.event e)) :
      Step cond g ((g.dropOldest v u).after u
        ((Act.event e).run ((g.dropOldest v u).session n ws)))
  /-- What waited for the slot begins. -/
  | begin {g : Grove} {u : NodeId} {n : Node} {errand : Errand} (ws : Words)
      (node : g.node? u = some n) (possible : (Act.begin errand).Possible n) (idle : g.Idle)
      (clear : g.Clear u errand) (meets : cond n ws (.begin errand)) :
      Step cond g (g.after u ((Act.begin errand).run (g.session n ws)))
  /-- A reconfiguration goes on by one step. -/
  | advance {g : Grove} {u : NodeId} {n : Node} (ws : Words) (node : g.node? u = some n)
      (ready : n.isReady = true) (meets : cond n ws .advance) :
      Step cond g (g.after u (Act.advance.run (g.session n ws)))
  /-- The wait for an answer ends: with an answer, or once none can come any more. -/
  | resume {g : Grove} {u : NodeId} {n : Node} {negotiation : Negotiation} (ws : Words)
      (node : g.node? u = some n)
      (negotiating : n.slot.holder = some (.negotiating negotiation))
      (ready : n.mailbox.awaited = none ∨ g.Silent) (meets : cond n ws .resume) :
      Step cond g (g.after u (Act.resume.run (g.session n ws)))

/-- A running broker at the start of its life. -/
def Newborn (self : Peer) (n : Node) : Prop :=
  ∃ settings ws, n = { (Node.start settings self ws).1 with stopped := false }.startConnector

/-- Whether every node of the network is at the start of its life, and nothing has happened
yet. -/
def Fresh (g : Grove) : Prop :=
  (∀ u n, g.node? u = some n → ∃ p ∈ g.atlas.peers, p.id = u ∧ Newborn p n) ∧
    (∀ v w, g.refs v w = 0) ∧ g.Silent

/-- The groves that newborn brokers can come to. -/
def Reachable (cond : ActCondition) (g : Grove) : Prop :=
  ∃ start, Fresh start ∧ Relation.ReflTransGen (Step cond) start g

end Grove

end BrokerForest
