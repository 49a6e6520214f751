import BrokerForest.Manager
import Mathlib.Logic.Function.Basic
import Mathlib.Logic.Relation
/-!
# Meshes: nodes with messages on their way between them

A mesh is any number of nodes, and for every two of them the messages on their way from
the one to the other, which arrive in the order in which they were sent.  Nodes act one at
a time and in any order.  A message may be lost, and links may open, close and break for a
node at any time: nothing is assumed of the transport but that it keeps the order of what
it delivers.

* `Act` — all that a node can do or experience, one piece at a time;
* `Mesh.Step` — one node acts, a message is lost or a node vanishes;
* `Mesh.Reachable` — what nodes that all start afresh can come to;
* `Mesh.Beneath`, `Mesh.Acyclic` — the forest that the fathers of the nodes make.
-/

namespace BrokerForest

/-- The rank that a message tells of its sender. -/
def Message.rank? : Message → Option Rank
  | .request asked => some asked.rank
  | .response answer => some answer.rank
  | .siblingDead news => some news.rank
  | .update news => some news.rank
  | .newSibling news => some news.rank
  | .candidates _ | .goodCandidate _ | .noLongerChild => none

/-- Whether a message is an update. -/
def Message.isUpdate : Message → Bool
  | .update _ => true
  | _ => false

/-- The message that an effect puts on its way, and to whom. -/
def Effect.mail? : Effect → Option (Peer × Message)
  | .sent peer message _ true => some (peer, message)
  | _ => none

/-- What a node does or experiences, one piece at a time.  A reconfiguration is as many pieces
as it has steps, besides what has it wait for the slot. -/
inductive Act where
  | event (event : Event)
  | start
  | stop
  | requestJoin (url : String)
  | requestReroot
  | leave (peer : Peer)
  | tick
  | gossip
  /-- What waited for the slot begins. -/
  | begin (errand : Errand)
  /-- What holds the slot goes on by one step. -/
  | advance
  /-- The wait for an answer ends. -/
  | resume

namespace Act

/-- What an act makes of a session. -/
def run {σ : Type} [Transport σ] (s : Session σ) : Act → Session σ
  | event e => s.onEvent e
  | start => s.start
  | stop => s.stop
  | requestJoin url => s.requestJoin url
  | requestReroot => s.requestReroot
  | leave peer => s.leave peer
  | tick => s.tick
  | gossip => s.gossip
  | begin errand =>
    (s.withNode { s.node with errands := s.node.errands.erase errand }).begin errand
  | advance => s.advance
  | resume => s.resume

/-- Whether a node is in a state to act so.  What waits for the slot may begin in any order
once the slot is free. -/
def Possible (n : Node) : Act → Prop
  | begin errand => errand ∈ n.errands ∧ n.slot.isBusy = false
  | _ => True

instance (n : Node) : (a : Act) → Decidable (a.Possible n)
  | begin errand => inferInstanceAs (Decidable (errand ∈ n.errands ∧ n.slot.isBusy = false))
  | event _ | start | stop | requestJoin _ | requestReroot | leave _ | tick | gossip
  | advance | resume => .isTrue trivial

/-- Whether an act is to experience a message. -/
def isMessage : Act → Bool
  | event (.message _ _) => true
  | _ => false

end Act

/-- A condition on an act of a node with some words to come. -/
abbrev ActCondition := Node → Words → Act → Prop

/-- Nodes, and the messages on their way from the first of two to the second, the oldest
first. -/
structure Mesh where
  node? : NodeId → Option Node
  transit : NodeId → NodeId → List Message

namespace Mesh

/-- The mesh after a node has acted and has put messages on their way. -/
def after {σ : Type} (m : Mesh) (u : NodeId) (s : Session σ) : Mesh where
  node? := Function.update m.node? u (some s.node)
  transit v w :=
    if v = u then
      m.transit v w ++
        ((s.trace.filterMap Effect.mail?).filter fun mail => mail.1.id = w).map Prod.snd
    else m.transit v w

/-- The mesh without the oldest message on its way from one node to another. -/
def dropOldest (m : Mesh) (v u : NodeId) : Mesh where
  node? := m.node?
  transit x y := if x = v ∧ y = u then (m.transit x y).tail else m.transit x y

/-- The mesh without a node. -/
def without (m : Mesh) (u : NodeId) : Mesh := { m with node? := Function.update m.node? u none }

/-- What can happen in a mesh, if every act meets a condition.  The transport answers a
node as it likes. -/
inductive Step (cond : ActCondition) : Mesh → Mesh → Prop where
  /-- A node acts. -/
  | act {m : Mesh} {u : NodeId} {n : Node} {a : Act} {σ : Type} [Transport σ]
      (outside : σ) (ws : Words)
      (node : m.node? u = some n) (possible : a.Possible n) (meets : cond n ws a)
      (own : a.isMessage = false) :
      Step cond m (m.after u (a.run ⟨n, outside, ws, []⟩))
  /-- A node gets the oldest message from another. -/
  | deliver {m : Mesh} {u v : NodeId} {n : Node} {origin : Peer} {message : Message}
      {rest : List Message} {σ : Type} [Transport σ] (outside : σ) (ws : Words)
      (node : m.node? u = some n) (oldest : m.transit v u = message :: rest)
      (sender : origin.id = v) (meets : cond n ws (.event (.message origin message))) :
      Step cond m
        ((m.dropOldest v u).after u
          (Act.run ⟨n, outside, ws, []⟩ (.event (.message origin message))))
  /-- The oldest message from one node to another is lost. -/
  | lose {m : Mesh} (v u : NodeId) : Step cond m (m.dropOldest v u)
  /-- A node vanishes. -/
  | vanish {m : Mesh} (u : NodeId) : Step cond m (m.without u)

/-- A mesh in which every node is at the start of its life and nothing is on its way. -/
def Fresh (m : Mesh) : Prop :=
  (∀ u n, m.node? u = some n →
    ∃ settings self ws, n = (Node.start settings self ws).1 ∧ self.id = u) ∧
  ∀ v u, m.transit v u = []

/-- The meshes that nodes at the start of their lives can come to. -/
def Reachable (cond : ActCondition) (m : Mesh) : Prop :=
  ∃ start, Fresh start ∧ Relation.ReflTransGen (Step cond) start m

/-- A node has another as its father. -/
def Beneath (m : Mesh) (u v : NodeId) : Prop :=
  ∃ n father, m.node? u = some n ∧ n.position.father = some father ∧ father.id = v

/-- No node is its own ancestor. -/
def Acyclic (m : Mesh) : Prop := ∀ u, ¬ Relation.TransGen m.Beneath u u

end Mesh

end BrokerForest
