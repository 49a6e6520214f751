import BrokerForest.Network.Mesh
import Mathlib.Data.Finset.Card
/-!
# Waves: news of a move travels down a tree

A node that comes to another place in the forest tells its children of its rank and of the
chain above it, they tell theirs, and so on as far as the news concerns anybody.  Here such
a wave runs through nodes that stand in trees, under links that lose nothing; the updates
that are on their way arrive in any order, but for those between the same two nodes.

* `Mesh.Trees` — finitely many nodes that stand in trees, and know of nobody beside them but
  their fathers and children;
* `Mesh.At` — the nodes below one of them, by their distance from it;
* `Mesh.Handed` — a node's chain is what its father tells its children;
* `Mesh.Moves` — a node finds another father, or becomes the root of a new tree;
* `Mesh.Wave` — updates arrive, one after another;
* `Mesh.Calm` — no update is on its way any more.
-/

namespace BrokerForest

/-- A message goes out, if the effect is to send one. -/
def Effect.Passes : Effect → Prop
  | .sent _ _ _ delivered => delivered = true
  | _ => True

instance : (e : Effect) → Decidable e.Passes
  | .sent _ _ _ delivered => inferInstanceAs (Decidable (delivered = true))
  | .opened .. | .closed _ | .noted _ | .paused _ | .ended _ => .isTrue trivial

/-- A session after the father is gone, if the node has one. -/
def Session.bereft {σ : Type} [Transport σ] (s : Session σ) : Session σ :=
  match s.node.position.father with
  | none => s
  | some father => s.depart father

/-- The ancestors of a node, by identity, as far as it knows of them: its father, and then the
chain beyond. -/
def Position.above (p : Position) : List NodeId :=
  (p.father.toList ++ p.regional.upstreamChain).map Peer.id

namespace Mesh

/-- The nodes at some distance below a node, which is itself at the distance zero. -/
inductive At (m : Mesh) (t : NodeId) : Nat → NodeId → Prop where
  | top : At m t 0 t
  | next {k : Nat} {v u : NodeId} (above : At m t k v) (beneath : m.Beneath u v) :
      At m t (k + 1) u

/-- Finitely many nodes that stand in trees while no message is on its way.  The brokers
beside a node are its father and its children.  All bound their chains by the same
length, and their updates by default as well. -/
structure Trees (m : Mesh) (nodes : Finset NodeId) (most : Nat) : Prop where
  live : ∀ u, u ∈ nodes ↔ ∃ n, m.node? u = some n
  self : ∀ u n, m.node? u = some n → n.self.id = u
  father : ∀ u v, m.Beneath u v → v ∈ nodes
  acyclic : m.Acyclic
  beside : ∀ u n, m.node? u = some n →
    ∀ v, v ∈ n.position.neighbors.brokers.map Peer.id ↔ m.Beneath u v ∨ m.Beneath v u
  most : ∀ u n, m.node? u = some n →
    n.settings.upstreamMax = most ∧ n.position.regional.upstreamMax = most
  hops : ∀ u n, m.node? u = some n → n.settings.updateHops = none
  still : ∀ v u, m.transit v u = []

/-- The chain of a node is, by identity, what its father tells its children: the father's
father, followed by the father's chain, up to the bound. -/
def Handed (m : Mesh) (most : Nat) (v u : NodeId) : Prop :=
  ∃ p c, m.node? v = some p ∧ m.node? u = some c ∧
    c.position.regional.upstreamChain.map Peer.id = p.position.above.take most

/-- A node comes to another place.  Either its father is gone, if it had one, and it is
accepted by a node that is not below it and has none of those below it above itself; or its
father is gone and nobody else has been found; or it leaves its father of its own accord. -/
inductive Moves (m : Mesh) (t : NodeId) : Mesh → Prop where
  | attach {n : Node} {σ : Type} [Transport σ] (outside : σ) (ws : Words) (father : Peer)
      (rank : Rank) (acceptance : Acceptance) (node : m.node? t = some n)
      (distinct : ((father :: acceptance.upstream).map Peer.id).Nodup)
      (apart : ∀ p ∈ father :: acceptance.upstream, ∀ k, ¬ m.At t k p.id)
      (passes : ∀ e ∈ ((Session.mk n outside ws []).bereft.attach father rank acceptance).trace,
        e.Passes) :
      Moves m t (m.after t ((Session.mk n outside ws []).bereft.attach father rank acceptance))
  | newTree {n : Node} {σ : Type} [Transport σ] (outside : σ) (ws : Words)
      (node : m.node? t = some n)
      (passes : ∀ e ∈ (Session.mk n outside ws []).bereft.newTree.trace, e.Passes) :
      Moves m t (m.after t (Session.mk n outside ws []).bereft.newTree)
  | reroot {n : Node} {σ : Type} [Transport σ] (outside : σ) (ws : Words)
      (node : m.node? t = some n)
      (passes : ∀ e ∈ (Session.mk n outside ws []).reroot.advance.advance.trace,
        e.Passes) :
      Moves m t (m.after t (Session.mk n outside ws []).reroot.advance.advance)

/-- A node gets an update that is the oldest message from another, and all that it sends
goes out. -/
inductive Hears (m : Mesh) (u : NodeId) : Mesh → Prop where
  | update {v : NodeId} {n : Node} {origin : Peer} {news : Update} {rest : List Message}
      {σ : Type} [Transport σ] (outside : σ) (ws : Words) (node : m.node? u = some n)
      (oldest : m.transit v u = .update news :: rest) (sender : origin.id = v)
      (passes : ∀ e ∈ ((Session.mk n outside ws []).onMessage origin (.update news)).trace,
        e.Passes) :
      Hears m u ((m.dropOldest v u).after u
        ((Session.mk n outside ws []).onMessage origin (.update news)))

/-- Updates arrive one after another, at the nodes listed in this order. -/
inductive Wave : Mesh → List NodeId → Mesh → Prop where
  | still (m : Mesh) : Wave m [] m
  | hear {m m' m'' : Mesh} {heard : List NodeId} {u : NodeId} (wave : Wave m heard m')
      (hears : m'.Hears u m'') : Wave m (heard ++ [u]) m''

/-- No update is on its way. -/
def Calm (m : Mesh) : Prop := ∀ v u, ∀ message ∈ m.transit v u, message.isUpdate = false

end Mesh

end BrokerForest
