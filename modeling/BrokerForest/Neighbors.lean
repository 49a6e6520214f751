import BrokerForest.Peer
/-!
# Neighbors: the peers beside a node

A node's neighbors are the brokers it shares an edge of a tree with, and the clients linked
to it.  Both are kept in the order of their identities.

* `Neighbors` — the brokers and the clients, in their order by construction;
* `Neighbors.add`, `Neighbors.remove`, `Neighbors.contains` — by identity;
* `Neighbors.children` — the brokers other than the father.
-/

namespace BrokerForest

/-- The brokers and clients beside a node, each in the order of their identities and each once. -/
structure Neighbors where
  brokers : List Peer
  clients : List Peer
  brokers_inOrder : Peer.InOrder brokers
  clients_inOrder : Peer.InOrder clients
deriving DecidableEq

namespace Neighbors

/-- No neighbors. -/
def empty : Neighbors := ⟨[], [], .nil, .nil⟩

instance : Inhabited Neighbors := ⟨empty⟩

/-- A list with a peer in its place.  A peer that is there already stays as it is. -/
def insert (p : Peer) : List Peer → List Peer
  | [] => [p]
  | q :: rest =>
    if p.same q then q :: rest
    else if p.id < q.id then p :: q :: rest
    else q :: insert p rest

/-- Who is in a list with a peer is the peer, or was there before. -/
theorem mem_insert {p : Peer} {peers : List Peer} {v : NodeId} :
    v ∈ (insert p peers).map Peer.id ↔ v = p.id ∨ v ∈ peers.map Peer.id := by
  induction peers with
  | nil => simp [insert]
  | cons q rest ih =>
      unfold insert
      by_cases hsame : p.same q = true
      · have hid := Peer.same_iff.1 hsame
        simp [hsame, hid]
      · simp only [hsame, Bool.false_eq_true, if_false]
        split
        · simp
        · simp only [List.map_cons, List.mem_cons, ih]
          exact or_left_comm

/-- A peer comes to stand in its place. -/
theorem inOrder_insert (p : Peer) {peers : List Peer} (h : Peer.InOrder peers) :
    Peer.InOrder (insert p peers) := by
  induction peers with
  | nil => exact List.pairwise_singleton ..
  | cons q rest ih =>
      obtain ⟨hfirst, hrest⟩ := List.pairwise_cons.1 h
      unfold insert
      split
      · exact h
      · rename_i hother
        split
        · rename_i hlt
          refine List.pairwise_cons.2 ⟨fun v hv => ?_, h⟩
          rcases List.mem_cons.1 hv with rfl | hv
          · exact hlt
          · exact NodeId.lt_trans hlt (hfirst v hv)
        · rename_i hlt
          refine List.pairwise_cons.2 ⟨fun v hv => ?_, ih hrest⟩
          rcases mem_insert.1 hv with rfl | hv
          · exact NodeId.lt_of_ne (fun hid => hother (Peer.same_iff.2 hid)) hlt
          · exact hfirst v hv

/-- The neighbors with a peer, among the brokers if it is one. -/
def add (n : Neighbors) (p : Peer) : Neighbors :=
  if p.broker then
    { n with
      brokers := insert p n.brokers
      brokers_inOrder := inOrder_insert p n.brokers_inOrder }
  else
    { n with
      clients := insert p n.clients
      clients_inOrder := inOrder_insert p n.clients_inOrder }

/-- Whether a peer is among the neighbors of its sort. -/
def holds (n : Neighbors) (p : Peer) : Bool :=
  p.among (if p.broker then n.brokers else n.clients)

/-- Whether a peer is a broker beside the node. -/
def isBroker (n : Neighbors) (p : Peer) : Bool := p.among n.brokers

/-- Whether a peer is a neighbor. -/
def contains (n : Neighbors) (p : Peer) : Bool := p.among n.brokers || p.among n.clients

/-- The neighbors without a peer: without the broker, or else without the client. -/
def remove (n : Neighbors) (p : Peer) : Neighbors :=
  if n.isBroker p then
    { n with
      brokers := n.brokers.eraseP p.same
      brokers_inOrder := n.brokers_inOrder.sublist List.eraseP_sublist }
  else
    { n with
      clients := n.clients.eraseP p.same
      clients_inOrder := n.clients_inOrder.sublist List.eraseP_sublist }

/-- The brokers other than the father. -/
def children (n : Neighbors) (father : Option Peer) : List Peer :=
  n.brokers.filter fun p => !p.isThe father

/-- The number of brokers. -/
def degree (n : Neighbors) : Nat := n.brokers.length

/-- All neighbors in the order of their identities, each once; who is both is the broker. -/
def all (n : Neighbors) : List Peer := n.clients.foldl (fun peers p => insert p peers) n.brokers

end Neighbors

end BrokerForest
