import BrokerForest.Digest.Sha256
import BrokerForest.Text.Base64
import BrokerForest.Text.Utf8
/-!
# Peers: what a node knows of another

A peer is known by its identity, by the URLs it may be reached at, and by whether it is a
broker, which takes part in the forest, or a client of one.  Two descriptions are of the
same peer if their identities are equal, whatever else they say.

* `NodeId` — thirty-two octets, ordered as a dictionary orders them;
* `Peer.same` — whether two descriptions are of one peer;
* `Peer.create` — a new peer, with an identity made from its URLs and a nonce;
* `Peer.among` — whether a list has a description of a peer;
* `Peer.InOrder` — a list has its peers in the order of their identities, each once.
-/

namespace BrokerForest

/-- The identity of a peer. -/
structure NodeId where
  octets : List UInt8
  length_octets : octets.length = 32
deriving DecidableEq

namespace NodeId

/-- The identity with the given octets, if they are thirty-two. -/
def ofOctets? (octets : List UInt8) : Option NodeId :=
  if h : octets.length = 32 then some ⟨octets, h⟩ else none

instance : Inhabited NodeId := ⟨⟨List.replicate 32 0, rfl⟩⟩

/-- The first octet in which two identities differ decides which comes first. -/
instance : LT NodeId := ⟨fun a b => a.octets < b.octets⟩

instance (a b : NodeId) : Decidable (a < b) :=
  inferInstanceAs (Decidable (a.octets < b.octets))

theorem lt_irrefl (a : NodeId) : ¬ a < a := List.lt_irrefl a.octets

theorem lt_trans {a b c : NodeId} (hab : a < b) (hbc : b < c) : a < c := List.lt_trans hab hbc

/-- Of two identities that differ one comes first. -/
theorem lt_of_ne {a b : NodeId} (h : a ≠ b) (hlt : ¬ a < b) : b < a := by
  have hoctets : b.octets ≠ a.octets := fun heq => h (by cases a; cases b; cases heq; rfl)
  have hle : b.octets ≤ a.octets := List.not_lt.1 hlt
  exact (Std.lt_of_le_of_ne hle hoctets :)

/-- How two identities compare. -/
def order (a b : NodeId) : Ordering :=
  if a < b then .lt else if b < a then .gt else .eq

/-- An identity as people read it: the first seven characters of its base64. -/
def label (n : NodeId) : String :=
  String.ofList ((Text.Base64.encode n.octets).take 7)

end NodeId

/-- A description of a peer. -/
structure Peer where
  id : NodeId
  urls : List String
  broker : Bool
deriving DecidableEq, Inhabited

namespace Peer

/-- A new peer, whose identity is the hash of its URLs, each closed by a zero octet, and of
a nonce. -/
def create (urls : List String) (broker : Bool) (nonce : List UInt8) : Peer where
  id := ⟨Digest.Sha256.digest ((urls.flatMap fun url => Text.Utf8.encode url ++ [0]) ++ nonce),
    Digest.Sha256.length_digest _⟩
  urls := urls
  broker := broker

/-- Whether two descriptions are of the same peer. -/
def same (a b : Peer) : Bool := a.id == b.id

/-- Descriptions are of the same peer if and only if they have one identity. -/
theorem same_iff {a b : Peer} : a.same b = true ↔ a.id = b.id := by simp [same]

/-- A description is of the peer that it describes. -/
@[simp] theorem same_self (p : Peer) : p.same p = true := same_iff.2 rfl

/-- Whether a list has a description of the peer. -/
def among (p : Peer) (peers : List Peer) : Bool := peers.any p.same

/-- A list has a description of a peer if and only if it has the peer's identity. -/
theorem among_iff {p : Peer} {peers : List Peer} :
    p.among peers = true ↔ ∃ q ∈ peers, p.id = q.id := by
  simp [among, same_iff]

/-- Whether an optional description is there and of the peer. -/
def isThe (p : Peer) (other : Option Peer) : Bool := other.any p.same

/-- A description is of the peer if and only if it is there and has the peer's identity. -/
theorem isThe_iff {p : Peer} {other : Option Peer} :
    p.isThe other = true ↔ ∃ q, other = some q ∧ p.id = q.id := by
  cases other <;> simp [isThe, same_iff]

/-- Peers in the order of their identities, each once. -/
def InOrder (peers : List Peer) : Prop := (peers.map id).Pairwise (· < ·)

namespace InOrder

variable {peers : List Peer}

theorem nil : InOrder [] := List.Pairwise.nil

theorem nodup (h : InOrder peers) : (peers.map id).Nodup := by
  refine List.Pairwise.imp ?_ h
  intro a b hlt heq
  subst heq
  exact NodeId.lt_irrefl a hlt

/-- Some of the peers are in order too. -/
theorem sublist {some : List Peer} (h : InOrder peers) (hsome : some.Sublist peers) :
    InOrder some :=
  List.Pairwise.sublist (hsome.map id) h

end InOrder

/-- The URL to open a link to. -/
def primaryUrl (p : Peer) : Option String := p.urls.head?

/-- A peer as people read it: its identity, and where it is. -/
def label (p : Peer) : String :=
  match p.primaryUrl with
  | some url => p.id.label ++ "@" ++ url
  | none => p.id.label

/-- The token that a peer appends to its color when it becomes a new root. -/
def token (p : Peer) : String := p.primaryUrl.getD p.id.label

end Peer

end BrokerForest
