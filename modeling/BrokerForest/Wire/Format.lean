import BrokerForest.Message
import BrokerForest.Wire.Codec
/-!
# The format of messages on the wire

A structure is written as its fields in order, an enumeration as the octet of its variant
and the variant's fields.

* `Wire.color`, `Wire.depth`, `Wire.peer`, `Wire.message` — the codecs of what is sent.
-/

namespace BrokerForest.Wire

open Codec

/-- A color, as its tokens. -/
def color : Codec Color := (list text).via Color.tokens Color.mk

/-- A depth, as its value. -/
def depth : Codec Depth := double.via Depth.value Depth.mk

/-- An identity, as its thirty-two octets. -/
def nodeId : Codec NodeId where
  write n := some n.octets
  read input :=
    match NodeId.ofOctets? (input.take 32) with
    | some n => .ok (n, input.drop 32)
    | none => .error .tooShort

/-- A description of a peer. -/
def peer : Codec Peer :=
  (pair nodeId (pair (list text) bool)).via (fun p => (p.id, p.urls, p.broker))
    fun (id, urls, broker) => ⟨id, urls, broker⟩

/-- Descriptions of peers. -/
def peers : Codec (List Peer) := list peer

/-- A rank, as color and depth. -/
def rank : Codec Rank :=
  (pair color depth).via (fun r => (r.color, r.depth)) fun (color, depth) => ⟨color, depth⟩

/-- The bounds to overlook, the upper one first. -/
def force : Codec Force :=
  (pair bool bool).via (fun f => (f.maxDegree, f.minDegree)) fun (max, min) => ⟨max, min⟩

/-- A request. -/
def request : Codec Request :=
  (pair rank force).via (fun r => (r.rank, r.force)) fun (rank, force) => ⟨rank, force⟩

/-- A rank and then what depends on the variant. -/
def ranked {α : Type} (codec : Codec α) (answer : α → Answer) (input : List UInt8) :
    Except Fault (Response × List UInt8) :=
  readAs (pair rank codec) (fun (rank, a) => ⟨rank, answer a⟩) input

/-- A response: the octet of its kind, the rank, and what the kind carries. -/
def response : Codec Response where
  write r :=
    match r.answer with
    | .accepted a =>
      tagged 0 ((pair rank (pair peers peers)).write (r.rank, a.upstream, a.siblings))
    | .refused (.depthOrColor hint) => tagged 1 ((pair rank (optional peer)).write (r.rank, hint))
    | .refused (.maxDegree siblings) => tagged 2 ((pair rank peers).write (r.rank, siblings))
    | .refused (.minDegree upstream) => tagged 3 ((pair rank peers).write (r.rank, upstream))
    | .refused .busy => tagged 4 (rank.write r.rank)
  read
    | 0 :: rest =>
      ranked (pair peers peers) (fun (upstream, siblings) => .accepted ⟨upstream, siblings⟩) rest
    | 1 :: rest => ranked (optional peer) (fun hint => .refused (.depthOrColor hint)) rest
    | 2 :: rest => ranked peers (fun siblings => .refused (.maxDegree siblings)) rest
    | 3 :: rest => ranked peers (fun upstream => .refused (.minDegree upstream)) rest
    | 4 :: rest => readAs rank (fun rank => ⟨rank, .refused .busy⟩) rest
    | b :: _ => .error (.badVariant b)
    | [] => .error .tooShort

/-- News of a child that is gone. -/
def siblingDead : Codec SiblingDead :=
  (pair rank (pair peers peer)).via (fun m => (m.rank, m.candidates, m.dead))
    fun (rank, candidates, dead) => ⟨rank, candidates, dead⟩

/-- News of a rank or chain. -/
def update : Codec Update :=
  (pair rank (pair peers word32)).via (fun m => (m.rank, m.upstream, m.hops))
    fun (rank, upstream, hops) => ⟨rank, upstream, hops⟩

/-- News of a new child. -/
def newSibling : Codec NewSibling :=
  (pair rank (pair peers (pair peers (pair peers peer)))).via
    (fun m => (m.rank, m.upstream, m.siblings, m.candidates, m.sibling))
    fun (rank, upstream, siblings, candidates, sibling) =>
      ⟨rank, upstream, siblings, candidates, sibling⟩

/-- A message: the octet of its kind, and what the kind carries. -/
def message : Codec Message where
  write
    | .request m => tagged 0 (request.write m)
    | .response m => tagged 1 (response.write m)
    | .siblingDead m => tagged 2 (siblingDead.write m)
    | .update m => tagged 3 (update.write m)
    | .newSibling m => tagged 4 (newSibling.write m)
    | .candidates m => tagged 5 (peers.write m)
    | .goodCandidate m => tagged 6 (peer.write m)
    | .noLongerChild => some [7]
  read
    | 0 :: rest => readAs request .request rest
    | 1 :: rest => readAs response .response rest
    | 2 :: rest => readAs siblingDead .siblingDead rest
    | 3 :: rest => readAs update .update rest
    | 4 :: rest => readAs newSibling .newSibling rest
    | 5 :: rest => readAs peers .candidates rest
    | 6 :: rest => readAs peer .goodCandidate rest
    | 7 :: rest => .ok (.noLongerChild, rest)
    | b :: _ => .error (.badVariant b)
    | [] => .error .tooShort

end BrokerForest.Wire
