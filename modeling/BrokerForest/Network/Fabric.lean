import BrokerForest.Network.Fleet
/-!
# The fabric: links between nodes, with one queue for all

A link between two nodes has a count of references that its ends share.  What a node is to
experience is put at the end of one queue.  Besides the nodes of a fleet there may be raw
peers, which note what they get and answer requests as they were told to.

* `Fabric.openLink`, `closeLink`, `send` — what a place in the fabric can do;
* `Fabric.next` — the front of the queue is handled;
* `Fabric.kill` — a place and all its links vanish.
-/

namespace BrokerForest

/-- A raw peer: what it answers to the requests to come, and what it got, in order. -/
structure RawPeer where
  replies : List (List Message)
  received : List Event
deriving DecidableEq, Inhabited

/-- A place in the fabric. -/
structure Place where
  peer : Peer
  alive : Bool
  /-- Whether what it is to experience reaches it. -/
  listening : Bool
  raw : Option RawPeer
deriving DecidableEq

/-- A link, by the identities of its ends, the smaller first. -/
structure Link where
  low : NodeId
  high : NodeId
  references : Nat
deriving DecidableEq

namespace Link

/-- The ends of a link between two peers. -/
def between (a b : Peer) (references : Nat) : Link :=
  if a.id < b.id then ⟨a.id, b.id, references⟩ else ⟨b.id, a.id, references⟩

/-- Whether two links have the same ends. -/
def joins (l m : Link) : Bool := l.low == m.low && l.high == m.high

/-- Whether a link comes before another. -/
def precedes (l m : Link) : Bool := l.low < m.low || l.low == m.low && l.high < m.high

/-- The other end of a link, if a peer is one. -/
def other? (l : Link) (p : Peer) : Option NodeId :=
  if l.low == p.id then some l.high else if l.high == p.id then some l.low else none

end Link

/-- The fabric. -/
structure Fabric where
  places : List Place
  /-- The links, in the order of their ends. -/
  links : List Link
  /-- What is to happen, each with the place where it does. -/
  queue : List (Nat × Event)
deriving DecidableEq

namespace Fabric

/-- How the URLs of the fabric begin. -/
def scheme : String := "mock://"

/-- The place of a number. -/
def place? (f : Fabric) (number : Nat) : Option Place := f.places[number]?

/-- The number of the place of an identity. -/
def numberOf? (f : Fabric) (id : NodeId) : Option Nat := f.places.findIdx? fun p => p.peer.id == id

/-- The first living place that a URL leads to. -/
def resolve? (f : Fabric) (url : String) : Option Place :=
  f.places.find? fun p => p.alive && p.peer.urls.contains url

/-- The fabric with a place changed. -/
def modify (f : Fabric) (number : Nat) (change : Place → Place) : Fabric :=
  { f with places := f.places.modify number change }

/-- The fabric with something more to happen to a peer. -/
def enqueue (f : Fabric) (target : NodeId) (event : Event) : Fabric :=
  match f.numberOf? target with
  | some number => { f with queue := f.queue ++ [(number, event)] }
  | none => f

/-- The references to the link between two peers. -/
def references (f : Fabric) (a b : Peer) : Nat :=
  match f.links.find? (Link.joins (.between a b 0)) with
  | some link => link.references
  | none => 0

/-- The links with one in its place. -/
def insertLink (link : Link) : List Link → List Link
  | [] => [link]
  | l :: rest =>
    if link.joins l then link :: rest
    else if link.precedes l then link :: l :: rest
    else l :: insertLink link rest

/-- The fabric with another number of references to the link between two peers; none is no
link. -/
def setReferences (f : Fabric) (a b : Peer) (n : Nat) : Fabric :=
  let link := Link.between a b n
  if n = 0 then { f with links := f.links.filter fun l => !link.joins l }
  else { f with links := insertLink link f.links }

/-- Opens a link to whom a URL leads to, or takes another reference to it. -/
def openLink (number : Nat) (url : String) (f : Fabric) : Except LinkError Peer × Fabric :=
  if !url.startsWith scheme then (.error (.malformedUrl url), f)
  else
    match f.place? number, f.resolve? url with
    | some own, some place =>
      let peer := place.peer
      if peer.same own.peer then (.ok peer, f)
      else
        let n := f.references own.peer peer + 1
        let f := f.setReferences own.peer peer n
        if n = 1 then (.ok peer, f.enqueue peer.id (.opened own.peer))
        else (.error (.alreadyLinked peer), f)
    | _, _ => (.error (.refused url), f)

/-- Releases a reference to the link to a peer; the last one closes it. -/
def closeLink (number : Nat) (peer : Peer) (f : Fabric) : Fabric :=
  match f.place? number with
  | none => f
  | some own =>
    match f.references own.peer peer with
    | 0 => f
    | n + 1 =>
      let f := f.setReferences own.peer peer n
      if n = 0 then f.enqueue peer.id (.closed own.peer) else f

/-- Sends a message over the link to a peer, if there is one. -/
def send (number : Nat) (peer : Peer) (message : Message) (f : Fabric) : Bool × Fabric :=
  match f.place? number with
  | none => (false, f)
  | some own =>
    if f.references own.peer peer = 0 then (false, f)
    else (true, f.enqueue peer.id (.message own.peer message))

/-- A raw peer notes what it got, and answers a request with the next of its replies. -/
def experience (f : Fabric) (number : Nat) (raw : RawPeer) (event : Event) : Fabric :=
  let noted := { raw with received := raw.received ++ [event] }
  let put (raw : RawPeer) (f : Fabric) := f.modify number fun p => { p with raw := some raw }
  match event, noted.replies with
  | .message asker (.request _), reply :: later =>
    reply.foldl (fun f message => (f.send number asker message).2)
      (put { noted with replies := later } f)
  | _, _ => put noted f

/-- The front of the queue is handled.  It is lost on a place that does not listen. -/
def next (f : Fabric) : Option (Option (Nat × Event) × Fabric) :=
  match f.queue with
  | [] => none
  | (number, event) :: later =>
    let f := { f with queue := later }
    match f.place? number with
    | none => some (none, f)
    | some place =>
      if !(place.alive && place.listening) then some (none, f)
      else
        match place.raw with
        | some raw => some (none, f.experience number raw event)
        | none => some (some (number, event), f)

instance : Surroundings Fabric where
  openLink := openLink
  closeLink := closeLink
  send number peer message _ := send number peer message
  next := next

/-- Whether what a place is to experience reaches it from now on. -/
def listen (number : Nat) (listening : Bool) (f : Fabric) : Fabric :=
  f.modify number fun p => { p with listening := listening }

/-- A place and all its links vanish, and the other ends find them dead. -/
def kill (number : Nat) (f : Fabric) : Fabric :=
  match f.place? number with
  | none => f
  | some own =>
    let f := f.modify number fun p => { p with alive := false, listening := false }
    let left := { f with links := f.links.filter fun l => (l.other? own.peer).isNone }
    (f.links.filterMap fun l => l.other? own.peer).foldl
      (fun f other => f.enqueue other (.dead own.peer)) left

/-- A raw peer is to answer one more request. -/
def addReply (number : Nat) (reply : List Message) (f : Fabric) : Fabric :=
  f.modify number fun p =>
    { p with raw := p.raw.map fun raw => { raw with replies := raw.replies ++ [reply] } }

/-- Forgets what raw peers got. -/
def forgetReceived (f : Fabric) : Fabric :=
  { f with places := f.places.map fun p =>
      { p with raw := p.raw.map fun raw => { raw with received := [] } } }

/-- Whether a place is alive. -/
def isAlive (f : Fabric) (number : Nat) : Bool := (f.place? number).any Place.alive

end Fabric

namespace Fleet

/-- A node starts, and what it is to experience reaches it. -/
def start (f : Fleet Fabric) (number : Nat) : Fleet Fabric :=
  (f.onWorld (Fabric.listen number true)).act number Session.start

/-- A node stops, and what it is to experience is lost. -/
def stop (f : Fleet Fabric) (number : Nat) : Fleet Fabric :=
  (f.act number Session.stop).onWorld (Fabric.listen number false)

/-- A node stops and dies. -/
def kill (f : Fleet Fabric) (number : Nat) : Fleet Fabric :=
  (f.stop number).onWorld (Fabric.kill number)

/-- Whether a node's gossip waits for its next round. -/
def isGossiping (f : Fleet Fabric) (number : Nat) : Bool :=
  f.world.isAlive number && (f.node? number).any fun n => !n.stopped

end Fleet

end BrokerForest
