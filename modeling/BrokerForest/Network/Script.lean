import BrokerForest.Network.Fleet
/-!
# Scripts: one node among scripted peers

A script says what opening a link to each URL gives, to whom sending fails, and what the
node experiences while it sends a request to a peer.  It keeps no account of links.

* `Script.open?`, `Script.send` — what the node can do;
* `Script.setLink`, `setUnsendable`, `addReply` — changes to a script;
* `Fleet.sendTransient` — a message over a link of its own.
-/

namespace BrokerForest

/-- The script of the world around one node. -/
structure Script where
  /-- What opening a link to a URL gives; all other URLs are refused. -/
  links : List (String × Except LinkError Peer)
  /-- To whom nothing can be sent. -/
  unsendable : List NodeId
  /-- What the node experiences, for each request that it sends to a peer. -/
  replies : List (NodeId × List (List Event))
  /-- What the node is to experience. -/
  inbox : List Event

namespace Script

/-- What opening a link to a URL gives. -/
def open? (url : String) (s : Script) : Except LinkError Peer :=
  (s.links.lookup url).getD (.error (.refused url))

/-- Sets what opening a link to a URL gives. -/
def setLink (url : String) (result : Except LinkError Peer) (s : Script) : Script :=
  { s with links := (url, result) :: s.links }

/-- Sets whether sending to a peer fails. -/
def setUnsendable (id : NodeId) (value : Bool) (s : Script) : Script :=
  let others := s.unsendable.filter (· != id)
  { s with unsendable := if value then id :: others else others }

/-- The lists of a peer, with a change to them. -/
def modifyReplies (id : NodeId) (change : List (List Event) → List (List Event)) (s : Script) :
    Script :=
  let own := (s.replies.lookup id).getD []
  { s with replies := (id, change own) :: s.replies.filter fun r => r.1 != id }

/-- Adds what the node experiences for one more request to a peer. -/
def addReply (id : NodeId) (events : List Event) (s : Script) : Script :=
  s.modifyReplies id (· ++ [events])

/-- What a request to a peer makes the node experience. -/
def respond (id : NodeId) (s : Script) : Script :=
  match s.replies.lookup id with
  | some (events :: _) =>
    { s.modifyReplies id List.tail with inbox := s.inbox ++ events }
  | _ => s

/-- Sends a message to a peer. -/
def send (peer : Peer) (message : Message) (s : Script) : Bool × Script :=
  if s.unsendable.contains peer.id then (false, s)
  else
    match message with
    | .request _ => (true, s.respond peer.id)
    | _ => (true, s)

/-- The only node of a script has the number zero. -/
instance : Surroundings Script where
  openLink _ url s := (s.open? url, s)
  closeLink _ _ s := s
  send _ peer message _ s := s.send peer message
  next s :=
    match s.inbox with
    | [] => none
    | event :: later => some (some (0, event), { s with inbox := later })

/-- The script in which nothing more is to happen to the node. -/
def clearInbox (s : Script) : Script := { s with inbox := [] }

end Script

namespace Fleet

/-- An event happens, and all that follows from it. -/
def undergo (f : Fleet Script) (event : Event) : Fleet Script :=
  (f.act 0 fun s => s.onEvent event).settle

/-- The node sends a message over a link that is open for it alone.  What this makes it
experience happens before the link is closed, one event after another and each with all
that follows from it. -/
def sendTransient (f : Fleet Script) (peer : Peer) (message : Message)
    (traffic : TrafficClass) : Fleet Script :=
  let (linked, f) := f.perform 0 fun s => s.launch peer message traffic
  let f := f.world.inbox.foldl undergo (f.onWorld Script.clearInbox)
  (f.act 0 fun s => s.land linked.join).settle

end Fleet

end BrokerForest
