import BrokerForest.Node
import BrokerForest.Notice
import BrokerForest.Outcome
/-!
# Sessions: a node at work

A session is a node together with the world outside it, the words of its random choices,
and a trace of all that it does.  Everything a node does is a function from one session to
another; the world outside answers as it likes.

* `Effect` — what can be seen of a node at work;
* `Session.openLink`, `closeLink`, `send`, `sendAll` — what a node asks of the transport;
* `Session.sendTransient` — a message over a link of its own, in two halves, `launch` and
  `land`;
* `Session.note` — what it reports of itself.
-/

namespace BrokerForest

/-- What can be seen of a node at work. -/
inductive Effect where
  | opened (url : String) (result : Except LinkError Peer)
  | closed (peer : Peer)
  | sent (peer : Peer) (message : Message) (traffic : TrafficClass) (delivered : Bool)
  | noted (notice : Notice)
  | paused (milliseconds : Nat)
  | ended (outcome : Outcome)

/-- A node at work. -/
structure Session (σ : Type) where
  node : Node
  outside : σ
  words : Words
  /-- What was seen of the node, in order. -/
  trace : List Effect

namespace Session

variable {σ : Type}

/-- The session with another node. -/
def withNode (s : Session σ) (n : Node) : Session σ := { s with node := n }

/-- The session with its node at another position. -/
def withPosition (s : Session σ) (p : Position) : Session σ :=
  { s with node := { s.node with position := p } }

/-- The session with other words. -/
def withWords (s : Session σ) (ws : Words) : Session σ := { s with words := ws }

/-- The session after something was seen. -/
def see (s : Session σ) (e : Effect) : Session σ := { s with trace := s.trace ++ [e] }

/-- The session after the node reports something, if it is to. -/
def note (s : Session σ) (notice : Notice) : Session σ :=
  if s.node.settings.logEvents then s.see (.noted notice) else s

/-- The session after the node pauses. -/
def pause (s : Session σ) (length : Option Nat) : Session σ :=
  match length with
  | some n => s.see (.paused n)
  | none => s

/-- The session after a reconfiguration has ended. -/
def finish (s : Session σ) (outcome : Outcome) : Session σ := s.see (.ended outcome)

/-- The session with an errand more. -/
def queue (s : Session σ) (errand : Errand) : Session σ := s.withNode (s.node.queue errand)

/-- The session with a new root connector. -/
def startConnector (s : Session σ) : Session σ := s.withNode s.node.startConnector

/-- The session without a root connector. -/
def dropConnector (s : Session σ) : Session σ := s.withNode s.node.dropConnector

/-- The session in which something holds the slot. -/
def hold (s : Session σ) (holder : Holder) : Session σ :=
  s.withNode { s.node with slot := ⟨some holder⟩ }

/-- The session in which nothing holds the slot. -/
def release (s : Session σ) : Session σ :=
  s.withNode { s.node with slot := s.node.slot.release }

variable [Transport σ]

/-- Opens a link, or takes another reference to it. -/
def openLink (s : Session σ) (url : String) : Except LinkError Peer × Session σ :=
  let (result, outside) := Transport.openLink url s.outside
  let s := { s with outside := outside }.see (.opened url result)
  match result with
  | .error (.alreadyLinked peer) => (.ok peer, s)
  | result => (result, s)

/-- Releases a reference to a link. -/
def closeLink (s : Session σ) (peer : Peer) : Session σ :=
  { s with outside := Transport.closeLink peer s.outside }.see (.closed peer)

/-- Sends a message over an open link, and says whether it went out. -/
def send (s : Session σ) (peer : Peer) (message : Message) (traffic : TrafficClass) :
    Bool × Session σ :=
  let (delivered, outside) := Transport.send peer message traffic s.outside
  (delivered, { s with outside := outside }.see (.sent peer message traffic delivered))

/-- Sends a message over an open link, whether or not it goes out. -/
def tell (s : Session σ) (peer : Peer) (message : Message) : Session σ :=
  (s.send peer message .control).2

/-- Sends a message to each of some peers. -/
def sendAll (s : Session σ) (peers : List Peer) (message : Message) : Session σ :=
  peers.foldl (fun s peer => s.tell peer message) s

/-- Opens a link to a peer and sends a message over it, and says to whom the link leads.
Nothing comes of a failure. -/
def launch (s : Session σ) (peer : Peer) (message : Message) (traffic : TrafficClass) :
    Option Peer × Session σ :=
  match peer.primaryUrl with
  | none => (none, s)
  | some url =>
    match s.openLink url with
    | (.error _, s) => (none, s)
    | (.ok linked, s) => (some linked, (s.send linked message traffic).2)

/-- Releases the reference to the link that a message was launched over. -/
def land (s : Session σ) (linked : Option Peer) : Session σ :=
  match linked with
  | none => s
  | some peer => s.closeLink peer

/-- Sends a message over a link that is open for it alone. -/
def sendTransient (s : Session σ) (peer : Peer) (message : Message) (traffic : TrafficClass) :
    Session σ :=
  let (linked, s) := s.launch peer message traffic
  s.land linked

/-! What a node asks of the transport and reports of itself leaves the node as it is. -/

section

omit [Transport σ]

@[simp] theorem node_see (s : Session σ) (e : Effect) : (s.see e).node = s.node := rfl

@[simp] theorem node_withNode (s : Session σ) (n : Node) : (s.withNode n).node = n := rfl

@[simp] theorem node_withWords (s : Session σ) (ws : Words) : (s.withWords ws).node = s.node := rfl

@[simp] theorem node_note (s : Session σ) (notice : Notice) : (s.note notice).node = s.node := by
  unfold note
  split <;> rfl

@[simp] theorem node_pause (s : Session σ) (length : Option Nat) :
    (s.pause length).node = s.node := by
  cases length <;> rfl

@[simp] theorem node_finish (s : Session σ) (outcome : Outcome) :
    (s.finish outcome).node = s.node := rfl

end

@[simp] theorem node_openLink (s : Session σ) (url : String) :
    (s.openLink url).2.node = s.node := by
  rcases h : Transport.openLink url s.outside with ⟨result, outside⟩
  simp only [openLink, h]
  split <;> rfl

@[simp] theorem node_closeLink (s : Session σ) (peer : Peer) :
    (s.closeLink peer).node = s.node := rfl

@[simp] theorem node_send (s : Session σ) (peer : Peer) (message : Message)
    (traffic : TrafficClass) : (s.send peer message traffic).2.node = s.node := rfl

@[simp] theorem node_tell (s : Session σ) (peer : Peer) (message : Message) :
    (s.tell peer message).node = s.node := rfl

@[simp] theorem node_sendAll (s : Session σ) (peers : List Peer) (message : Message) :
    (s.sendAll peers message).node = s.node := by
  unfold sendAll
  induction peers generalizing s with
  | nil => rfl
  | cons peer rest ih => exact ih (s.tell peer message)

@[simp] theorem node_launch (s : Session σ) (peer : Peer) (message : Message)
    (traffic : TrafficClass) : (s.launch peer message traffic).2.node = s.node := by
  unfold launch
  split
  · rfl
  · rename_i url _
    have opened := s.node_openLink url
    split
    · simp_all
    · simp_all

@[simp] theorem node_land (s : Session σ) (linked : Option Peer) :
    (s.land linked).node = s.node := by
  cases linked <;> rfl

@[simp] theorem node_sendTransient (s : Session σ) (peer : Peer) (message : Message)
    (traffic : TrafficClass) : (s.sendTransient peer message traffic).node = s.node := by
  simp [sendTransient]

end Session

end BrokerForest
