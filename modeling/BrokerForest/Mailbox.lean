import BrokerForest.Message
/-!
# The mailbox for one response

A negotiation announces whose response it waits for, sends its request and then takes what
was delivered.  The mailbox takes one response, only from the peer that is waited for, and
none once the wait is cancelled.  The response passes through a channel that has room for
one, whose ends are let go of one after the other.

* `Mailbox.expect` — a new wait, in place of any before it;
* `Mailbox.deliver` — a response arrives;
* `Mailbox.cancel` — a wait for a peer is hopeless;
* `Mailbox.collect` — what the wait came to; no wait is left.
-/

namespace BrokerForest

/-- The wait for one response. -/
structure Mailbox where
  /-- The peer whose response would still be taken. -/
  awaited : Option Peer
  /-- The peer that the wait is for. -/
  target : Option Peer
  /-- Whether the channel still has an end to put a response into. -/
  sender : Bool
  /-- The end of the channel that the waiter has, and the response that is in the channel. -/
  receiver : Option (Option Response)
  /-- Who would take a response has somewhere to put it. -/
  sender_eq : sender = awaited.isSome
deriving DecidableEq

/-- Why a mailbox does not take, or does not have, a response. -/
inductive MailboxError where
  | violation (expected origin : Peer)
  | unreachable (peer : Peer)
  | notWaiting
deriving DecidableEq

namespace MailboxError

/-- An error in words. -/
def message : MailboxError → String
  | .violation expected origin =>
    "response from " ++ origin.label ++ " while waiting for " ++ expected.label
  | .unreachable peer => peer.label ++ " is unreachable"
  | .notWaiting => "not waiting for any response"

end MailboxError

namespace Mailbox

/-- Nobody is waited for. -/
def empty : Mailbox := ⟨none, none, false, none, rfl⟩

instance : Inhabited Mailbox := ⟨empty⟩

/-- A wait for a peer's response with a new channel, whatever was before it. -/
def expect (_ : Mailbox) (p : Peer) : Mailbox := ⟨some p, some p, true, some none, rfl⟩

/-- Whether a peer's response would be taken. -/
def expects (m : Mailbox) (p : Peer) : Bool := p.isThe m.awaited

/-- The response that is in the channel. -/
def delivered (m : Mailbox) : Option Response := m.receiver.join

/-- The mailbox after the way into its channel is gone. -/
def shut (m : Mailbox) : Mailbox := { m with awaited := none, sender := false, sender_eq := rfl }

/-- The mailbox with a peer's response, or why it is not taken.  A response that the channel
has no room for would be lost. -/
def deliver (m : Mailbox) (origin : Peer) (response : Response) : Except MailboxError Mailbox :=
  match m.awaited with
  | none => .error .notWaiting
  | some expected =>
    if origin.same expected then
      .ok { m.shut with receiver := m.receiver.map fun held => held.or (some response) }
    else .error (.violation expected origin)

/-- The mailbox after a wait for a peer is given up; any other wait goes on. -/
def cancel (m : Mailbox) (p : Peer) : Mailbox := if m.expects p then m.shut else m

/-- What the wait came to once nothing more can arrive. -/
def collect (m : Mailbox) : Except MailboxError Response :=
  match m.receiver with
  | none => .error .notWaiting
  | some (some response) => .ok response
  | some none =>
    match m.target with
    | some p => .error (.unreachable p)
    | none => .error .notWaiting

end Mailbox

end BrokerForest
