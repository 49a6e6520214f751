import BrokerForest.Manager
/-!
# Fleets: nodes at work in one world

Several nodes share a world, which passes events to them one at a time.  A reconfiguration
that can go on does so before anything else happens.  While a node waits for an answer the
world goes on; when no event is left, the node that was engaged last takes its answer, so
that engagements nest.

* `Surroundings` — a world that several nodes are in;
* `Fleet.act` — one node does something;
* `Fleet.settle` — the world and the nodes go on until nothing is left to do.
-/

namespace BrokerForest

/-- A world that several nodes, known by their numbers, are in. -/
class Surroundings (ω : Type) where
  openLink : Nat → String → ω → Except LinkError Peer × ω
  closeLink : Nat → Peer → ω → ω
  send : Nat → Peer → Message → TrafficClass → ω → Bool × ω
  /-- What happens next, if anything does, and which node experiences what. -/
  next : ω → Option (Option (Nat × Event) × ω)

/-- A world as one of the nodes in it sees it. -/
structure Seat (ω : Type) where
  number : Nat
  world : ω

instance {ω : Type} [Surroundings ω] : Transport (Seat ω) where
  openLink url seat :=
    let (result, world) := Surroundings.openLink seat.number url seat.world
    (result, { seat with world := world })
  closeLink peer seat :=
    { seat with world := Surroundings.closeLink seat.number peer seat.world }
  send peer message traffic seat :=
    let (delivered, world) := Surroundings.send seat.number peer message traffic seat.world
    (delivered, { seat with world := world })

/-- Nodes at work in one world.  A place without a node is the world's own. -/
structure Fleet (ω : Type) where
  nodes : List (Option Node)
  world : ω
  words : Words
  /-- What was seen of which node, in order. -/
  trace : List (Nat × Effect)
  /-- The nodes of which a reconfiguration goes on, the last to begin first. -/
  engaged : List Nat

namespace Fleet

variable {ω : Type}

/-- The node of a number. -/
def node? (f : Fleet ω) (number : Nat) : Option Node := (f.nodes[number]?).join

/-- The fleet after its world has changed. -/
def onWorld (f : Fleet ω) (change : ω → ω) : Fleet ω := { f with world := change f.world }

/-- The fleet before anything was seen of it. -/
def forgetTrace (f : Fleet ω) : Fleet ω := { f with trace := [] }

/-- What was seen of one node. -/
def seen (f : Fleet ω) (number : Nat) : List Effect :=
  f.trace.filterMap fun (i, e) => if i = number then some e else none

/-- The first outcome of a node's reconfigurations. -/
def outcome? (f : Fleet ω) (number : Nat) : Option Outcome :=
  (f.seen number).findSome? fun
    | .ended outcome => some outcome
    | _ => none

variable [Surroundings ω]

/-- A node does something, of which something is learnt, and then what waits for its slot
begins if it is free. -/
def perform {α : Type} (f : Fleet ω) (number : Nat)
    (deed : Session (Seat ω) → α × Session (Seat ω)) : Option α × Fleet ω :=
  match f.node? number with
  | none => (none, f)
  | some node =>
    let (learnt, s) := deed ⟨node, ⟨number, f.world⟩, f.words, []⟩
    let s := s.wake
    let engaged :=
      if !s.node.isEngaged then f.engaged.erase number
      else if f.engaged.contains number then f.engaged
      else number :: f.engaged
    (some learnt,
      { nodes := f.nodes.set number (some s.node)
        world := s.outside.world
        words := s.words
        trace := f.trace ++ s.trace.map fun e => (number, e)
        engaged := engaged })

/-- A node does something. -/
def act (f : Fleet ω) (number : Nat) (deed : Session (Seat ω) → Session (Seat ω)) : Fleet ω :=
  (f.perform number fun s => ((), deed s)).2

/-- The node that was engaged last, if its reconfiguration is to go on before anything else. -/
def ready? (f : Fleet ω) : Option Nat :=
  f.engaged.head?.filter fun number => (f.node? number).any Node.isReady

/-- The next thing happens; none if nothing is left to do. -/
def step (f : Fleet ω) : Option (Fleet ω) :=
  match f.ready? with
  | some number => some (f.act number Session.advance)
  | none =>
    match Surroundings.next f.world with
    | some (some (number, event), world) =>
      some ({ f with world := world }.act number fun s => s.onEvent event)
    | some (none, world) => some { f with world := world }
    | none => f.engaged.head?.map fun number => f.act number Session.resume

/-- At most so many things happen. -/
def run : (steps : Nat) → Fleet ω → Fleet ω
  | 0, f => f
  | steps + 1, f =>
    match f.step with
    | some f => run steps f
    | none => f

/-- More than happens before a fleet is at rest. -/
def patience : Nat := Nat.pow 2 40

/-- Everything happens until nothing is left to do. -/
def settle (f : Fleet ω) : Fleet ω := f.run patience

end Fleet

end BrokerForest
