import BrokerForest.Session
/-!
# Admission: answering requests

A node that is asked to be a father first asks whether its rank admits the requester
beneath it, then whether it is busy, then whether its degree allows.  The rank may have to
change: a colorless root takes a requester's color, and a node of the requester's color
moves above it if there is room beneath its own father.

* `Position.admission` — whether a rank admits another beneath it, and how;
* `Node.judge` — what a request comes to, and what becomes of the requester as a candidate;
* `Session.examine` — a request is answered.
-/

namespace BrokerForest

/-- How a node takes a requester beneath it. -/
inductive Admission where
  /-- It takes the requester's color, and a depth above its own. -/
  | adopt (color : Color) (depth : Depth)
  /-- It moves above the requester. -/
  | move (depth : Depth)
  /-- It stays where it is. -/
  | keep
deriving DecidableEq

namespace Admission

/-- The rank of a node after an admission. -/
def rank (own : Rank) : Admission → Rank
  | adopt color depth => ⟨color, depth⟩
  | move depth => ⟨own.color, depth⟩
  | keep => own

/-- Whether the node takes another color. -/
def adopts : Admission → Bool
  | adopt .. => true
  | _ => false

end Admission

/-- What becomes of a requester, as a candidate for the node's own tree. -/
inductive Tip where
  | none
  /-- The node, being a root, keeps it as its hint. -/
  | keep
  /-- The node tells its root of it. -/
  | pass (root : Peer)
deriving DecidableEq

/-- What a request comes to. -/
inductive Verdict where
  /-- The requester is a neighbor already: it is not answered. -/
  | duplicate
  | refuse (refusal : Refusal) (tip : Tip)
  | accept (admission : Admission)
deriving DecidableEq

namespace Position

/-- Whether the node can take its place above a requester of the same color. -/
def admissionOfKin (p : Position) (requester : Depth) (ws : Words) : Option Admission × Words :=
  let belowFather := match p.fatherDepth with
    | none => true
    | some floor => decide (floor < p.rank.depth)
  if p.rank.depth < requester && belowFather then (some .keep, ws)
  else
    let (depth, ws) := p.rank.depth.undercut requester p.fatherDepth ws
    (depth.map .move, ws)

/-- Whether the node's rank admits a requester beneath it. -/
def admission (p : Position) (requester : Rank) (ws : Words) : Option Admission × Words :=
  if p.isRoot && p.rank.color.isColorless && !requester.color.isColorless then
    let (depth, ws) := p.rank.depth.rise requester.depth ws
    (some (.adopt requester.color depth), ws)
  else if p.rank.color = requester.color then p.admissionOfKin requester.depth ws
  else if requester.color.canJoin p.rank.color then (some .keep, ws)
  else (none, ws)

end Position

namespace Node

/-- The refusal of a requester that the rank does not admit.  Where the node's tree may
join the requester's, its root is to know of the requester; where the requester's may
join the node's, the requester is to know of the root. -/
def refuseRank (n : Node) (requester : Color) : Verdict :=
  let root := n.position.localRoot n.self
  if n.position.rank.color.canJoin requester then
    .refuse (.depthOrColor none) (if root.same n.self then .keep else .pass root)
  else
    .refuse (.depthOrColor (if root.same n.self then none else some root)) .none

/-- The refusal of a requester that the rank admits: of a node that is busy, unless it may
still join the requester's tree, and of one whose degree is too great or too small. -/
def refuseDegree (n : Node) (request : Request) : Option Refusal :=
  let degree := n.position.neighbors.degree
  if n.slot.isBusy && !n.position.rank.color.canJoin request.rank.color then some .busy
  else if n.settings.maxDegree ≤ degree && !request.force.maxDegree then
    some (.maxDegree n.position.children)
  else if degree < n.settings.minDegree && !request.force.minDegree then
    some (.minDegree n.chain)
  else none

/-- What a request comes to. -/
def judge (n : Node) (requester : Peer) (request : Request) (ws : Words) : Verdict × Words :=
  if n.position.neighbors.contains requester then (.duplicate, ws)
  else
    match n.position.admission request.rank ws with
    | (none, ws) => (n.refuseRank request.rank.color, ws)
    | (some admission, ws) =>
      match n.refuseDegree request with
      | some refusal => (.refuse refusal .none, ws)
      | none => (.accept admission, ws)

end Node

namespace Session

variable {σ : Type} [Transport σ]

/-- A requester is refused. -/
def refuse (s : Session σ) (requester : Peer) (refusal : Refusal) : Session σ :=
  (s.note (.rejectChild requester.id refusal.kind)).tell requester
    (.response ⟨s.node.position.rank, .refused refusal⟩)

/-- A child is told that it is accepted.  If it cannot be told nothing changes; otherwise
it is a neighbor, and the children before it learn of it and of a new color. -/
def accept (s : Session σ) (child : Peer) (admission : Admission) : Session σ :=
  let p := s.node.position
  let rank := admission.rank p.rank
  let children := p.children
  let upstream := s.node.chain
  match s.send child (.response ⟨rank, .accepted ⟨upstream, children⟩⟩) .control with
  | (false, s) => s
  | (true, s) =>
    -- The node holds a reference to the link for as long as the child is a neighbor.
    let s := match child.primaryUrl with
      | some url => (s.openLink url).2
      | none => s
    let s := s.withPosition { p with rank := rank, neighbors := p.neighbors.add child }
    let s := s.note (.acceptChild child.id rank)
    let s := s.sendAll children
      (.newSibling ⟨rank, upstream, children, p.global.snapshot, child⟩)
    if admission.adopts then s.sendAll children (s.node.update upstream) else s

/-- A request is answered, but for one of a neighbor. -/
def examine (s : Session σ) (requester : Peer) (request : Request) : Session σ :=
  let (verdict, ws) := s.node.judge requester request s.words
  let s := s.withWords ws
  match verdict with
  | .duplicate => s
  | .refuse refusal tip =>
    match tip with
    | .none => s.refuse requester refusal
    | .keep =>
      let p := s.node.position
      (s.withPosition { p with global := p.global.setHint requester }).refuse requester refusal
    | .pass root =>
      (s.refuse requester refusal).sendTransient root (.goodCandidate requester) .control
  | .accept admission => s.accept requester admission

end Session

end BrokerForest
