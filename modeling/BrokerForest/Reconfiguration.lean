import BrokerForest.Negotiation
/-!
# Reconfigurations: searches, joins and new trees

A reconfiguration holds the node's slot from its beginning to its end.  It goes on step by
step, and between any two steps the node handles events: what a step has looked at may have
changed by the next.

* `Session.begin` — an errand begins;
* `Session.draw` — a search takes its next candidate;
* `Session.approach` — a link is opened to whom is to be asked;
* `Session.submit`, `Session.retreat` — the request is sent, or given up;
* `Session.resume` — the negotiation that waits for an answer is over;
* `Session.forsake`, `Session.found` — the father is forgotten, and a new tree begins;
* `Session.advance` — whichever of these is next, but for the end of a wait;
* `Session.wake` — errands that wait for the slot begin, one after another.
-/

namespace BrokerForest

/-- What holds the slot of a node that has taken a candidate of a search.  One without a URL
is not asked. -/
def Candidate.holder (candidate : Candidate) (search : Search) : Holder :=
  match candidate.peer.primaryUrl with
  | none => .searching search
  | some url => .opening ⟨url, candidate.force, .search search candidate.source⟩

namespace Session

variable {σ : Type} [Transport σ]

/-! ## What negotiations and searches come to -/

/-- A search ends with a father, or without.  Unless it was to leave the node as it is,
the node is to become the root of a new tree then. -/
def endSearch (s : Session σ) (search : Search) (found : Option (Peer × PoolKind)) :
    Session σ :=
  let s := s.note (.endSearch (found.map fun f => (f.1.id, f.2)) search.tries)
  let outcome := if found.isSome then .stop else .again
  let s := s.withNode (s.node.settleConnector search.connector outcome)
  if found.isNone && !search.asRoot then s.hold (.founding true)
  else s.release.finish (.searched (found.map Prod.fst))

/-- A search takes a peer's refusal into account.  The node too remembers a hint. -/
def learn (s : Session σ) (peer : Peer) (refusal : Refusal) (search : Search) :
    Session σ × Search :=
  let self := s.node.self
  let s := match refusal with
    | .depthOrColor (some hint) =>
      if hint.same self then s
      else
        let p := s.node.position
        s.withPosition { p with global := p.global.add hint }
    | _ => s
  (s, search.learn self peer refusal)

/-- What asking the peer at a URL means for joining its tree.  A refusal's hint becomes a
candidate. -/
def endJoin (s : Session σ) (result : NegotiationResult) : Session σ :=
  match result with
  | .accepted father => s.finish (.joined (.ok father))
  | .selfConnect => s.finish (.joined (.ok s.node.self))
  | .failed error => s.finish (.joined (.error (.failed error)))
  | .refused _ _ refusal =>
    let s := match refusal with
      | .depthOrColor (some hint) =>
        let p := s.node.position
        s.withPosition { p with global := p.global.add hint }
      | _ => s
    s.finish (.joined (.error (.rejected refusal.kind)))

/-- What is to come of a negotiation that is over. -/
def settle (s : Session σ) (purpose : Purpose) (result : NegotiationResult) : Session σ :=
  match purpose with
  | .ask => s.release.finish (.asked result)
  | .join => s.release.endJoin result
  | .search search source =>
    match result with
    | .accepted father => s.endSearch search (some (father, source))
    | .refused peer _ refusal =>
      let (s, search) := s.learn peer refusal search
      s.hold (.searching search)
    | .selfConnect | .failed _ => s.hold (.searching search)

/-! ## Step by step -/

/-- The next candidate of a search as the node stands. -/
def nextCandidate (s : Session σ) (search : Search) : NextCandidate :=
  search.pools.next (search.admits s.node.self s.node.position.neighbors) s.words

/-- A search that is between two candidates takes the next, or ends if there is none. -/
def draw (s : Session σ) (search : Search) : Session σ :=
  if s.node.stopped then s.endSearch search none
  else
    let next := s.nextCandidate search
    let s := (s.withWords next.words).pause next.pause
    match next.found with
    | none => s.endSearch { search with pools := next.pools } none
    | some candidate => s.hold (candidate.holder (search.mark next.pools candidate))

/-- Someone is to be asked over a link that is open from then on, or there is nobody. -/
def approach (s : Session σ) (attempt : Attempt) : Session σ :=
  match s.contact attempt.url attempt.force with
  | (.error result, s) => s.settle attempt.purpose result
  | (.ok (peer, request), s) => s.hold (.asking ⟨peer, attempt.purpose⟩ request)

/-- The request is sent, and the node waits for an answer, or it is not. -/
def submit (s : Session σ) (negotiation : Negotiation) (request : Request) : Session σ :=
  match s.ask negotiation.peer request with
  | (true, s) => s.hold (.negotiating negotiation)
  | (false, s) => s.hold (.retreating negotiation)

/-- A request that did not go out is given up. -/
def retreat (s : Session σ) (negotiation : Negotiation) : Session σ :=
  let (result, s) := s.giveUp negotiation.peer
  s.settle negotiation.purpose result

/-- A father that was told so is left. -/
def forsake (s : Session σ) (father : Peer) : Session σ :=
  ((s.withPosition (s.node.position.forget father)).closeLink father).hold (.founding false)

/-- The node becomes the root of a new tree, unless it was to do so for want of a father and
has stopped meanwhile. -/
def found (s : Session σ) (repair : Bool) : Session σ :=
  if repair then
    let s := if s.node.stopped then s else s.newTree.startConnector
    s.release.finish (.searched none)
  else
    let s := s.newTree
    (if s.node.stopped then s else s.startConnector).release

/-- A reconfiguration that can go on does so by one step. -/
def advance (s : Session σ) : Session σ :=
  match s.node.slot.holder with
  | some (.searching search) => s.draw search
  | some (.opening attempt) => s.approach attempt
  | some (.asking negotiation request) => s.submit negotiation request
  | some (.retreating negotiation) => s.retreat negotiation
  | some (.leaving father) => s.forsake father
  | some (.founding repair) => s.found repair
  | some .outsider | some (.negotiating _) | none => s

/-- The wait for an answer is over: what is to come of the negotiation comes of it. -/
def resume (s : Session σ) : Session σ :=
  match s.node.slot.holder with
  | some (.negotiating negotiation) =>
    let (result, s) := s.conclude negotiation.peer
    s.settle negotiation.purpose result
  | _ => s

/-! ## Errands -/

/-- A search for a father begins, unless the node is stopped or has one. -/
def search (s : Session σ) (dead : Option Peer) (asRoot : Bool) (connector : Option Nat) :
    Session σ :=
  if s.node.stopped then
    (s.withNode (s.node.settleConnector connector .again)).finish (.searched none)
  else
    let p := s.node.position
    match p.father with
    | some father =>
      (s.withNode (s.node.settleConnector connector .stop)).finish (.searched (some father))
    | none =>
      let (fork, left) := p.global.fork
      let settings := s.node.settings
      let s := s.withPosition { p with global := left }
      let s := s.note (.startSearch (dead.map Peer.id) asRoot)
      s.hold (.searching
        { dead := dead
          asRoot := asRoot
          connector := connector
          pools := .start settings.order p.regional fork settings.globalMax settings.busyDelay
          tried := []
          tries := 0 })

/-- The node is to ask the peer at a URL to be its father, unless it has one. -/
def join (s : Session σ) (url : String) : Session σ :=
  match s.node.position.father with
  | some father => s.finish (.joined (.error (.attached father)))
  | none => s.hold (.opening ⟨url, .none, .join⟩)

/-- The peer at a URL is to be asked, with force, for the sake of its answer. -/
def askAlone (s : Session σ) (url : String) (force : Force) : Session σ :=
  s.hold (.opening ⟨url, force, .ask⟩)

/-- The node tells its father, if it has one, that it leaves it, and is to become the root of
a new tree. -/
def reroot (s : Session σ) : Session σ :=
  match s.node.position.father with
  | none => s.hold (.founding false)
  | some father => (s.tell father .noLongerChild).hold (.leaving father)

/-- An errand begins, the slot being free. -/
def begin (s : Session σ) : Errand → Session σ
  | .repair dead => s.search (some dead) false none
  | .connect connector => s.search none true (some connector)
  | .join url => s.join url
  | .reroot => s.reroot

/-- Errands begin in the order in which they came, until one holds the slot. -/
def wakeSome : (errands : Nat) → Session σ → Session σ
  | 0, s => s
  | errands + 1, s =>
    if s.node.slot.isBusy then s
    else
      match s.node.errands with
      | [] => s
      | errand :: later =>
        wakeSome errands ((s.withNode { s.node with errands := later }).begin errand)

/-- What waits for the slot begins, if it is free. -/
def wake (s : Session σ) : Session σ := wakeSome s.node.errands.length s

end Session

end BrokerForest
