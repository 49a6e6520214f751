import BrokerForest.Network.Life
import BrokerForest.Proofs.SearchCourse
/-!
# Shifts: all that an act can make of a node

Many facts about a node hold after every act because they hold before it.  Such a fact is
shown once for each way in which an act can change the node, and this module says which
ways there are: where the node can come to stand, and what can become of its slot and its
mailbox.

Main statements:

* `Node.Shift` — where an act can take a node;
* `Session.Waits` — what an act can make of the slot and of the mailbox;
* `Session.Turns` — both, for one act;
* **`Session.turns_run`** — every act is of this sort;
* `Life.father_of_seeking` — while a node looks for a father it has none.
-/

namespace BrokerForest

/-- Whether an act is to part from a peer, or to find that it is gone. -/
def Act.Parts (peer : Peer) : Act → Prop
  | event (.closed p) | event (.dead p) | event (.message p .noLongerChild) | leave p => p = peer
  | _ => False

/-- Whether the holder of a slot is to found a new tree, and asks nobody any more. -/
def Holder.isLeaving : Holder → Bool
  | .leaving _ | .founding _ => true
  | _ => false

/-- Whether the node is to found a new tree, and asks nobody any more. -/
def Node.isLeaving (n : Node) : Bool := n.slot.holder.any Holder.isLeaving

/-- Whether the node has forgotten its father, and has only to found its new tree. -/
def Node.isUprooted (n : Node) : Bool := n.slot.holder == some (.founding false)

theorem Node.isUprooted_iff {n : Node} :
    n.isUprooted = true ↔ n.slot.holder = some (.founding false) := by
  rw [isUprooted, beq_iff_eq]

theorem Node.isUprooted_congr {n k : Node} (h : n.slot = k.slot) : n.isUprooted = k.isUprooted := by
  rw [isUprooted, isUprooted, h]

theorem Node.negotiation?_congr {n k : Node} (h : n.slot = k.slot) :
    n.negotiation? = k.negotiation? := by
  rw [negotiation?, negotiation?, h]

theorem Node.isSeeking_congr {n k : Node} (h : n.slot = k.slot) : n.isSeeking = k.isSeeking := by
  rw [isSeeking, isSeeking, h]

theorem Node.isLeaving_of_holder {n : Node} {holder : Holder}
    (h : n.slot.holder = some holder) : n.isLeaving = holder.isLeaving := by
  simp [isLeaving, h]

theorem Node.isWaiting_of_holder {n : Node} {holder : Holder}
    (h : n.slot.holder = some holder) : n.isWaiting = holder.isWaiting := by
  simp [isWaiting, h]

/-- What a node looks for a father with is seeking. -/
theorem Node.isSeeking_of_holder {n : Node} {holder : Holder} (h : n.slot.holder = some holder)
    (hseeks : holder.isSeeking = true) : n.isSeeking = true := by
  simpa [isSeeking, h] using hseeks

/-- The search that a negotiation is for. -/
def Purpose.search? : Purpose → Option Search
  | search s _ => some s
  | ask | join => none

theorem Purpose.eq_search_of {purpose : Purpose} {search : Search}
    (h : purpose.search? = some search) : ∃ source, purpose = .search search source := by
  cases purpose with
  | ask | join => cases h
  | search search' source =>
      cases h
      exact ⟨source, rfl⟩

/-- The search that holds a slot, between two candidates or while it asks one. -/
def Holder.search? : Holder → Option Search
  | .searching search => some search
  | .opening attempt => attempt.purpose.search?
  | .asking negotiation _ | .negotiating negotiation | .retreating negotiation =>
    negotiation.purpose.search?
  | .outsider | .leaving _ | .founding _ => none

/-- The search of a node that goes on. -/
def Node.search? (n : Node) : Option Search := n.slot.holder.bind Holder.search?

/-- A candidate that was taken is taken for the search. -/
theorem Candidate.search?_holder (c : Candidate) (search : Search) :
    (c.holder search).search? = some search := by
  rcases c.holder_cases search with ⟨-, heq⟩ | ⟨url, -, heq⟩ <;> rw [heq] <;> rfl

theorem Node.search?_of_holder {n : Node} {holder : Holder} (h : n.slot.holder = some holder) :
    n.search? = holder.search? := by
  simp [search?, h]

/-- Where an act can take a node. -/
inductive Node.Shift (n : Node) : Act → Position → Prop where
  /-- The node stays where it is. -/
  | stay (a : Act) : n.Shift a n.position
  /-- A requester is accepted as a child. -/
  | welcome {child : Peer} {request : Request} {admission : Admission} {ws ws' : Words}
      (verdict : n.judge child request ws = (.accept admission, ws')) :
      n.Shift (.event (.message child (.request request))) (n.position.welcome child admission)
  /-- A requester whose tree the node's may join becomes the hint. -/
  | keepHint {requester : Peer} {request : Request} :
      n.Shift (.event (.message requester (.request request)))
        { n.position with global := n.position.global.setHint requester }
  /-- A candidate that is recommended becomes the hint. -/
  | takeHint {origin candidate : Peer} (other : candidate.same n.self = false) :
      n.Shift (.event (.message origin (.goodCandidate candidate)))
        { n.position with global := n.position.global.setHint candidate }
  /-- Candidates are heard of. -/
  | hear {origin : Peer} {peers : List Peer} :
      n.Shift (.event (.message origin (.candidates peers)))
        (n.position.hear n.self peers Position.nobody)
  /-- The father tells of a sibling that is gone. -/
  | bury {origin : Peer} {news : SiblingDead} (father : n.position.isFather origin = true) :
      n.Shift (.event (.message origin (.siblingDead news)))
        (n.position.onSiblingDead n.self news)
  /-- The father tells of a new sibling. -/
  | greet {origin : Peer} {news : NewSibling} (father : n.position.isFather origin = true) :
      n.Shift (.event (.message origin (.newSibling news))) (n.position.onNewSibling n.self news)
  /-- The father tells of its rank and its chain. -/
  | heed {origin : Peer} {news : Update} {ws : Words}
      (father : n.position.isFather origin = true) :
      n.Shift (.event (.message origin (.update news))) (n.position.heed news ws).2.1
  /-- A client is linked. -/
  | serve {client : Peer} (sort : client.broker = false) :
      n.Shift (.event (.opened client))
        { n.position with neighbors := n.position.neighbors.add client }
  /-- A peer is gone that is not the father, or no broker beside the node. -/
  | forget {a : Act} {peer : Peer} (parts : a.Parts peer)
      (other : n.position.neighbors.isBroker peer = false ∨ n.position.isFather peer = false) :
      n.Shift a (n.position.forget peer)
  /-- The father is gone. -/
  | lose {a : Act} {peer : Peer} (parts : a.Parts peer)
      (broker : n.position.neighbors.isBroker peer = true)
      (father : n.position.isFather peer = true) :
      n.Shift a (n.position.forget peer).orphan
  /-- A search takes the hint. -/
  | fork {errand : Errand} (root : n.position.father = none) :
      n.Shift (.begin errand) { n.position with global := n.position.global.withoutHint }
  /-- The node becomes the root of a new tree. -/
  | found {repair : Bool} {ws : Words}
      (founding : n.slot.holder = some (.founding repair)) :
      n.Shift .advance (n.position.newTree n.self ws).1
  /-- The father that was told so is left, but for the node's own idea of its place. -/
  | forsake {father : Peer} (leaving : n.slot.holder = some (.leaving father)) :
      n.Shift .advance (n.position.forget father)
  /-- A refusal names somebody. -/
  | learn {negotiation : Negotiation} {response : Response} {hint : Peer}
      (negotiating : n.slot.holder = some (.negotiating negotiation))
      (collected : n.mailbox.collect = .ok response)
      (refused : response.answer = .refused (.depthOrColor (some hint)))
      (other : hint.same n.self = false ∨ negotiation.purpose = .join) :
      n.Shift .resume { n.position with global := n.position.global.add hint }
  /-- The node takes its place beneath whoever has accepted it. -/
  | attach {negotiation : Negotiation} {response : Response} {acceptance : Acceptance}
      {ws : Words} (negotiating : n.slot.holder = some (.negotiating negotiation))
      (collected : n.mailbox.collect = .ok response)
      (accepted : response.answer = .accepted acceptance) :
      n.Shift .resume
        (n.position.attach n.self negotiation.peer response.rank acceptance ws).1

namespace Session

/-- A node was seen to find another at the end of a link. -/
def Meets {σ : Type} (s t : Session σ) (peer : Peer) : Prop :=
  peer.same s.node.self = false ∧ ∃ e ∈ s.since t, peer ∈ e.resolved

/-- What an act can make of a node's slot and of its mailbox. -/
inductive Waits {σ : Type} (s t : Session σ) : Act → Prop where
  /-- It touches neither. -/
  | aside (a : Act) (slot : t.node.slot = s.node.slot) (mailbox : t.node.mailbox = s.node.mailbox) :
      Waits s t a
  /-- A response is delivered. -/
  | deliver {origin : Peer} {response : Response} (slot : t.node.slot = s.node.slot)
      (delivered : s.node.mailbox.deliver origin response = .ok t.node.mailbox) :
      Waits s t (.event (.message origin (.response response)))
  /-- The wait for a peer whose link is gone is given up. -/
  | cancel (a : Act) (peer : Peer) (slot : t.node.slot = s.node.slot)
      (mailbox : t.node.mailbox = s.node.mailbox.cancel peer) :
      Waits s t a
  /-- A reconfiguration begins or goes on without a wait.  Whoever is to be asked then was found
  at the end of a link, and whoever is to be left is the father. -/
  | step (a : Act) (before : s.node.isWaiting = false) (stays : s.node.isLeaving = false)
      (after : t.node.isWaiting = false) (mailbox : t.node.mailbox = s.node.mailbox)
      (meets : ∀ negotiation request, t.node.slot.holder = some (.asking negotiation request) →
        request.rank = s.node.position.rank ∧ s.Meets t negotiation.peer)
      (leaves : ∀ father, t.node.slot.holder = some (.leaving father) →
        s.node.position.father = some father)
      (founds : t.node.slot.holder = some (.founding false) → s.node.position.father = none) :
      Waits s t a
  /-- The father that was told so is left. -/
  | forsake {father : Peer} (leaving : s.node.slot.holder = some (.leaving father))
      (founding : t.node.slot.holder = some (.founding false))
      (mailbox : t.node.mailbox = s.node.mailbox) :
      Waits s t .advance
  /-- A new tree is founded, if it is to be. -/
  | found {repair : Bool} (founding : s.node.slot.holder = some (.founding repair))
      (free : t.node.slot = .free) (mailbox : t.node.mailbox = s.node.mailbox)
      (root : t.node.position.father = none ∨ repair = true) :
      Waits s t .advance
  /-- A wait for an answer begins, and the request is sent or not. -/
  | ask {negotiation : Negotiation} {request : Request}
      (asking : s.node.slot.holder = some (.asking negotiation request))
      (mailbox : t.node.mailbox = s.node.mailbox.expect negotiation.peer)
      (asked : t.node.slot.holder = some (.negotiating negotiation) ∧
          .sent negotiation.peer (.request request) .control true ∈ s.since t ∨
        t.node.slot.holder = some (.retreating negotiation)) :
      Waits s t .advance
  /-- There is no wait any more, and what was collected is gone. -/
  | rest (a : Act) (before : s.node.isWaiting = true)
      (after : t.node.slot.holder = none ∨ ∃ search, t.node.slot.holder = some (.searching search))
      (mailbox : t.node.mailbox = .empty) :
      Waits s t a

/-- Whom a node negotiates with it has negotiated with before, or has just found at the end of a
link. -/
theorem Waits.negotiation {σ : Type} {s t : Session σ} {a : Act} (h : s.Waits t a)
    {negotiation : Negotiation} (hnegotiation : t.node.negotiation? = some negotiation) :
    s.node.negotiation? = some negotiation ∨ s.Meets t negotiation.peer := by
  cases h with
  | aside _ slot | deliver slot | cancel _ _ slot =>
      rw [Node.negotiation?_congr slot] at hnegotiation
      exact Or.inl hnegotiation
  | step _ _ _ after _ meets =>
      rw [Node.negotiation?, Option.bind_eq_some_iff] at hnegotiation
      obtain ⟨holder, hholder, hof⟩ := hnegotiation
      cases holder with
      | asking negotiation' request =>
          cases hof
          exact Or.inr (meets negotiation request hholder).2
      | negotiating | retreating => simp [Node.isWaiting, hholder, Holder.isWaiting] at after
      | outsider | searching | opening | leaving | founding => cases hof
  | ask asking _ asked =>
      left
      rcases asked with ⟨h, -⟩ | h <;>
        simp_all [Node.negotiation?, Holder.negotiation?]
  | forsake _ founding => simp [Node.negotiation?, founding, Holder.negotiation?] at hnegotiation
  | found _ free => simp [Node.negotiation?, free, Slot.free] at hnegotiation
  | rest _ _ after =>
      rcases after with h | ⟨search, h⟩ <;>
        simp [Node.negotiation?, h, Holder.negotiation?] at hnegotiation

/-- All that an act can make of a node. -/
structure Turns {σ : Type} (s : Session σ) (a : Act) (t : Session σ) : Prop where
  self : t.node.self = s.node.self
  settings : t.node.settings = s.node.settings
  shift : s.node.Shift a t.node.position
  waits : s.Waits t a
  /-- A node without a father begins to look for one, and gets none while it looks. -/
  seeking : t.node.isSeeking = true →
    (s.node.isSeeking = true ∨ s.node.position.father = none) ∧
      (t.node.position.father = s.node.position.father ∨ t.node.position.father = none)

end Session

/-! ## The father after a shift -/

/-- Without an acceptance a node keeps its father, or has none. -/
theorem Node.Shift.father {n : Node} {a : Act} {p : Position} (h : n.Shift a p) :
    (p.father = n.position.father ∨ p.father = none) ∨
      a = .resume ∧ ∃ negotiation response acceptance ws,
        n.slot.holder = some (.negotiating negotiation) ∧
          n.mailbox.collect = .ok response ∧ response.answer = .accepted acceptance ∧
            p = (n.position.attach n.self negotiation.peer response.rank acceptance ws).1 := by
  cases h with
  | attach negotiating collected accepted =>
      exact Or.inr ⟨rfl, _, _, _, _, negotiating, collected, accepted, rfl⟩
  | heed father => exact Or.inl (Or.inl (Position.settle_frame ..).1)
  | lose | found => exact Or.inl (Or.inr rfl)
  | stay | welcome | keepHint | takeHint | hear | bury | greet | serve | forget | forsake | fork
  | learn =>
      exact Or.inl (Or.inl rfl)

namespace Session

variable {σ : Type} [Transport σ] {s t : Session σ} {a : Act}

omit [Transport σ] in
/-- What leaves the slot alone begins no reconfiguration. -/
theorem turns_of_slot (hself : t.node.self = s.node.self)
    (hsettings : t.node.settings = s.node.settings) (hslot : t.node.slot = s.node.slot)
    (hshift : s.node.Shift a t.node.position) (hwaits : s.Waits t a)
    (hfather : t.node.position.father = s.node.position.father ∨ t.node.position.father = none) :
    s.Turns a t where
  self := hself
  settings := hsettings
  shift := hshift
  waits := hwaits
  seeking h := ⟨Or.inl (by simpa [Node.isSeeking, hslot] using h), hfather⟩

omit [Transport σ] in
/-- What changes of a node only where it stands and what it has put off. -/
theorem turns_of_node {p : Position} {errands : List Errand} {connector : Option Connector}
    {connectors : Nat} {stopped : Bool}
    (hnode : t.node =
      { s.node with
        position := p
        errands := errands
        connector := connector
        connectors := connectors
        stopped := stopped })
    (hshift : s.node.Shift a p)
    (hfather : p.father = s.node.position.father ∨ p.father = none) :
    s.Turns a t :=
  turns_of_slot (by rw [hnode]) (by rw [hnode]) (by rw [hnode]) (by rwa [hnode])
    (.aside a (by rw [hnode]) (by rw [hnode])) (by rwa [hnode])

omit [Transport σ] in
/-- What changes of a node only what it has put off. -/
theorem turns_aside {errands : List Errand} {connector : Option Connector} {connectors : Nat}
    {stopped : Bool}
    (hnode : t.node =
      { s.node with
        errands := errands
        connector := connector
        connectors := connectors
        stopped := stopped }) :
    s.Turns a t :=
  turns_of_node hnode (.stay a) (Or.inl rfl)

omit [Transport σ] in
/-- Doing nothing. -/
theorem turns_refl (s : Session σ) (a : Act) : s.Turns a s := turns_aside rfl

/-! ## Events -/

/-- Parting from a peer, or finding that it is gone. -/
theorem turns_depart {u : Session σ} {peer : Peer} {mailbox : Mailbox} (parts : a.Parts peer)
    (hnode : u.node = { s.node with mailbox := mailbox })
    (hmailbox : mailbox = s.node.mailbox ∨ mailbox = s.node.mailbox.cancel peer) :
    s.Turns a (u.depart peer) := by
  have hwaits : ∀ t : Session σ, t.node.slot = s.node.slot → t.node.mailbox = mailbox →
      s.Waits t a := by
    intro t hslot ht
    rcases hmailbox with h | h
    · exact .aside a hslot (ht.trans h)
    · exact .cancel a peer hslot (ht.trans h)
  by_cases h : s.node.position.neighbors.isBroker peer = true ∧
      s.node.position.isFather peer = true
  · have hlost : (u.depart peer).node = _ :=
      node_depart_of_father (by rw [hnode]; exact h.1) (by rw [hnode]; exact h.2)
    rw [hnode] at hlost
    refine turns_of_slot ?_ ?_ ?_ ?_ (hwaits _ ?_ ?_) ?_ <;> rw [hlost]
    · exact .lose parts h.1 h.2
    · exact Or.inr rfl
  · have hother : s.node.position.neighbors.isBroker peer = false ∨
        s.node.position.isFather peer = false := by
      cases hb : s.node.position.neighbors.isBroker peer with
      | false => exact Or.inl rfl
      | true => exact Or.inr (by simpa [hb] using h)
    have hgone : (u.depart peer).node = _ := node_depart_of_not_father (by rw [hnode]; exact hother)
    rw [hnode] at hgone
    refine turns_of_slot ?_ ?_ ?_ ?_ (hwaits _ ?_ ?_) ?_ <;> rw [hgone]
    · exact .forget parts hother
    · exact Or.inl rfl

/-- Answering a request. -/
theorem turns_examine (s : Session σ) (requester : Peer) (request : Request) :
    s.Turns (.event (.message requester (.request request))) (s.examine requester request) := by
  rw [examine_eq]
  generalize hjudge : s.node.judge requester request s.words = judged
  obtain ⟨verdict, ws⟩ := judged
  rcases verdict with _ | ⟨refusal, _ | _ | root⟩ | admission
  · exact turns_aside rfl
  · exact turns_aside (node_refuse ..)
  · exact turns_of_node (node_refuse ..) .keepHint (Or.inl rfl)
  · exact turns_aside ((node_sendTransient ..).trans (node_refuse ..))
  · change s.Turns _ ((s.withWords ws).accept requester admission)
    cases hsent : ((s.withWords ws).send requester ((s.withWords ws).node.offer admission)
        .control).1 with
    | false =>
        rw [accept_of_not_sent hsent]
        exact turns_aside rfl
    | true =>
        rw [accept_of_sent hsent]
        exact turns_of_node (node_welcome ..) (.welcome hjudge) (Or.inl rfl)

/-- Experiencing a response. -/
theorem turns_onResponse (s : Session σ) (origin : Peer) (response : Response) :
    s.Turns (.event (.message origin (.response response))) (s.onResponse origin response) := by
  rcases s.node_onResponse origin response with ⟨mailbox, hdelivered, hnode⟩ | hnode
  · exact turns_of_slot (by rw [hnode]) (by rw [hnode]) (by rw [hnode])
      (by rw [hnode]; exact .stay _) (.deliver (by rw [hnode]) (by rw [hnode]; exact hdelivered))
      (by rw [hnode]; exact Or.inl rfl)
  · exact turns_aside hnode

/-- Experiencing a message. -/
theorem turns_onMessage (s : Session σ) (origin : Peer) (message : Message) :
    s.Turns (.event (.message origin message)) (s.onMessage origin message) := by
  cases message with
  | request request => exact turns_examine s origin request
  | response response => exact turns_onResponse s origin response
  | siblingDead news =>
      simp only [onMessage]
      split
      · rename_i hfather
        exact turns_of_node rfl (.bury hfather) (Or.inl rfl)
      · exact turns_refl s _
  | update news =>
      change s.Turns _ (s.onUpdate origin news)
      cases hfather : s.node.position.isFather origin with
      | true =>
          exact turns_of_node (node_onUpdate_of_father hfather) (.heed hfather)
            (Or.inl (Position.settle_frame ..).1)
      | false =>
          rw [onUpdate_of_not_father hfather]
          exact turns_refl s _
  | newSibling news =>
      simp only [onMessage]
      split
      · rename_i hfather
        rw [Bool.and_eq_true] at hfather
        exact turns_of_node rfl (.greet hfather.1) (Or.inl rfl)
      · exact turns_refl s _
  | candidates peers => exact turns_of_node rfl .hear (Or.inl rfl)
  | goodCandidate candidate =>
      change s.Turns _ (s.withPosition (s.node.position.onGoodCandidate s.node.self candidate))
      unfold Position.onGoodCandidate
      cases hother : candidate.same s.node.self with
      | true => exact turns_refl s _
      | false => exact turns_of_node rfl (.takeHint hother) (Or.inl rfl)
  | noLongerChild => exact turns_depart rfl rfl (Or.inl rfl)

/-- Experiencing an event. -/
theorem turns_onEvent (s : Session σ) (event : Event) :
    s.Turns (.event event) (s.onEvent event) := by
  cases event with
  | message origin message => exact turns_onMessage s origin message
  | opened peer =>
      simp only [onEvent]
      split
      · exact turns_refl s _
      · rename_i hclient
        exact turns_of_node rfl (.serve (by simpa using hclient)) (Or.inl rfl)
  | closed peer | dead peer =>
      exact turns_depart (u := s.withNode { s.node with mailbox := s.node.mailbox.cancel peer })
        rfl rfl (Or.inr rfl)

/-! ## Reconfigurations -/

omit [Transport σ] in
/-- A search begins unless the node is stopped or has a father; then the connector that was to
run it is settled. -/
theorem search_cases (s : Session σ) (dead : Option Peer) (asRoot : Bool)
    (connector : Option Nat) :
    ((s.node.stopped = true ∨ s.node.position.father.isSome = true) ∧ ∃ outcome,
        (s.search dead asRoot connector).node = s.node.settleConnector connector outcome) ∨
      s.node.stopped = false ∧ s.node.position.father = none ∧ ∃ search : Search,
        search.asRoot = asRoot ∧ search.connector = connector ∧
          (s.search dead asRoot connector).node =
            { s.node with
              position := { s.node.position with global := s.node.position.global.withoutHint }
              slot := ⟨some (.searching search)⟩ } := by
  unfold search
  split
  · rename_i hstopped
    exact Or.inl ⟨Or.inl hstopped, .again, rfl⟩
  · rename_i hruns
    dsimp only
    split
    · rename_i father hfather
      exact Or.inl ⟨Or.inr (by rw [hfather]; rfl), .stop, rfl⟩
    · rename_i hroot
      exact Or.inr ⟨by simpa using hruns, hroot, ⟨dead, asRoot, connector,
        .start s.node.settings.order s.node.position.regional s.node.position.global
          s.node.settings.globalMax s.node.settings.busyDelay, [], 0⟩,
        rfl, rfl, by simp [Global.fork]⟩

omit [Transport σ] in
/-- Beginning a search. -/
theorem turns_search {u : Session σ} {errand : Errand} {errands : List Errand}
    (hnode : u.node = { s.node with errands := errands })
    (hfree : s.node.slot.isBusy = false) (dead : Option Peer) (asRoot : Bool)
    (connector : Option Nat) :
    s.Turns (.begin errand) (u.search dead asRoot connector) := by
  have hholder : s.node.slot.holder = none := by simpa [Slot.isBusy] using hfree
  rcases u.search_cases dead asRoot connector with
    ⟨-, outcome, hu⟩ | ⟨-, hroot, search, -, -, hu⟩
  · obtain ⟨c, hc⟩ := u.node.settleConnector_cases connector outcome
    rw [hc, hnode] at hu
    exact turns_aside hu
  · rw [hnode] at hu hroot
    refine ⟨?_, ?_, ?_, .step _ ?_ ?_ ?_ ?_ ?_ ?_ ?_, fun _ => ⟨Or.inr hroot, Or.inr ?_⟩⟩ <;>
      try rw [hu]
    · exact .fork hroot
    · simp [Node.isWaiting, hholder]
    · simp [Node.isLeaving, hholder]
    · simp [Node.isWaiting, Holder.isWaiting]
    · simp
    · simp
    · simp
    · exact hroot

omit [Transport σ] in
/-- Beginning to join a tree. -/
theorem turns_join {u : Session σ} {errand : Errand} {errands : List Errand}
    (hnode : u.node = { s.node with errands := errands })
    (hfree : s.node.slot.isBusy = false) (url : String) :
    s.Turns (.begin errand) (u.join url) := by
  have hholder : s.node.slot.holder = none := by simpa [Slot.isBusy] using hfree
  unfold join
  cases hfather : u.node.position.father with
  | some father => exact turns_aside hnode
  | none =>
      have hroot : s.node.position.father = none := by rw [hnode] at hfather; exact hfather
      have hu : (u.hold (.opening ⟨url, .none, .join⟩)).node = _ := node_hold u _
      rw [hnode] at hu
      refine ⟨?_, ?_, ?_, .step _ ?_ ?_ ?_ ?_ ?_ ?_ ?_, fun _ => ⟨Or.inr hroot, Or.inr ?_⟩⟩ <;>
        try rw [hu]
      · exact .stay _
      · simp [Node.isWaiting, hholder]
      · simp [Node.isLeaving, hholder]
      · simp [Node.isWaiting, Holder.isWaiting]
      · simp
      · simp
      · simp
      · exact hroot

/-- Beginning to leave the father. -/
theorem turns_reroot {u : Session σ} {errand : Errand} {errands : List Errand}
    (hnode : u.node = { s.node with errands := errands }) (hfree : s.node.slot.isBusy = false) :
    s.Turns (.begin errand) u.reroot := by
  have hholder : s.node.slot.holder = none := by simpa [Slot.isBusy] using hfree
  have hturns : ∀ (v : Session σ) (holder : Holder), v.node = u.node →
      ((∃ father, s.node.position.father = some father ∧ holder = .leaving father) ∨
        s.node.position.father = none ∧ holder = .founding false) →
      s.Turns (.begin errand) (v.hold holder) := by
    intro v holder hv hleaves
    have hu : (v.hold holder).node = _ := node_hold v _
    rw [hv, hnode] at hu
    refine ⟨?_, ?_, ?_, .step _ ?_ ?_ ?_ ?_ ?_ ?_ ?_, fun h => ?_⟩ <;> try rw [hu]
    · exact .stay _
    · simp [Node.isWaiting, hholder]
    · simp [Node.isLeaving, hholder]
    · rcases hleaves with ⟨father, -, rfl⟩ | ⟨-, rfl⟩ <;> rfl
    · rcases hleaves with ⟨father, -, rfl⟩ | ⟨-, rfl⟩ <;> simp
    · rcases hleaves with ⟨father, hfather, rfl⟩ | ⟨-, rfl⟩ <;> simp_all
    · rcases hleaves with ⟨father, -, rfl⟩ | ⟨hroot, rfl⟩ <;> simp_all
    · rw [hu] at h
      rcases hleaves with ⟨father, -, rfl⟩ | ⟨-, rfl⟩ <;> cases h
  have hfather : u.node.position.father = s.node.position.father := by rw [hnode]
  unfold reroot
  split
  · rename_i hroot
    exact hturns u _ rfl (Or.inr ⟨hfather ▸ hroot, rfl⟩)
  · rename_i father hf
    exact hturns _ _ rfl (Or.inl ⟨father, hfather ▸ hf, rfl⟩)

/-- An errand begins once the slot is free. -/
theorem turns_begin {errand : Errand} (s : Session σ) (hfree : s.node.slot.isBusy = false)
    (errands : List Errand) :
    s.Turns (.begin errand) ((s.withNode { s.node with errands := errands }).begin errand) := by
  let u := s.withNode { s.node with errands := errands }
  cases errand with
  | repair _ | connect _ => exact turns_search (u := u) rfl hfree ..
  | join url => exact turns_join (u := u) rfl hfree url
  | reroot => exact turns_reroot (u := u) rfl hfree

omit [Transport σ] in
/-- What is to come of a negotiation that is over without an acceptance.  A hint at most is
remembered. -/
theorem turns_settle {u : Session σ} {mailbox : Mailbox} {purpose : Purpose}
    {result : NegotiationResult} (hnode : u.node = { s.node with mailbox := mailbox })
    (hseeks : s.node.isSeeking = true)
    (hshift : ∀ global, (global = s.node.position.global ∨ ∃ peer rank hint,
      result = .refused peer rank (.depthOrColor (some hint)) ∧
        global = s.node.position.global.add hint ∧
          (hint.same s.node.self = false ∨ purpose = .join)) →
      s.node.Shift a { s.node.position with global := global })
    (hwaits : ∀ t : Session σ, t.node.mailbox = mailbox →
      (t.node.slot.holder = none ∨ ∃ search, t.node.slot.holder = some (.searching search)) →
      s.Waits t a) :
    s.Turns a (u.settle purpose result) := by
  obtain ⟨global, connector, holder, hsettled, hholder, hglobal⟩ := u.settle_cases purpose result
  rw [hnode] at hsettled hglobal
  refine ⟨?_, ?_, ?_, hwaits _ ?_ ?_, fun _ => ⟨Or.inl hseeks, Or.inl ?_⟩⟩ <;> rw [hsettled]
  · exact hshift global hglobal
  · rcases hholder with rfl | ⟨_, _, search, _, rfl⟩
    · exact Or.inl rfl
    · exact Or.inr ⟨search, rfl⟩

omit [Transport σ] in
/-- What is to come of a negotiation that has no answer. -/
theorem turns_settle_of_not_refused {u : Session σ} {mailbox : Mailbox} {purpose : Purpose}
    {result : NegotiationResult} (hnode : u.node = { s.node with mailbox := mailbox })
    (hseeks : s.node.isSeeking = true)
    (hresult : ∀ peer rank refusal, result ≠ .refused peer rank refusal)
    (hwaits : ∀ t : Session σ, t.node.mailbox = mailbox →
      (t.node.slot.holder = none ∨ ∃ search, t.node.slot.holder = some (.searching search)) →
      s.Waits t a) :
    s.Turns a (u.settle purpose result) := by
  refine turns_settle hnode hseeks (fun global hglobal => ?_) hwaits
  rcases hglobal with rfl | ⟨peer, rank, hint, hrefused, -⟩
  · exact .stay a
  · exact absurd hrefused (hresult _ _ _)

omit [Transport σ] in
/-- A search that was between two candidates is over. -/
theorem turns_endSearch {u : Session σ} {search search' : Search}
    (hsearching : s.node.slot.holder = some (.searching search)) (hnode : u.node = s.node)
    (found : Option (Peer × PoolKind)) : s.Turns a (u.endSearch search' found) := by
  obtain ⟨connector, heq⟩ := u.node_endSearch search' found
  rw [hnode] at heq
  have hseeks : s.node.isSeeking = true := Node.isSeeking_of_holder hsearching rfl
  refine ⟨?_, ?_, ?_, .step _ ?_ ?_ ?_ ?_ ?_ ?_ ?_, fun _ => ⟨Or.inl hseeks, Or.inl ?_⟩⟩ <;>
    try rw [heq]
  · exact .stay a
  · simp [Node.isWaiting, hsearching, Holder.isWaiting]
  · simp [Node.isLeaving, hsearching, Holder.isLeaving]
  · simp only [Node.isWaiting]
    split <;> rfl
  · dsimp only
    split <;> simp
  · dsimp only
    split <;> simp
  · dsimp only
    split <;> simp

omit [Transport σ] in
/-- Taking the next candidate. -/
theorem turns_draw {search : Search}
    (hsearching : s.node.slot.holder = some (.searching search)) :
    s.Turns a (s.draw search) := by
  rcases s.draw_cases search with ⟨-, heq⟩ | ⟨-, ⟨-, heq⟩ | ⟨c, -, heq⟩⟩ <;> rw [heq]
  · exact turns_endSearch hsearching rfl none
  · exact turns_endSearch hsearching (by simp) none
  · have hseeks : s.node.isSeeking = true := Node.isSeeking_of_holder hsearching rfl
    refine ⟨by simp, by simp, by simpa using .stay a, .step _ ?_ ?_ ?_ (by simp) ?_ ?_ ?_,
      fun _ => ⟨Or.inl hseeks, Or.inl (by simp)⟩⟩
    · simp [Node.isWaiting, hsearching, Holder.isWaiting]
    · simp [Node.isLeaving, hsearching, Holder.isLeaving]
    all_goals
      rcases c.holder_cases (search.mark (s.nextCandidate search).pools c) with
        ⟨-, hholder⟩ | ⟨url, -, hholder⟩ <;> simp [hholder, Node.isWaiting, Holder.isWaiting]

/-- Opening a link to whom is to be asked. -/
theorem turns_approach {attempt : Attempt}
    (hopening : s.node.slot.holder = some (.opening attempt)) :
    s.Turns a (s.approach attempt) := by
  have hseeks : s.node.isSeeking = true := Node.isSeeking_of_holder hopening rfl
  have hbefore : s.node.isWaiting = false := by
    simp [Node.isWaiting, hopening, Holder.isWaiting]
  have hstays : s.node.isLeaving = false := by
    simp [Node.isLeaving, hopening, Holder.isLeaving]
  rcases s.approach_spec attempt with
    ⟨u, result, heq, hu, hresult⟩ | ⟨peer, result, hother, hleads, hnode, htrace⟩
  · rw [heq]
    have hunrefused : ∀ p rank refusal, result ≠ .refused p rank refusal := by
      intro p rank refusal h
      rcases hresult with ⟨_, h'⟩ | h' <;> rw [h'] at h <;> cases h
    refine turns_settle_of_not_refused hu hseeks hunrefused fun t hmailbox hafter =>
      .step a hbefore hstays ?_ hmailbox ?_ ?_ ?_
    · rcases hafter with h | ⟨_, h⟩ <;> simp [Node.isWaiting, h, Holder.isWaiting]
    · rcases hafter with h | ⟨_, h⟩ <;> simp [h]
    · rcases hafter with h | ⟨_, h⟩ <;> simp [h]
    · rcases hafter with h | ⟨_, h⟩ <;> simp [h]
  · refine ⟨?_, ?_, ?_, .step _ hbefore hstays ?_ ?_ ?_ ?_ ?_,
      fun _ => ⟨Or.inl hseeks, Or.inl ?_⟩⟩ <;> rw [hnode]
    · exact .stay a
    · rfl
    · rintro negotiation request ⟨⟩
      exact ⟨rfl, hother, .opened attempt.url result, by simp [since_of_trace_eq htrace], hleads⟩
    · simp
    · simp

/-- Sending the request. -/
theorem turns_submit {negotiation : Negotiation} {request : Request}
    (hasking : s.node.slot.holder = some (.asking negotiation request)) :
    s.Turns .advance (s.submit negotiation request) := by
  have hseeks : s.node.isSeeking = true := Node.isSeeking_of_holder hasking rfl
  obtain ⟨holder, hnode, hholder⟩ := s.submit_cases negotiation request
  refine ⟨?_, ?_, ?_, .ask hasking ?_ ?_, fun _ => ⟨Or.inl hseeks, Or.inl ?_⟩⟩ <;> rw [hnode]
  · exact .stay _
  · rcases hholder with ⟨rfl, htrace⟩ | ⟨rfl, -⟩
    · exact Or.inl ⟨rfl, by simp [since_of_trace_eq htrace]⟩
    · exact Or.inr rfl

/-- Giving up a request that did not go out. -/
theorem turns_retreat {negotiation : Negotiation}
    (hretreating : s.node.slot.holder = some (.retreating negotiation)) :
    s.Turns a (s.retreat negotiation) := by
  rw [retreat_eq]
  have hwaits : s.node.isWaiting = true := by
    simp [Node.isWaiting, hretreating, Holder.isWaiting]
  have hgiven : (s.giveUp negotiation.peer).2.node = { s.node with mailbox := .empty } := rfl
  exact turns_settle_of_not_refused hgiven (Node.isSeeking_of_holder hretreating rfl) (by simp)
    fun t hmailbox hafter => .rest a hwaits hafter hmailbox

/-- Leaving the father. -/
theorem turns_forsake {father : Peer} (hleaving : s.node.slot.holder = some (.leaving father)) :
    s.Turns .advance (s.forsake father) :=
  ⟨rfl, rfl, .forsake hleaving, .forsake hleaving rfl rfl,
    fun h => by simp [Node.isSeeking, Holder.isSeeking] at h⟩

/-- Becoming the root of a new tree. -/
theorem turns_found {repair : Bool} (hfounding : s.node.slot.holder = some (.founding repair)) :
    s.Turns .advance (s.found repair) := by
  have hnode := s.node_found repair
  refine ⟨?_, ?_, ?_, .found hfounding ?_ ?_ ?_, fun h => ?_⟩ <;> try rw [hnode]
  · dsimp only
    split <;> rfl
  · dsimp only
    split <;> rfl
  · dsimp only
    split
    · exact .found hfounding
    · exact .stay _
  · dsimp only
    split <;> rfl
  · dsimp only
    cases repair with
    | true => exact Or.inr rfl
    | false => exact Or.inl rfl
  · rw [hnode] at h
    simp [Node.isSeeking, Slot.free] at h

/-- Going on with what holds the slot. -/
theorem turns_advance (s : Session σ) : s.Turns .advance s.advance := by
  match hholder : s.node.slot.holder with
  | none | some .outsider | some (.negotiating _) =>
      rw [advance_of_not_ready (by simp [Node.isReady, hholder, Holder.isReady])]
      exact turns_refl s _
  | some (.searching search) =>
      rw [advance_of_searching hholder]
      exact turns_draw hholder
  | some (.opening attempt) =>
      rw [advance_of_opening hholder]
      exact turns_approach hholder
  | some (.asking negotiation request) =>
      rw [advance_of_asking hholder]
      exact turns_submit hholder
  | some (.retreating negotiation) =>
      rw [advance_of_retreating hholder]
      exact turns_retreat hholder
  | some (.leaving father) =>
      rw [advance_of_leaving hholder]
      exact turns_forsake hholder
  | some (.founding repair) =>
      rw [advance_of_founding hholder]
      exact turns_found hholder

omit [Transport σ] in
/-- What comes of an acceptance leaves the node where it is, and the slot free. -/
theorem node_settle_accepted (s : Session σ) (purpose : Purpose) (father : Peer) :
    ∃ connector, (s.settle purpose (.accepted father)).node =
      { s.node with slot := .free, connector := connector } := by
  cases purpose with
  | ask | join => exact ⟨s.node.connector, rfl⟩
  | search search source => exact s.node_endSearch search (some (father, source))

/-- A node that has been accepted attaches to the peer that it waited for. -/
theorem resume_of_accepted {s : Session σ} {negotiation : Negotiation} {response : Response}
    {acceptance : Acceptance} (hslot : s.node.slot.holder = some (.negotiating negotiation))
    (hcollect : s.node.mailbox.collect = .ok response)
    (haccepted : response.answer = .accepted acceptance) :
    s.resume =
      ((s.withMailbox .empty).attach negotiation.peer response.rank acceptance).settle
        negotiation.purpose (.accepted negotiation.peer) := by
  have hconclude : s.conclude negotiation.peer = (.accepted negotiation.peer,
      (s.withMailbox .empty).attach negotiation.peer response.rank acceptance) := by
    unfold conclude
    simp only [hcollect, haccepted]
  rw [resume_of_negotiating hslot, hconclude]

/-- It takes its place beneath this peer, and the slot is free. -/
theorem node_resume_of_accepted {s : Session σ} {negotiation : Negotiation} {response : Response}
    {acceptance : Acceptance} (hslot : s.node.slot.holder = some (.negotiating negotiation))
    (hcollect : s.node.mailbox.collect = .ok response)
    (haccepted : response.answer = .accepted acceptance) :
    s.resume.node.position =
        (s.node.position.attach s.node.self negotiation.peer response.rank acceptance s.words).1 ∧
      s.resume.node.slot = .free := by
  obtain ⟨connector, hnode⟩ := node_settle_accepted
    ((s.withMailbox .empty).attach negotiation.peer response.rank acceptance) negotiation.purpose
    negotiation.peer
  rw [resume_of_accepted hslot hcollect haccepted, hnode, node_attach]
  exact ⟨rfl, rfl⟩

/-- Ending the wait for an answer. -/
theorem turns_resume (s : Session σ) : s.Turns .resume s.resume := by
  by_cases hn : ∃ negotiation, s.node.slot.holder = some (.negotiating negotiation)
  · obtain ⟨negotiation, hslot⟩ := hn
    have hwaits : s.node.isWaiting = true := by simp [Node.isWaiting, hslot, Holder.isWaiting]
    rw [resume_of_negotiating hslot]
    rcases s.conclude_cases negotiation.peer with
      ⟨response, acceptance, hcollect, hanswer, heq⟩ | ⟨result, heq, hother⟩
    · obtain ⟨connector, hnode⟩ := node_settle_accepted
        (s.conclude negotiation.peer).2 negotiation.purpose negotiation.peer
      rw [heq] at hnode ⊢
      dsimp only at hnode ⊢
      rw [node_attach] at hnode
      refine ⟨?_, ?_, ?_, .rest _ hwaits ?_ ?_, fun h => ?_⟩ <;> try rw [hnode]
      · rfl
      · rfl
      · exact .attach hslot hcollect hanswer
      · exact Or.inl rfl
      · rfl
      · rw [hnode] at h
        simp [Node.isSeeking, Slot.free] at h
    · rw [heq]
      have hclosed : ((s.withMailbox .empty).closeLink negotiation.peer).node =
          { s.node with mailbox := .empty } := rfl
      refine turns_settle hclosed (Node.isSeeking_of_holder hslot rfl)
        (fun global hglobal => ?_) fun t hmailbox hafter => .rest _ hwaits hafter hmailbox
      rcases hglobal with rfl | ⟨peer, rank, hint, hrefused, rfl, hhint⟩
      · exact .stay _
      · obtain ⟨-, response, hcollect, hanswer⟩ :=
          collect_of_conclude ((congrArg Prod.fst heq).trans hrefused)
        exact .learn hslot hcollect hanswer hhint
  · rw [resume_of_not_negotiating (by simpa using hn)]
    exact turns_refl s _

/-- Preparing something. -/
theorem turns_of_prepares (s : Session σ) (h : a.prepares = true) : s.Turns a (a.run s) := by
  obtain ⟨_, _, _, _, hnode⟩ := s.node_of_prepares h
  exact turns_aside hnode

/-- **Every act turns a node in one of these ways.** -/
theorem turns_run {a : Act} (s : Session σ) (possible : a.Possible s.node) :
    s.Turns a (a.run s) := by
  cases a with
  | event event => exact turns_onEvent s event
  | start | stop | requestJoin _ | requestReroot | tick => exact turns_of_prepares s rfl
  | leave peer =>
      simp only [Act.run, leave_eq]
      split
      · exact turns_depart (u := s.tell peer .noLongerChild) rfl rfl (Or.inl rfl)
      · exact turns_refl s _
  | gossip => exact turns_aside s.node_gossip
  | begin errand => exact turns_begin s possible.2 (s.node.errands.erase errand)
  | advance => exact turns_advance s
  | resume => exact turns_resume s

/-- A node that leaves its father has only to found its tree then. -/
theorem isUprooted_of_leaving {father : Peer}
    (h : s.node.slot.holder = some (.leaving father)) : s.advance.node.isUprooted = true := by
  rw [advance_of_leaving h, node_forsake]
  rfl

/-- A node that has only to found its tree still has to after an act, or has done so. -/
theorem isUprooted_run (s : Session σ) (possible : a.Possible s.node)
    (h : s.node.isUprooted = true) :
    (a.run s).node.isUprooted = true ∨ (a.run s).node.position.father = none := by
  have hholder := Node.isUprooted_iff.1 h
  cases (turns_run s possible).waits with
  | aside _ slot | deliver slot | cancel _ _ slot =>
      exact Or.inl ((Node.isUprooted_congr slot).trans h)
  | step _ _ stays => simp [Node.isLeaving, hholder, Holder.isLeaving] at stays
  | ask asking => simp [hholder] at asking
  | forsake leaving => simp [hholder] at leaving
  | found founding _ _ root =>
      rw [hholder] at founding
      cases founding
      exact Or.inr (root.resolve_right (by simp))
  | rest _ before => simp [Node.isWaiting, hholder, Holder.isWaiting] at before

/-- When the wait for an answer ends, nothing is left of it in the mailbox. -/
theorem mailbox_resume {negotiation : Negotiation}
    (h : s.node.slot.holder = some (.negotiating negotiation)) :
    s.resume.node.mailbox = .empty := by
  rw [resume_of_negotiating h]
  obtain ⟨global, connector, holder, hsettled, -⟩ :=
    (s.conclude negotiation.peer).2.settle_cases negotiation.purpose
      (s.conclude negotiation.peer).1
  rw [hsettled]
  rcases s.conclude_cases negotiation.peer with ⟨_, _, _, _, heq⟩ | ⟨_, heq, _⟩ <;> rw [heq]
  · exact congrArg Node.mailbox (node_attach ..)
  · rfl

end Session

/-- A node has no father while it looks for one. -/
theorem Life.father_of_seeking {cond : Episode → Prop} {history : List Episode} {n : Node}
    (life : Life cond history n) (h : n.isSeeking = true) : n.position.father = none := by
  induction life with
  | birth => rfl
  | act life outside ws possible _ ih =>
      obtain ⟨hbefore, hafter⟩ := (Session.turns_run _ possible).seeking h
      exact hafter.elim (fun heq => heq.trans (hbefore.elim ih id)) id

/-- Whom a node is to leave is its father, unless it has none any more. -/
theorem Life.father_of_leaving {cond : Episode → Prop} {history : List Episode} {n : Node}
    (life : Life cond history n) {father : Peer} (h : n.slot.holder = some (.leaving father)) :
    n.position.father = some father ∨ n.position.father = none := by
  induction life with
  | birth => cases h
  | @act history n a σ _ life outside ws possible _ ih =>
      have hturns := Session.turns_run ⟨n, outside, ws, []⟩ possible
      have hkept : n.isWaiting = false → n.position.father = some father ∨
          n.position.father = none → (a.run ⟨n, outside, ws, []⟩).node.position.father =
            some father ∨ (a.run ⟨n, outside, ws, []⟩).node.position.father = none := by
        intro hidle hfather
        rcases hturns.shift.father with (hsame | hlost) | ⟨-, _, _, _, _, hnegotiating, -⟩
        · rw [hsame]
          exact hfather
        · exact Or.inr hlost
        · rw [Node.isWaiting_of_holder hnegotiating] at hidle
          cases hidle
      cases hturns.waits with
      | aside _ slot | deliver slot | cancel _ _ slot =>
          rw [slot] at h
          exact hkept (Node.isWaiting_of_holder h) (ih h)
      | step _ before _ _ _ _ leaves => exact hkept before (Or.inl (leaves father h))
      | ask _ _ asked => rcases asked with ⟨h', -⟩ | h' <;> simp [h] at h'
      | forsake _ founding => simp [h] at founding
      | found _ free => simp [free, Slot.free] at h
      | rest _ _ after => simp [h] at after

/-- Every episode of a life shifts the node. -/
theorem Life.shift {cond : Episode → Prop} {past later : List Episode} {e : Episode} {n : Node}
    (life : Life cond (past ++ e :: later) n) : e.before.Shift e.act e.after.position := by
  obtain ⟨-, -, σ, _, outside, ws, possible, hepisode⟩ := life.split rfl
  have hafter : e.after.position = (e.act.run ⟨e.before, outside, ws, []⟩).node.position :=
    congrArg (fun e => e.after.position) hepisode
  exact hafter ▸ (Session.turns_run ⟨e.before, outside, ws, []⟩ possible).shift

end BrokerForest
