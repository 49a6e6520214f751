import BrokerForest.Network.Mesh
import BrokerForest.Proofs.OperationSpecs
import BrokerForest.Proofs.RankOrder
/-!
# The invariant of ranks: what one act preserves of a node

A node knows its father's rank only from what the father told, and acts on an acceptance
long after it was sent.  What keeps the forest in order is therefore a statement about all
that is *still to come* from a peer, and about the rank that the peer has by now: none of
it is below what the node has been told.  Here `later v r` stands for this statement about
the peer `v` and the rank `r`, whatever it is; what it says of a network is the business of
`BrokerForest.Proofs.Forest`.

* `Position.Stands` — a node stands beneath the depth that its father told of, and all that
  is still to come from the father is at least that high;
* `Node.Listens` — the same of a response that was delivered;
* `Conduct.candor` — every rank that a node tells, but for those of requests, is the one that it
  has when it is done;
* `Session.Upholds` — one piece of work preserves all this, and lowers no rank;
* `Act.Orderly` — the condition: a node takes its father's word only if it stands beneath
  it;
* `Session.upholds_act`, `Session.upholds_message` — every orderly act is such a piece.
-/

namespace BrokerForest

/-- The rank that a message tells of its sender as it is by then.  What a request tells was so
when the link was opened: the node may have risen before it sends the request. -/
def Message.current? : Message → Option Rank
  | .request _ => none
  | message => message.rank?

/-- The rule that every rank that is told, but for those of requests, is a given one. -/
def Conduct.candor (rank : Rank) : Conduct where
  opens _ := True
  sends _ message delivered :=
    delivered = true → ∀ told, message.current? = some told → told = rank

/-- Telling of the given rank is candid. -/
theorem Conduct.candor_of_rank {rank : Rank} {peer : Peer} {message : Message} {delivered : Bool}
    (h : message.current? = some rank) :
    (Conduct.candor rank).sends peer message delivered := by
  intro _ told htold
  rw [h] at htold
  exact (Option.some.inj htold).symm

/-- Telling of no rank is candid. -/
theorem Conduct.candor_of_none {rank : Rank} {peer : Peer} {message : Message} {delivered : Bool}
    (h : message.current? = none) :
    (Conduct.candor rank).sends peer message delivered := by
  intro _ told htold
  rw [h] at htold
  cases htold

/-- The response that a node holds while it negotiates, and whose it is. -/
def Node.heard (n : Node) : Option (Peer × Response) :=
  match n.slot.holder with
  | some (.negotiating negotiation) => n.mailbox.delivered.map fun r => (negotiation.peer, r)
  | _ => none

/-- A node that negotiates has heard what was delivered. -/
theorem Node.heard_of_negotiating {n : Node} {negotiation : Negotiation}
    (h : n.slot.holder = some (.negotiating negotiation)) :
    n.heard = n.mailbox.delivered.map fun r => (negotiation.peer, r) := by
  simp [heard, h]

/-- A node that does not negotiate has heard nothing. -/
theorem Node.heard_of_not_negotiating {n : Node}
    (h : ∀ negotiation, n.slot.holder ≠ some (.negotiating negotiation)) :
    n.heard = none := by
  unfold heard
  split
  · rename_i negotiation hn
    exact absurd hn (h negotiation)
  · rfl

variable {later : NodeId → Rank → Prop}

/-- A node stands beneath the depth that its father told of, and nothing that is still to
come from the father is lower than that. -/
structure Position.Stands (later : NodeId → Rank → Prop) (p : Position) : Prop where
  root : p.father = none → p.fatherDepth = none
  beneath : ∀ father, p.father = some father →
    ∃ floor, p.fatherDepth = some floor ∧ floor < p.rank.depth ∧
      later father.id ⟨p.rank.color, floor⟩

/-- Nothing that is still to come from a peer is lower than the response that was delivered
from it, and a node that negotiates awaits nobody else. -/
structure Node.Listens (later : NodeId → Rank → Prop) (n : Node) : Prop where
  heard : ∀ peer response, n.heard = some (peer, response) → later peer.id response.rank
  awaits : ∀ negotiation peer, n.slot.holder = some (.negotiating negotiation) →
    n.mailbox.awaited = some peer → negotiation.peer = peer

namespace Position

/-- A node that stands in order stands beneath the depth that its father told of. -/
theorem Stands.belowFather {p : Position} (h : p.Stands later) : p.BelowFather := by
  intro floor hfloor
  cases hf : p.father with
  | none => simp [h.root hf] at hfloor
  | some father =>
      obtain ⟨floor', hfloor', hlt, _⟩ := h.beneath father hf
      rw [hfloor] at hfloor'
      cases hfloor'
      exact hlt

/-- A root stands in order if it remembers no father's depth. -/
theorem stands_of_root {p : Position}
    (hfather : p.father = none) (hdepth : p.fatherDepth = none) :
    p.Stands later where
  root _ := hdepth
  beneath father h := by simp [hfather] at h

/-- Whether a node stands in order depends on its rank, its father and the depth that it
remembers only. -/
theorem Stands.congr {p q : Position} (h : p.Stands later)
    (hrank : q.rank = p.rank) (hfather : q.father = p.father)
    (hdepth : q.fatherDepth = p.fatherDepth) :
    q.Stands later where
  root := by rw [hfather, hdepth]; exact h.root
  beneath := by rw [hfather, hdepth, hrank]; exact h.beneath

/-- A node that admits a child stands in order. -/
theorem Stands.welcome {p : Position} {child : Peer} {requester : Rank} {ws ws' : Words}
    {a : Admission} (h : p.Stands later) (room : requester.depth.Roomy ws)
    (ha : p.admission requester ws = (some a, ws')) :
    (p.welcome child a).Stands later := by
  have hroot : p.isRoot = true → p.fatherDepth = none := by
    intro hr
    exact h.root (by simpa [isRoot] using hr)
  have hbelow := belowFather_admission hroot h.belowFather room ha
  refine ⟨h.root, fun father hf => ?_⟩
  obtain ⟨floor, hfloor, _, hlater⟩ := h.beneath father hf
  refine ⟨floor, hfloor, hbelow floor hfloor, ?_⟩
  have hcolor : (a.rank p.rank).color = p.rank.color := by
    rcases admission_cases ha with ⟨hr, _, _⟩ | ⟨_, hk⟩ | ⟨_, rfl⟩
    · have hf : p.father = some father := hf
      simp [isRoot, hf] at hr
    · exact (admissionOfKin_between room hk).1
    · rfl
  change later father.id ⟨(a.rank p.rank).color, floor⟩
  rw [hcolor]
  exact hlater

/-- A node that settles beneath a rank stands in order if the rank is its father's and
nothing lower is still to come from it. -/
theorem stands_settle {p : Position} {father : Peer} {rank : Rank} {ws : Words}
    (hfather : p.father = some father) (hlater : later father.id rank)
    (room : rank.depth.Roomy ws) :
    (p.settle rank ws).2.1.Stands later := by
  have hkeep : (p.settle rank ws).2.1.father = p.father := by
    simp only [settle]
    split
    · split <;> rfl
    · rfl
  refine ⟨fun h => by simp [hkeep, hfather] at h, fun f hf => ?_⟩
  rw [hkeep, hfather] at hf
  cases hf
  refine ⟨rank.depth, fatherDepth_settle p rank ws, depth_settle p room, ?_⟩
  rw [color_settle]
  exact hlater

/-- A node that takes note of another depth of its father's stands in order if it is deeper
and nothing lower is still to come. -/
theorem stands_of_told {p q : Position} {father : Peer} {depth : Depth}
    (hfather : q.father = some father) (hrank : q.rank = p.rank)
    (hdepth : q.fatherDepth = some depth) (hlt : depth < p.rank.depth)
    (hlater : later father.id ⟨p.rank.color, depth⟩) :
    q.Stands later := by
  refine ⟨fun h => by simp [hfather] at h, fun f hf => ?_⟩
  rw [hfather] at hf
  cases hf
  exact ⟨depth, hdepth, by rwa [hrank], by rwa [hrank]⟩

end Position

namespace Node

/-- Whether a node listens in order depends on its slot and its mailbox only. -/
theorem Listens.congr {n n' : Node} (h : n.Listens later)
    (hslot : n'.slot = n.slot) (hmailbox : n'.mailbox = n.mailbox) :
    n'.Listens later where
  heard := by
    have hheard : n'.heard = n.heard := by simp [Node.heard, hslot, hmailbox]
    rw [hheard]
    exact h.heard
  awaits := by rw [hslot, hmailbox]; exact h.awaits

/-- A node that does not negotiate listens in order. -/
theorem listens_of_not_negotiating {n : Node}
    (hslot : ∀ negotiation, n.slot.holder ≠ some (.negotiating negotiation)) :
    n.Listens later where
  heard := by
    intro peer response h
    rw [Node.heard_of_not_negotiating hslot] at h
    cases h
  awaits negotiation peer h := absurd h (hslot negotiation)

/-- A node that begins to wait has heard nothing yet. -/
theorem listens_of_expect {n : Node} {negotiation : Negotiation}
    (hslot : n.slot.holder = some (.negotiating negotiation))
    (hmailbox : n.mailbox = Mailbox.empty.expect negotiation.peer) :
    n.Listens later where
  heard := by
    intro peer response h
    simp [Node.heard_of_negotiating hslot, hmailbox, Mailbox.expect, Mailbox.delivered] at h
  awaits := by
    intro negotiation' peer hslot' hawaited
    rw [hslot] at hslot'
    cases hslot'
    simpa [hmailbox, Mailbox.expect] using hawaited

/-- A node with an empty mailbox listens in order. -/
theorem listens_of_empty {n : Node} (h : n.mailbox = .empty) : n.Listens later where
  heard := by
    intro peer response hheard
    unfold heard at hheard
    split at hheard
    · simp [h, Mailbox.empty, Mailbox.delivered] at hheard
    · cases hheard
  awaits := by simp [h, Mailbox.empty]

/-- A node that gives up a wait listens in order. -/
theorem Listens.cancel {n : Node} (h : n.Listens later) (peer : Peer) :
    { n with mailbox := n.mailbox.cancel peer }.Listens later := by
  unfold Mailbox.cancel
  split
  · exact ⟨h.heard, by simp [Mailbox.shut]⟩
  · exact h.congr rfl rfl

/-- A node to which a response is delivered listens in order if nothing lower is still to
come from its sender. -/
theorem Listens.deliver {n : Node} {origin : Peer} {response : Response} {mailbox : Mailbox}
    (h : n.Listens later) (hlater : later origin.id response.rank)
    (hd : n.mailbox.deliver origin response = .ok mailbox) :
    { n with mailbox := mailbox }.Listens later := by
  obtain ⟨hexpects, hnobody, hheld⟩ := Mailbox.deliver_eq_ok hd
  obtain ⟨expected, hexpected, hid⟩ := Peer.isThe_iff.1 hexpects
  refine ⟨fun peer response' hheard => ?_, fun _ _ _ hw => by rw [hnobody] at hw; cases hw⟩
  by_cases hslot : ∃ negotiation, n.slot.holder = some (.negotiating negotiation)
  · obtain ⟨negotiation, hslot⟩ := hslot
    obtain ⟨held, hdelivered, hpair⟩ := Option.map_eq_some_iff.1
      ((Node.heard_of_negotiating (n := { n with mailbox := mailbox }) hslot).symm.trans hheard)
    cases hpair
    -- Either it was delivered before, or it is what arrives.
    rcases hheld response' hdelivered with hbefore | rfl
    · refine h.heard negotiation.peer response' ?_
      rw [Node.heard_of_negotiating hslot, hbefore]
      rfl
    · rw [h.awaits negotiation expected hslot hexpected, ← hid]
      exact hlater
  · rw [Node.heard_of_not_negotiating (n := { n with mailbox := mailbox })
      (by simpa using hslot)] at hheard
    cases hheard

end Node

/-- A node is in order. -/
structure Node.Sound (later : NodeId → Rank → Prop) (n : Node) : Prop where
  stands : n.position.Stands later
  listens : n.Listens later

/-- A piece of work leaves the node in order, does not lower its rank, and all that it
tells is the rank that it has then. -/
structure Session.Upholds {σ : Type} [Transport σ] (later : NodeId → Rank → Prop)
    (s t : Session σ) : Prop where
  sound : t.node.Sound later
  rank : s.node.position.rank.UpTo t.node.position.rank
  candid : s.Keeps (.candor t.node.position.rank) t

namespace Session

variable {σ : Type} [Transport σ] {s t : Session σ}

/-- Work that changes nothing of a node's place, slot and mailbox, and tells of no rank. -/
theorem upholds_of_frame (h : s.node.Sound later)
    (hposition : t.node.position.rank = s.node.position.rank ∧
      t.node.position.father = s.node.position.father ∧
      t.node.position.fatherDepth = s.node.position.fatherDepth)
    (hslot : t.node.slot = s.node.slot) (hmailbox : t.node.mailbox = s.node.mailbox)
    (hcandid : s.Keeps (.candor s.node.position.rank) t) :
    s.Upholds later t := by
  obtain ⟨hrank, hfather, hdepth⟩ := hposition
  refine ⟨⟨h.stands.congr hrank hfather hdepth, h.listens.congr hslot hmailbox⟩, ?_, ?_⟩
  · rw [hrank]
    exact .refl _
  · rwa [hrank]

/-- Work after which a node stands where it did and waits as it did. -/
theorem upholds_of_node (h : s.node.Sound later) {neighbors : Neighbors} {regional : Regional}
    {global : Global} {errands : List Errand} {connector : Option Connector} {connectors : Nat}
    {stopped : Bool}
    (hnode : t.node =
      { s.node with
        position :=
          { s.node.position with neighbors := neighbors, regional := regional, global := global }
        errands := errands
        connector := connector
        connectors := connectors
        stopped := stopped })
    (hcandid : s.Keeps (.candor s.node.position.rank) t) :
    s.Upholds later t := by
  apply upholds_of_frame h _ _ _ hcandid <;> simp [hnode]

/-- Doing nothing. -/
theorem upholds_refl (h : s.node.Sound later) : s.Upholds later s :=
  upholds_of_node h rfl (.refl s)

/-- Work that goes on after something that told of no rank and left it as it was. -/
theorem Upholds.of_silent {u : Session σ} (htu : t.Upholds later u)
    (hrank : t.node.position.rank = s.node.position.rank)
    (hsilent : s.Keeps (.candor u.node.position.rank) t) :
    s.Upholds later u where
  sound := htu.sound
  rank := hrank ▸ htu.rank
  candid := hsilent.trans htu.candid

/-- Parting from a peer. -/
theorem upholds_depart (h : s.node.Sound later) (peer : Peer) :
    s.Upholds later (s.depart peer) := by
  have hcandid : s.Keeps (.candor s.node.position.rank) (s.depart peer) :=
    keeps_depart s fun _ _ => Conduct.candor_of_rank rfl
  rcases depart_cases s peer with hnode | hnode
  · refine upholds_of_frame h ?_ ?_ ?_ hcandid <;> simp [hnode, Position.forget]
  · refine ⟨⟨?_, ?_⟩, ?_, ?_⟩
    · rw [hnode]
      exact Position.stands_of_root rfl rfl
    · rw [hnode]
      exact h.listens.congr rfl rfl
    · rw [hnode]
      exact .refl _
    · rw [hnode]
      exact hcandid

/-- Leaving a neighbor. -/
theorem upholds_leave (h : s.node.Sound later) (peer : Peer) :
    s.Upholds later (s.leave peer) := by
  rw [leave_eq]
  split
  · exact (upholds_depart (s := s.tell peer .noLongerChild) h peer).of_silent rfl
      (keeps_tell s fun _ => Conduct.candor_of_none rfl)
  · exact upholds_refl h

/-- Welcoming a child that was accepted. -/
theorem upholds_accept {child : Peer} {requester : Rank} {ws ws' : Words} {a : Admission}
    (h : s.node.Sound later) (own : s.node.position.rank.depth.isNaN = false)
    (room : requester.depth.Roomy ws)
    (ha : s.node.position.admission requester ws = (some a, ws')) :
    s.Upholds later (s.accept child a) := by
  have hup := Position.upTo_admission h.stands.belowFather own room ha
  cases hsent : (s.send child (s.node.offer a) .control).1 with
  | false =>
      rw [accept_of_not_sent hsent]
      refine upholds_of_node h rfl (keeps_send s ?_)
      intro hdelivered
      rw [hsent] at hdelivered
      cases hdelivered
  | true =>
      rw [accept_of_sent hsent]
      refine ⟨⟨?_, ?_⟩, ?_, ?_⟩
      · rw [node_welcome]
        exact h.stands.welcome room ha
      · rw [node_welcome]
        exact h.listens.congr rfl rfl
      · rw [node_welcome]
        exact hup
      · rw [node_welcome]
        refine (keeps_send s (Conduct.candor_of_rank rfl)).trans (keeps_welcome _ ?_ ?_ ?_)
        · exact fun _ _ => trivial
        · exact fun _ _ _ => Conduct.candor_of_rank rfl
        · exact fun _ _ _ _ => Conduct.candor_of_rank rfl

/-- Answering a request. -/
theorem upholds_examine {requester : Peer} {request : Request} (h : s.node.Sound later)
    (own : s.node.position.rank.depth.Roomy s.words) (room : request.rank.depth.Roomy s.words) :
    s.Upholds later (s.examine requester request) := by
  rw [examine_eq]
  generalize hjudge : s.node.judge requester request s.words = judged
  obtain ⟨verdict, ws⟩ := judged
  have hrefuse : ∀ (t : Session σ) refusal, t.node.position.rank = s.node.position.rank →
      t.Keeps (.candor s.node.position.rank) (t.refuse requester refusal) := by
    intro t refusal hrank
    exact keeps_refuse t fun _ => Conduct.candor_of_rank (by rw [← hrank]; rfl)
  rcases verdict with _ | ⟨refusal, _ | _ | root⟩ | a
  · exact upholds_of_node h rfl (keeps_withWords s ws)
  · refine upholds_of_frame h ?_ ?_ ?_ ((keeps_withWords s ws).trans (hrefuse _ refusal rfl)) <;>
      simp [pronounce]
  · have hkeep := ((keeps_withWords s ws).trans (keeps_withPosition _ _)).trans
      (hrefuse ((s.withWords ws).withPosition { s.node.position with
        global := s.node.position.global.setHint requester }) refusal rfl)
    refine upholds_of_frame h ?_ ?_ ?_ hkeep <;> simp [pronounce]
  · have hpass : s.Keeps (.candor s.node.position.rank)
        ((s.withWords ws).pronounce requester (.refuse refusal (.pass root))) := by
      refine ((keeps_withWords s ws).trans (hrefuse _ refusal rfl)).trans
        (keeps_sendTransient _ (fun _ _ => trivial) fun _ _ => ?_)
      exact Conduct.candor_of_none rfl
    refine upholds_of_frame h ?_ ?_ ?_ hpass <;> simp [pronounce]
  · obtain ⟨_, hadmission, _⟩ := Node.admission_of_judge hjudge
    exact (upholds_accept (s := s.withWords ws) h own.isNaN room hadmission).of_silent rfl
      (keeps_withWords s ws)

/-- Becoming the root of a new tree, or not, because the node has stopped. -/
theorem upholds_found (h : s.node.Sound later) (repair : Bool) :
    s.Upholds later (s.found repair) := by
  have hcandid : s.Keeps (.candor (s.found repair).node.position.rank) (s.found repair) :=
    keeps_found s repair fun _ _ _ => Conduct.candor_of_rank rfl
  have hslot : ∀ negotiation,
      (s.found repair).node.slot.holder ≠ some (.negotiating negotiation) := by
    rw [node_found]
    simp [Slot.free]
  refine ⟨⟨?_, Node.listens_of_not_negotiating hslot⟩, ?_, hcandid⟩ <;> rw [node_found]
  · dsimp only
    split
    · exact Position.stands_of_root rfl rfl
    · exact h.stands
  · dsimp only
    split
    · exact Position.upTo_newTree _ _ _
    · exact .refl _

/-- News of the father's rank and chain. -/
theorem upholds_onUpdate {origin : Peer} {news : Update} (h : s.node.Sound later)
    (room : news.rank.depth.Roomy s.words) (hlater : later origin.id news.rank)
    (hup : s.node.position.isFather origin = true →
      s.node.position.rank.Under news.rank) :
    s.Upholds later (s.onUpdate origin news) := by
  cases hf : s.node.position.isFather origin with
  | false =>
      rw [onUpdate_of_not_father hf]
      exact upholds_refl h
  | true =>
      have hcandid : s.Keeps (.candor (s.onUpdate origin news).node.position.rank)
          (s.onUpdate origin news) :=
        keeps_onUpdate s fun _ _ => Conduct.candor_of_rank rfl
      obtain ⟨father, hfather, hid⟩ := Peer.isThe_iff.1 hf
      refine ⟨⟨?_, ?_⟩, ?_, hcandid⟩
      · rw [node_onUpdate_of_father hf]
        exact Position.stands_settle hfather (hid ▸ hlater) room
      · rw [node_onUpdate_of_father hf]
        exact h.listens.congr rfl rfl
      · rw [node_onUpdate_of_father hf]
        exact Position.upTo_settle
          (p := { s.node.position with
            regional := s.node.position.regional.setUpstream news.upstream }) (hup hf)

/-- News of a sibling that tells of a depth of the father's. -/
theorem upholds_sibling {p : Position} {origin : Peer} {rank : Rank}
    (h : s.node.Sound later)
    (hdown : ∀ v r r', later v r → Rank.UpTo r' r → later v r')
    (hlater : later origin.id rank)
    (hfloor : s.node.position.isFather origin = true → ∀ floor,
      s.node.position.fatherDepth = some floor →
        Rank.UpTo ⟨s.node.position.rank.color, floor⟩ rank)
    (horderly : s.node.position.isFather origin = true →
      rank.depth < s.node.position.rank.depth)
    (hf : s.node.position.isFather origin = true)
    (hrank : p.rank = s.node.position.rank) (hfather : p.father = s.node.position.father)
    (hdepth : p.fatherDepth = some rank.depth) :
    s.Upholds later (s.withPosition p) := by
  obtain ⟨father, hsome, hid⟩ := Peer.isThe_iff.1 hf
  obtain ⟨floor, hfd, _, _⟩ := h.stands.beneath father hsome
  have htold : Rank.UpTo ⟨s.node.position.rank.color, rank.depth⟩ rank := by
    rcases hfloor hf floor hfd with heq | hcolor | ⟨hcolor, _⟩
    · rw [← heq]
      exact .refl _
    · exact Or.inr (Or.inl hcolor)
    · refine Or.inl ?_
      cases rank
      cases hcolor
      rfl
  refine ⟨⟨?_, h.listens.congr rfl rfl⟩, ?_, keeps_withPosition s p⟩
  · exact Position.stands_of_told (hfather.trans hsome) hrank hdepth (horderly hf)
      (hdown _ _ _ (hid ▸ hlater) htold)
  · change s.node.position.rank.UpTo p.rank
    rw [hrank]
    exact .refl _

end Session

namespace Act

/-- A node takes its father's word only if it stands beneath it: the acceptance that makes a
peer its father, and the depth that comes with news of a sibling. -/
def Orderly (n : Node) : Act → Prop
  | event (.message origin (.siblingDead news)) =>
    n.position.isFather origin = true → news.rank.depth < n.position.rank.depth
  | event (.message origin (.newSibling news)) =>
    n.position.isFather origin = true → news.rank.depth < n.position.rank.depth
  | resume =>
    ∀ heard ∈ n.heard, heard.2.isAcceptance = true → n.position.rank.Under heard.2.rank
  | _ => True

/-- There is room around the depths that an act reckons with. -/
def Roomy (n : Node) (ws : Words) : Act → Prop
  | event (.message _ (.request request)) =>
    n.position.rank.depth.Roomy ws ∧ request.rank.depth.Roomy ws
  | event (.message _ (.update news)) => news.rank.depth.Roomy ws
  | resume => ∀ heard ∈ n.heard, heard.2.rank.depth.Roomy ws
  | _ => True

instance (n : Node) : (a : Act) → Decidable (a.Orderly n)
  | event (.message origin (.siblingDead news)) =>
    inferInstanceAs (Decidable
      (n.position.isFather origin = true → news.rank.depth < n.position.rank.depth))
  | event (.message origin (.newSibling news)) =>
    inferInstanceAs (Decidable
      (n.position.isFather origin = true → news.rank.depth < n.position.rank.depth))
  | resume =>
    inferInstanceAs (Decidable (∀ heard ∈ n.heard,
      heard.2.isAcceptance = true → n.position.rank.Under heard.2.rank))
  | event (.message _ (.request _)) | event (.message _ (.response _))
  | event (.message _ (.update _)) | event (.message _ (.candidates _))
  | event (.message _ (.goodCandidate _)) | event (.message _ .noLongerChild)
  | event (.opened _) | event (.closed _) | event (.dead _) | start | stop | requestJoin _
  | requestReroot | leave _ | tick | gossip | begin _ | advance => .isTrue trivial

instance (n : Node) (ws : Words) : (a : Act) → Decidable (a.Roomy n ws)
  | event (.message _ (.request request)) =>
    inferInstanceAs (Decidable (n.position.rank.depth.Roomy ws ∧ request.rank.depth.Roomy ws))
  | event (.message _ (.update news)) => inferInstanceAs (Decidable (news.rank.depth.Roomy ws))
  | resume => inferInstanceAs (Decidable (∀ heard ∈ n.heard, heard.2.rank.depth.Roomy ws))
  | event (.message _ (.siblingDead _)) | event (.message _ (.response _))
  | event (.message _ (.newSibling _)) | event (.message _ (.candidates _))
  | event (.message _ (.goodCandidate _)) | event (.message _ .noLongerChild)
  | event (.opened _) | event (.closed _) | event (.dead _) | start | stop | requestJoin _
  | requestReroot | leave _ | tick | gossip | begin _ | advance => .isTrue trivial

end Act

namespace Session

variable {σ : Type} [Transport σ] {s t : Session σ}

/-- Experiencing a message, if nothing lower than it is still to come, and it is not lower
than what its sender, the father, told before. -/
theorem upholds_message {origin : Peer} {message : Message} (h : s.node.Sound later)
    (hdown : ∀ v r r', later v r → Rank.UpTo r' r → later v r')
    (hlater : ∀ rank, message.current? = some rank → later origin.id rank)
    (hfloor : ∀ rank, message.current? = some rank → s.node.position.isFather origin = true →
      ∀ floor, s.node.position.fatherDepth = some floor →
        Rank.UpTo ⟨s.node.position.rank.color, floor⟩ rank)
    (room : (Act.event (.message origin message)).Roomy s.node s.words)
    (horderly : (Act.event (.message origin message)).Orderly s.node) :
    s.Upholds later (s.onMessage origin message) := by
  have hstay : ∀ p : Position, p.rank = s.node.position.rank →
      p.father = s.node.position.father → p.fatherDepth = s.node.position.fatherDepth →
        s.Upholds later (s.withPosition p) := fun p hr hf hd =>
    upholds_of_frame h ⟨hr, hf, hd⟩ rfl rfl (keeps_withPosition s p)
  cases message with
  | request request => exact upholds_examine h room.1 room.2
  | response response =>
      have hcandid : s.Keeps (.candor s.node.position.rank) (s.onResponse origin response) :=
        keeps_onResponse s (fun _ _ => trivial) fun _ _ => Conduct.candor_of_none rfl
      change s.Upholds later (s.onResponse origin response)
      rcases node_onResponse s origin response with ⟨mailbox, hd, hnode⟩ | hnode
      · refine ⟨?_, ?_, ?_⟩
        · rw [hnode]
          exact ⟨h.stands, h.listens.deliver (hlater _ rfl) hd⟩
        · rw [hnode]
          exact .refl _
        · rw [hnode]
          exact hcandid
      · refine upholds_of_frame h ?_ ?_ ?_ hcandid <;> simp [hnode]
  | siblingDead news =>
      simp only [onMessage]
      split
      · rename_i hf
        exact upholds_sibling h hdown (hlater _ rfl) (hfloor _ rfl) horderly hf rfl rfl rfl
      · exact hstay _ rfl rfl rfl
  | update news =>
      refine upholds_onUpdate h room (hlater _ rfl) fun hf => ?_
      obtain ⟨father, hsome, _⟩ := Peer.isThe_iff.1 hf
      obtain ⟨floor, hfd, hlt, _⟩ := h.stands.beneath father hsome
      have hunder : s.node.position.rank.Under ⟨s.node.position.rank.color, floor⟩ :=
        Or.inr ⟨rfl, hlt⟩
      exact hunder.trans_upTo (hfloor _ rfl hf floor hfd)
  | newSibling news =>
      simp only [onMessage]
      split
      · rename_i hf
        have hf : s.node.position.isFather origin = true := by simp_all
        exact upholds_sibling h hdown (hlater _ rfl) (hfloor _ rfl) horderly hf rfl rfl rfl
      · exact hstay _ rfl rfl rfl
  | candidates peers => exact hstay _ rfl rfl rfl
  | goodCandidate peer =>
      refine hstay (s.node.position.onGoodCandidate s.node.self peer) ?_ ?_ ?_ <;>
        (unfold Position.onGoodCandidate; split <;> rfl)
  | noLongerChild => exact upholds_depart h origin

/-- Work that leaves the node where it is, negotiating with nobody, and tells of no rank. -/
structure Rests (s t : Session σ) : Prop where
  rank : t.node.position.rank = s.node.position.rank
  father : t.node.position.father = s.node.position.father
  fatherDepth : t.node.position.fatherDepth = s.node.position.fatherDepth
  slot : ∀ negotiation, t.node.slot.holder ≠ some (.negotiating negotiation)
  silent : ∀ rank, s.Keeps (.candor rank) t

/-- A node that has come to rest after orderly work is in order. -/
theorem Upholds.rests {u : Session σ} (hst : s.Upholds later t) (htu : t.Rests u) :
    s.Upholds later u := by
  refine ⟨⟨hst.sound.stands.congr htu.rank htu.father htu.fatherDepth,
    Node.listens_of_not_negotiating htu.slot⟩, ?_, ?_⟩
  · rw [htu.rank]
    exact hst.rank
  · rw [htu.rank]
    exact hst.candid.trans (htu.silent _)

/-- A node that was in order is so when it has come to rest. -/
theorem upholds_of_rests (h : s.node.Sound later) (hst : s.Rests t) : s.Upholds later t :=
  (upholds_refl h).rests hst

/-- Work after which a node stands where it did, and negotiates with nobody. -/
theorem rests_of_node {neighbors : Neighbors} {regional : Regional} {global : Global}
    {slot : Slot Holder} {mailbox : Mailbox} {connector : Option Connector} {connectors : Nat}
    (hnode : t.node =
      { s.node with
        position :=
          { s.node.position with neighbors := neighbors, regional := regional, global := global }
        slot := slot
        mailbox := mailbox
        connector := connector
        connectors := connectors })
    (hslot : ∀ negotiation, slot.holder ≠ some (.negotiating negotiation))
    (hsilent : ∀ rank, s.Keeps (.candor rank) t) :
    s.Rests t := by
  refine ⟨?_, ?_, ?_, ?_, hsilent⟩ <;> rw [hnode]
  exact hslot

/-- What comes of a negotiation that is over leaves the node where it is. -/
theorem rests_settle (s : Session σ) (purpose : Purpose) (result : NegotiationResult) :
    s.Rests (s.settle purpose result) := by
  obtain ⟨global, connector, holder, hnode, hholder, -⟩ := s.settle_cases purpose result
  refine rests_of_node hnode (fun negotiation => ?_) fun _ => keeps_settle s purpose result
  rcases hholder with rfl | ⟨_, _, _, _, rfl⟩ <;> simp

/-- A search that is over leaves the node where it is. -/
theorem rests_endSearch (s : Session σ) (search : Search) (found : Option (Peer × PoolKind)) :
    s.Rests (s.endSearch search found) := by
  obtain ⟨connector, hnode⟩ := s.node_endSearch search found
  refine rests_of_node hnode (fun negotiation => ?_) fun _ => keeps_endSearch s search found
  dsimp only
  split <;> simp

/-- The slot goes from holder to holder while nobody is asked. -/
theorem rests_hold (s : Session σ) {holder : Holder}
    (h : ∀ negotiation, holder ≠ .negotiating negotiation) :
    s.Rests (s.hold holder) :=
  rests_of_node rfl (by simpa using h) fun _ => keeps_withNode _ _

/-- What rests after work that left the node as it was and told of nothing rests after all. -/
theorem Rests.of_silent {u : Session σ} (htu : t.Rests u) (hnode : t.node = s.node)
    (hsilent : ∀ rank, s.Keeps (.candor rank) t) : s.Rests u where
  rank := hnode ▸ htu.rank
  father := hnode ▸ htu.father
  fatherDepth := hnode ▸ htu.fatherDepth
  slot := htu.slot
  silent rank := (hsilent rank).trans (htu.silent rank)

/-- Taking the next candidate of a search, if there is one. -/
theorem rests_draw (s : Session σ) (search : Search) : s.Rests (s.draw search) := by
  have hdrawn {u : Session σ} (hu : (s.afterDraw search).Rests u) : s.Rests u :=
    hu.of_silent (s.node_afterDraw search) fun _ => keeps_afterDraw s search
  rcases s.draw_cases search with ⟨-, heq⟩ | ⟨-, ⟨-, heq⟩ | ⟨c, -, heq⟩⟩ <;> rw [heq]
  · exact rests_endSearch s search none
  · exact hdrawn (rests_endSearch _ _ none)
  · refine hdrawn (rests_hold _ fun negotiation => ?_)
    rcases c.holder_cases _ with ⟨-, hholder⟩ | ⟨url, -, hholder⟩ <;> rw [hholder] <;>
      exact Holder.noConfusion

/-- Opening a link to whom is to be asked. -/
theorem rests_approach (s : Session σ) (attempt : Attempt) : s.Rests (s.approach attempt) := by
  have hopen (rank : Rank) : s.Keeps (.candor rank) (s.openLink attempt.url).2 :=
    keeps_openLink s trivial
  have hnode := s.node_openLink attempt.url
  rcases s.approach_cases attempt with
    ⟨error, -, heq⟩ | ⟨peer, -, ⟨-, heq⟩ | ⟨-, heq⟩⟩ <;> rw [heq]
  · exact (rests_settle _ _ _).of_silent hnode hopen
  · exact (rests_settle _ _ _).of_silent (by simp) fun rank =>
      (hopen rank).trans (keeps_closeLink _ _)
  · exact (rests_hold _ fun _ => Holder.noConfusion).of_silent hnode hopen

/-- Sending a request, whatever rank it tells. -/
theorem upholds_submit (h : s.node.Sound later) (negotiation : Negotiation) (request : Request) :
    s.Upholds later (s.submit negotiation request) := by
  have hsilent (rank : Rank) : s.Keeps (.candor rank) (s.submit negotiation request) :=
    keeps_submit s fun _ => Conduct.candor_of_none rfl
  obtain ⟨holder, hnode, ⟨rfl, -⟩ | ⟨rfl, -⟩⟩ := s.submit_cases negotiation request
  · have hslot : (s.submit negotiation request).node.slot.holder =
        some (.negotiating negotiation) := by rw [hnode]
    have hlistens : (s.submit negotiation request).node.Listens later :=
      Node.listens_of_expect hslot (by rw [hnode]; rfl)
    refine ⟨⟨?_, hlistens⟩, ?_, hsilent _⟩ <;> rw [hnode]
    · exact h.stands
    · exact .refl _
  · exact upholds_of_rests h (rests_of_node hnode (by simp) hsilent)

/-- Going on by one step. -/
theorem upholds_advance (h : s.node.Sound later) : s.Upholds later s.advance := by
  unfold advance
  split
  · exact upholds_of_rests h (rests_draw s _)
  · exact upholds_of_rests h (rests_approach s _)
  · exact upholds_submit h _ _
  · rename_i negotiation _
    have hgiven : s.Rests (s.retreat negotiation) := by
      rw [retreat_eq]
      have hsettled := rests_settle (s.giveUp negotiation.peer).2 negotiation.purpose
        (.failed (.notConnected negotiation.peer))
      exact ⟨hsettled.rank, hsettled.father, hsettled.fatherDepth, hsettled.slot,
        fun _ => keeps_retreat s negotiation⟩
    exact upholds_of_rests h hgiven
  · exact upholds_of_rests h (rests_of_node (node_forsake s _) (by simp) fun _ =>
      keeps_forsake s _)
  · exact upholds_found h _
  · exact upholds_refl h
  · exact upholds_refl h
  · exact upholds_refl h

/-- Leaving the father begins, if there is one. -/
theorem upholds_reroot (h : s.node.Sound later) : s.Upholds later s.reroot := by
  refine upholds_of_rests h ?_
  unfold reroot
  split
  · exact rests_hold s fun _ => Holder.noConfusion
  · exact (rests_hold _ fun _ => Holder.noConfusion).of_silent rfl fun _ =>
      keeps_tell s fun _ => Conduct.candor_of_none rfl

/-- Taking one's place beneath a peer whose acceptance is higher than the node's rank. -/
theorem upholds_attach {father : Peer} {rank : Rank} {acceptance : Acceptance}
    (hlistens : s.node.Listens later) (hlater : later father.id rank)
    (room : rank.depth.Roomy s.words) (hunder : s.node.position.rank.Under rank) :
    s.Upholds later (s.attach father rank acceptance) := by
  have hcandid : s.Keeps (.candor (s.attach father rank acceptance).node.position.rank)
      (s.attach father rank acceptance) :=
    keeps_attach s fun _ _ => Conduct.candor_of_rank rfl
  refine ⟨⟨?_, ?_⟩, ?_, hcandid⟩
  · rw [node_attach]
    exact (Position.stands_settle (p := { s.node.position with
      father := some father
      neighbors := s.node.position.neighbors.add father
      global := s.node.position.global.remove father }) rfl hlater room).congr rfl rfl rfl
  · rw [node_attach]
    exact hlistens.congr rfl rfl
  · rw [node_attach]
    exact Position.upTo_settle (p := { s.node.position with
      father := some father
      neighbors := s.node.position.neighbors.add father
      global := s.node.position.global.remove father }) hunder

/-- A response that is collected was heard. -/
theorem heard_of_collect {n : Node} {negotiation : Negotiation} {response : Response}
    (hslot : n.slot.holder = some (.negotiating negotiation))
    (h : n.mailbox.collect = .ok response) :
    n.heard = some (negotiation.peer, response) := by
  simp [Node.heard_of_negotiating hslot, Mailbox.delivered_of_collect h]

/-- Ending the wait for an answer. -/
theorem upholds_resume (h : s.node.Sound later)
    (room : Act.resume.Roomy s.node s.words) (horderly : Act.resume.Orderly s.node) :
    s.Upholds later s.resume := by
  by_cases hn : ∃ negotiation, s.node.slot.holder = some (.negotiating negotiation)
  · obtain ⟨negotiation, hslot⟩ := hn
    rw [resume_of_negotiating hslot]
    have hempty : (s.withMailbox .empty).node.Listens later := Node.listens_of_empty rfl
    rcases conclude_cases s negotiation.peer with
      ⟨response, acceptance, hcollect, hanswer, hconclude⟩ | ⟨result, hconclude, _⟩
    · have hheard := heard_of_collect hslot hcollect
      rw [hconclude]
      have hroom : response.rank.depth.Roomy s.words := room (negotiation.peer, response) hheard
      have hunder : s.node.position.rank.Under response.rank :=
        horderly (negotiation.peer, response) hheard (by simp [Response.isAcceptance, hanswer])
      have hattach : (s.withMailbox .empty).Upholds later
          ((s.withMailbox .empty).attach negotiation.peer response.rank acceptance) :=
        upholds_attach hempty (h.listens.heard _ _ hheard) hroom hunder
      have hwork : s.Upholds later
          ((s.withMailbox .empty).attach negotiation.peer response.rank acceptance) :=
        hattach.of_silent rfl (keeps_withNode _ _)
      exact hwork.rests (rests_settle _ _ _)
    · rw [hconclude]
      have hclose : s.Upholds later ((s.withMailbox .empty).closeLink negotiation.peer) :=
        ⟨⟨h.stands, hempty⟩, .refl _, (keeps_withNode _ _).trans (keeps_closeLink _ _)⟩
      exact hclose.rests (rests_settle _ _ _)
  · rw [resume_of_not_negotiating (by simpa using hn)]
    exact upholds_refl h

/-- Beginning a search. -/
theorem upholds_search (h : s.node.Sound later) (dead : Option Peer) (asRoot : Bool)
    (connector : Option Nat) :
    s.Upholds later (s.search dead asRoot connector) := by
  have hend : ∀ (outcome : TickOutcome) (result : Outcome), s.Upholds later
      ((s.withNode (s.node.settleConnector connector outcome)).finish result) := by
    intro outcome result
    obtain ⟨c, hc⟩ := s.node.settleConnector_cases connector outcome
    exact upholds_of_node h hc ((keeps_withNode _ _).trans (keeps_finish _ _))
  unfold search
  split
  · exact hend _ _
  · dsimp only
    split
    · exact hend _ _
    · refine upholds_of_rests h ⟨by simp, by simp, by simp, by simp, fun _ => ?_⟩
      exact ((keeps_withPosition _ _).trans (keeps_note _ _)).trans (keeps_withNode _ _)

/-- The peer at a URL is to be asked to be the father. -/
theorem upholds_join (h : s.node.Sound later) (url : String) : s.Upholds later (s.join url) := by
  unfold join
  split
  · exact upholds_of_node h rfl (keeps_finish _ _)
  · exact upholds_of_rests h (rests_hold s fun _ => Holder.noConfusion)

/-- Telling some candidates of others. -/
theorem upholds_gossip (h : s.node.Sound later) : s.Upholds later s.gossip := by
  obtain ⟨payload, recipients, ws, hquiet | htold⟩ := gossip_eq s
  · rw [hquiet]
    exact upholds_of_node h rfl (keeps_withWords s ws)
  · rw [htold]
    have htell : s.Keeps (.candor s.node.position.rank)
        ((s.withWords ws).tellCandidates payload recipients) :=
      (keeps_withWords s ws).trans (keeps_tellCandidates _ (fun _ _ _ _ => trivial)
        fun _ _ => Conduct.candor_of_none rfl)
    refine upholds_of_frame h ?_ ?_ ?_ (htell.trans (keeps_note _ _)) <;> simp

/-- A link to a peer is gone. -/
theorem upholds_gone (h : s.node.Sound later) (peer : Peer) :
    s.Upholds later
      ((s.withNode { s.node with mailbox := s.node.mailbox.cancel peer }).depart peer) :=
  (upholds_depart (s := s.withNode { s.node with mailbox := s.node.mailbox.cancel peer })
    ⟨h.stands, h.listens.cancel peer⟩ peer).of_silent rfl (keeps_withNode _ _)

/-- Preparing something. -/
theorem upholds_of_prepares (h : s.node.Sound later) {a : Act} (hprepares : a.prepares = true) :
    s.Upholds later (a.run s) := by
  obtain ⟨_, _, _, _, hnode⟩ := s.node_of_prepares hprepares
  exact upholds_of_node h hnode (keeps_of_prepares s hprepares)

/-- An errand begins. -/
theorem upholds_begin (h : s.node.Sound later) (errand : Errand) :
    s.Upholds later (s.begin errand) := by
  cases errand with
  | repair dead => exact upholds_search h _ _ _
  | connect connector => exact upholds_search h _ _ _
  | join url => exact upholds_join h url
  | reroot => exact upholds_reroot h

/-- Every act but to experience a message. -/
theorem upholds_act {a : Act} (h : s.node.Sound later) (hown : a.isMessage = false)
    (room : a.Roomy s.node s.words) (horderly : a.Orderly s.node) :
    s.Upholds later (a.run s) := by
  cases a with
  | event event =>
      cases event with
      | message origin message => cases hown
      | opened peer =>
          simp only [Act.run, onEvent]
          split
          · exact upholds_refl h
          · exact upholds_of_node h rfl (keeps_withPosition _ _)
      | closed peer => exact upholds_gone h peer
      | dead peer => exact upholds_gone h peer
  | start | stop | requestJoin _ | requestReroot | tick => exact upholds_of_prepares h rfl
  | leave peer => exact upholds_leave h peer
  | gossip => exact upholds_gossip h
  | begin errand =>
      exact (upholds_begin
        (s := s.withNode { s.node with errands := s.node.errands.erase errand })
        ⟨h.stands, h.listens.congr rfl rfl⟩ errand).of_silent rfl (keeps_withNode _ _)
  | advance => exact upholds_advance h
  | resume => exact upholds_resume h room horderly

end Session

end BrokerForest
