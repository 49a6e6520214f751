import BrokerForest.Network.Mesh
import BrokerForest.Proofs.EffectRules
import BrokerForest.Proofs.Neighborhood
/-!
# What each operation of a node makes of it

For each operation of a node this module has two statements: what the node is afterwards,
and what a rule has to allow for the operation to keep to it.  All that follows about nodes,
and about networks of them, reads the operations through these statements.

Main statements:

* `Session.accept_of_sent`, `Session.accept_of_not_sent` — an acceptance is sent, and only
  then the child is welcomed;
* `Session.node_newTree`, `Session.node_attach` — a place is taken;
* `Session.depart_cases` — a peer is gone that was the father, another broker, or neither;
* `Session.draw_cases`, `Session.approach_cases`, `Session.submit_cases`,
  `Session.conclude_cases` — the steps of a search and of a negotiation;
* `Session.settle_cases` — what comes of a negotiation that is over;
* `Session.run_of_prepares` — what only prepares something changes next to nothing.
-/

namespace BrokerForest

namespace Node

/-! A root connector that starts leaves the rest of a node as it is. -/

@[simp]
theorem self_startConnector (n : Node) : n.startConnector.self = n.self := rfl

@[simp]
theorem position_startConnector (n : Node) : n.startConnector.position = n.position := rfl

@[simp]
theorem slot_startConnector (n : Node) : n.startConnector.slot = n.slot := rfl

@[simp]
theorem mailbox_startConnector (n : Node) : n.startConnector.mailbox = n.mailbox := rfl

@[simp]
theorem stopped_startConnector (n : Node) : n.startConnector.stopped = n.stopped := rfl

/-- What goes on and can only wait is a negotiation. -/
theorem negotiating_of_not_isReady {n : Node} (hengaged : n.isEngaged = true)
    (h : n.isReady = false) :
    ∃ negotiation, n.slot.holder = some (.negotiating negotiation) := by
  unfold isEngaged isReady at *
  cases hholder : n.slot.holder with
  | none => simp [hholder] at hengaged
  | some holder =>
      cases holder with
      | negotiating negotiation => exact ⟨negotiation, rfl⟩
      | outsider => simp [hholder, Holder.isEngaged] at hengaged
      | searching | opening | asking | retreating | leaving | founding =>
          simp [hholder, Holder.isReady] at h

end Node

namespace Session

section

variable {σ : Type}

@[simp]
theorem node_withPosition (s : Session σ) (p : Position) :
    (s.withPosition p).node = { s.node with position := p } := rfl

@[simp]
theorem node_hold (s : Session σ) (holder : Holder) :
    (s.hold holder).node = { s.node with slot := ⟨some holder⟩ } := rfl

@[simp]
theorem node_release (s : Session σ) :
    s.release.node = { s.node with slot := .free } := rfl

@[simp]
theorem node_queue (s : Session σ) (errand : Errand) :
    (s.queue errand).node = { s.node with errands := s.node.errands ++ [errand] } := rfl

@[simp]
theorem node_startConnector (s : Session σ) :
    s.startConnector.node = s.node.startConnector := rfl

@[simp]
theorem node_dropConnector (s : Session σ) :
    s.dropConnector.node = { s.node with connector := none } := rfl

@[simp]
theorem node_withMailbox (s : Session σ) (mailbox : Mailbox) :
    (s.withMailbox mailbox).node = { s.node with mailbox := mailbox } := rfl

end

variable {σ : Type} [Transport σ] {rule : Conduct}

/-! ## Answering requests -/

/-- A refusal leaves the node as it is. -/
@[simp]
theorem node_refuse (s : Session σ) (requester : Peer) (refusal : Refusal) :
    (s.refuse requester refusal).node = s.node := by
  simp [refuse]

theorem keeps_refuse (s : Session σ) {requester : Peer} {refusal : Refusal}
    (h : ∀ delivered,
      rule.sends requester (.response ⟨s.node.position.rank, .refused refusal⟩) delivered) :
    s.Keeps rule (s.refuse requester refusal) :=
  (keeps_note s _).trans (keeps_tell _ (by simpa using h))

end Session

/-- The message that accepts a child. -/
def Node.offer (n : Node) (admission : Admission) : Message :=
  .response ⟨admission.rank n.position.rank, .accepted ⟨n.chain, n.position.children⟩⟩

/-- The position of a node that has a new child. -/
def Position.welcome (p : Position) (child : Peer) (admission : Admission) : Position :=
  { p with rank := admission.rank p.rank, neighbors := p.neighbors.add child }

namespace Session

variable {σ : Type} [Transport σ] {rule : Conduct}

/-- A child that was told of its acceptance becomes a neighbor, and the children before it
learn of it. -/
def welcome (s : Session σ) (child : Peer) (admission : Admission) : Session σ :=
  let p := s.node.position
  let rank := admission.rank p.rank
  let upstream := s.node.chain
  let s := match child.primaryUrl with
    | some url => (s.openLink url).2
    | none => s
  let s := s.withPosition (p.welcome child admission)
  let s := s.note (.acceptChild child.id rank)
  let s := s.sendAll p.children
    (.newSibling ⟨rank, upstream, p.children, p.global.snapshot, child⟩)
  if admission.adopts then s.sendAll p.children (s.node.update upstream) else s

/-- A child that cannot be told of its acceptance is not welcomed. -/
theorem accept_of_not_sent {s : Session σ} {child : Peer} {admission : Admission}
    (h : (s.send child (s.node.offer admission) .control).1 = false) :
    s.accept child admission = (s.send child (s.node.offer admission) .control).2 := by
  unfold Node.offer at h ⊢
  generalize hsend : s.send child _ .control = result at h ⊢
  obtain ⟨delivered, t⟩ := result
  cases h
  simp only [accept, hsend]

/-- A child that was told of its acceptance is welcomed. -/
theorem accept_of_sent {s : Session σ} {child : Peer} {admission : Admission}
    (h : (s.send child (s.node.offer admission) .control).1 = true) :
    s.accept child admission =
      (s.send child (s.node.offer admission) .control).2.welcome child admission := by
  unfold Node.offer at h ⊢
  have hnode := node_send s child (.response ⟨admission.rank s.node.position.rank,
    .accepted ⟨s.node.chain, s.node.position.children⟩⟩) .control
  generalize hsend : s.send child _ .control = result at h hnode ⊢
  obtain ⟨delivered, t⟩ := result
  cases h
  change t.node = s.node at hnode
  simp only [accept, welcome, hsend, hnode]
  rfl

/-- A node that welcomes a child has a new neighbor, and its rank after the admission. -/
@[simp]
theorem node_welcome (s : Session σ) (child : Peer) (admission : Admission) :
    (s.welcome child admission).node =
      { s.node with position := s.node.position.welcome child admission } := by
  unfold welcome
  cases child.primaryUrl <;> cases admission.adopts <;> simp

theorem keeps_welcome (s : Session σ) {child : Peer} {admission : Admission}
    (ho : ∀ url, child.primaryUrl = some url → rule.opens url)
    (hnews : ∀ peer ∈ s.node.position.children, ∀ delivered,
      rule.sends peer
        (.newSibling ⟨admission.rank s.node.position.rank, s.node.chain,
          s.node.position.children, s.node.position.global.snapshot, child⟩) delivered)
    (hupdate : admission.adopts = true → ∀ peer ∈ s.node.position.children, ∀ delivered,
      rule.sends peer
        (.update ⟨admission.rank s.node.position.rank, s.node.chain, s.node.settings.hops⟩)
          delivered) :
    s.Keeps rule (s.welcome child admission) := by
  unfold welcome
  have hopen : s.Keeps rule (match child.primaryUrl with
      | some url => (s.openLink url).2
      | none => s) := by
    cases hurl : child.primaryUrl with
    | none => exact .refl s
    | some url => exact keeps_openLink s (ho url hurl)
  have hsettings : (match child.primaryUrl with
      | some url => (s.openLink url).2
      | none => s).node.settings = s.node.settings := by
    cases child.primaryUrl <;> simp
  have hsent := ((hopen.trans
    (keeps_withPosition _ (s.node.position.welcome child admission))).trans
    (keeps_note _ (.acceptChild child.id (admission.rank s.node.position.rank)))).trans
    (keeps_sendAll _ hnews)
  cases hadopts : admission.adopts with
  | false => exact hsent
  | true =>
      refine hsent.trans (keeps_sendAll _ fun peer hpeer delivered => ?_)
      simpa [Node.update, Position.welcome, hsettings] using hupdate hadopts peer hpeer delivered

/-- What is done about a request that was judged. -/
def pronounce (s : Session σ) (requester : Peer) : Verdict → Session σ
  | .duplicate => s
  | .refuse refusal .none => s.refuse requester refusal
  | .refuse refusal .keep =>
    (s.withPosition { s.node.position with
      global := s.node.position.global.setHint requester }).refuse requester refusal
  | .refuse refusal (.pass root) =>
    (s.refuse requester refusal).sendTransient root (.goodCandidate requester) .control
  | .accept admission => s.accept requester admission

/-- A request is judged, and then what is to be done about it is done. -/
theorem examine_eq (s : Session σ) (requester : Peer) (request : Request) :
    s.examine requester request =
      (s.withWords (s.node.judge requester request s.words).2).pronounce requester
        (s.node.judge requester request s.words).1 := by
  simp only [examine]
  rcases (s.node.judge requester request s.words).1 with _ | ⟨refusal, _ | _ | root⟩ | admission <;>
    rfl

end Session

/-- A request is accepted only of one that is no neighbor, and only if both rank and degree
admit it. -/
theorem Node.admission_of_judge {n : Node} {requester : Peer} {request : Request}
    {ws ws' : Words} {admission : Admission}
    (h : n.judge requester request ws = (.accept admission, ws')) :
    n.position.neighbors.contains requester = false ∧
      n.position.admission request.rank ws = (some admission, ws') ∧
      n.refuseDegree request = none := by
  unfold judge at h
  split at h
  · cases h
  · rename_i hcontains
    split at h
    · rename_i ws'' _
      unfold refuseRank at h
      split at h <;> cases h
    · rename_i a ws'' hadmission
      split at h
      · cases h
      · rename_i hdegree
        cases h
        exact ⟨by simpa using hcontains, hadmission, hdegree⟩

namespace Session

variable {σ : Type} [Transport σ] {rule : Conduct}

/-! ## Taking and losing one's place -/

/-- The root of a new tree is at its position when it tells its children. -/
theorem newTree_eq (s : Session σ) :
    s.newTree =
      let place := s.node.position.newTree s.node.self s.words
      let s := ((s.withPosition place.1).withWords place.2).note (.newTree place.1.rank)
      s.sendAll place.1.children (s.node.update []) := rfl

/-- The root of a new tree has the position of one. -/
@[simp]
theorem node_newTree (s : Session σ) :
    s.newTree.node =
      { s.node with position := (s.node.position.newTree s.node.self s.words).1 } := by
  simp [newTree_eq]

theorem keeps_newTree (s : Session σ)
    (h : ∀ peer delivered, rule.sends peer (.update
      ⟨s.newTree.node.position.rank, [], s.node.settings.hops⟩) delivered) :
    s.Keeps rule s.newTree := by
  rw [node_newTree] at h
  rw [newTree_eq]
  generalize s.node.position.newTree s.node.self s.words = place at h ⊢
  have hplace : s.Keeps rule _ :=
    ((keeps_withPosition s place.1).trans (keeps_withWords _ place.2)).trans
      (keeps_note _ (.newTree place.1.rank))
  refine hplace.trans (keeps_sendAll _ fun peer _ delivered => ?_)
  simpa [Node.update] using h peer delivered

/-- A node that is accepted is at its position when it tells its children. -/
theorem attach_eq (s : Session σ) (father : Peer) (rank : Rank) (acceptance : Acceptance) :
    s.attach father rank acceptance =
      let place := s.node.position.attach s.node.self father rank acceptance s.words
      let s := ((s.withPosition place.1).withWords place.2).note
        (.attachToFather father.id place.1.rank)
      (s.sendAll place.1.children (s.node.update s.node.chain)).dropConnector := rfl

/-- A node that is accepted takes its place beneath the father, and looks for no other. -/
@[simp]
theorem node_attach (s : Session σ) (father : Peer) (rank : Rank) (acceptance : Acceptance) :
    (s.attach father rank acceptance).node =
      { s.node with
        position := (s.node.position.attach s.node.self father rank acceptance s.words).1
        connector := none } := by
  simp [attach_eq]

theorem keeps_attach (s : Session σ) {father : Peer} {rank : Rank} {acceptance : Acceptance}
    (h : ∀ peer delivered, rule.sends peer (.update
      ⟨(s.attach father rank acceptance).node.position.rank,
        (s.attach father rank acceptance).node.chain, s.node.settings.hops⟩) delivered) :
    s.Keeps rule (s.attach father rank acceptance) := by
  rw [node_attach] at h
  rw [attach_eq]
  generalize s.node.position.attach s.node.self father rank acceptance s.words = place at h ⊢
  have hplace : s.Keeps rule _ :=
    ((keeps_withPosition s place.1).trans (keeps_withWords _ place.2)).trans
      (keeps_note _ (.attachToFather father.id place.1.rank))
  refine (hplace.trans (keeps_sendAll _ fun peer _ delivered => ?_)).trans (keeps_withNode _ _)
  simpa [Node.update, Node.chain] using h peer delivered

/-- A peer is gone that was no broker beside the node, or not its father. -/
theorem node_depart_of_not_father {s : Session σ} {peer : Peer}
    (h : s.node.position.neighbors.isBroker peer = false ∨
      s.node.position.isFather peer = false) :
    (s.depart peer).node = { s.node with position := s.node.position.forget peer } := by
  unfold depart
  cases hb : s.node.position.neighbors.isBroker peer with
  | false => simp [hb]
  | true =>
      have hf : s.node.position.isFather peer = false := by simpa [hb] using h
      simp [hb, hf]

/-- The father is gone: unless it is stopped, the node is to find another. -/
theorem node_depart_of_father {s : Session σ} {peer : Peer}
    (hb : s.node.position.neighbors.isBroker peer = true)
    (hf : s.node.position.isFather peer = true) :
    (s.depart peer).node =
      { s.node with
        position := (s.node.position.forget peer).orphan
        connector := none
        errands := if s.node.stopped then s.node.errands
          else s.node.errands ++ [.repair peer] } := by
  unfold depart
  cases hs : s.node.stopped <;> simp [hb, hf, hs]

/-- Whoever is gone, the node has the father it had, or none. -/
theorem depart_cases (s : Session σ) (peer : Peer) :
    (s.depart peer).node = { s.node with position := s.node.position.forget peer } ∨
      (s.depart peer).node =
        { s.node with
          position := (s.node.position.forget peer).orphan
          connector := none
          errands := if s.node.stopped then s.node.errands
            else s.node.errands ++ [.repair peer] } := by
  by_cases h : s.node.position.neighbors.isBroker peer = true ∧
      s.node.position.isFather peer = true
  · exact Or.inr (node_depart_of_father h.1 h.2)
  · refine Or.inl (node_depart_of_not_father ?_)
    cases hb : s.node.position.neighbors.isBroker peer with
    | false => exact Or.inl rfl
    | true => exact Or.inr (by simpa [hb] using h)

theorem keeps_depart (s : Session σ) {gone : Peer}
    (h : ∀ peer delivered, rule.sends peer
      (.siblingDead ⟨s.node.position.rank, s.node.position.global.snapshot, gone⟩) delivered) :
    s.Keeps rule (s.depart gone) := by
  have hforget : s.Keeps rule _ := keeps_withPosition s (s.node.position.forget gone)
  have hclose := hforget.trans (keeps_closeLink _ gone)
  simp only [depart]
  split
  · exact hforget
  · split
    · refine hclose.trans ?_
      split
      · exact ((keeps_withPosition _ _).trans (keeps_note _ _)).trans (keeps_withNode _ _)
      · exact (((keeps_withPosition _ _).trans (keeps_note _ _)).trans
          (keeps_withNode _ _)).trans (keeps_withNode _ _)
    · refine (hclose.trans (keeps_note _ (.siblingGone gone.id))).trans
        (keeps_sendAll _ fun peer _ delivered => ?_)
      simpa [Position.forget] using h peer delivered

/-- A node that leaves a neighbor tells it so, and parts from it. -/
theorem leave_eq (s : Session σ) (peer : Peer) :
    s.leave peer =
      if s.node.position.neighbors.contains peer then (s.tell peer .noLongerChild).depart peer
      else s := rfl

/-! ## News -/

/-- A response is delivered, or else it is a violation, and the node remains as it is. -/
theorem node_onResponse (s : Session σ) (origin : Peer) (response : Response) :
    (∃ mailbox, s.node.mailbox.deliver origin response = .ok mailbox ∧
        (s.onResponse origin response).node = { s.node with mailbox := mailbox }) ∨
      (s.onResponse origin response).node = s.node := by
  unfold onResponse
  split
  · rename_i mailbox h
    exact Or.inl ⟨mailbox, h, rfl⟩
  · right
    dsimp only
    split <;> simp

theorem keeps_onResponse (s : Session σ) {origin : Peer} {response : Response}
    (ho : ∀ url, origin.primaryUrl = some url → rule.opens url)
    (hs : ∀ linked delivered, rule.sends linked .noLongerChild delivered) :
    s.Keeps rule (s.onResponse origin response) := by
  unfold onResponse
  split
  · exact keeps_withNode _ _
  · dsimp only
    split
    · exact (keeps_note s _).trans (keeps_sendTransient _ ho hs)
    · exact keeps_note s _

end Session

/-- Settling beneath a father's rank leaves all but the rank and the father's depth alone. -/
theorem Position.settle_frame (p : Position) (rank : Rank) (ws : Words) :
    (p.settle rank ws).2.1.father = p.father ∧
      (p.settle rank ws).2.1.fatherDepth = some rank.depth ∧
        (p.settle rank ws).2.1.neighbors = p.neighbors ∧
          (p.settle rank ws).2.1.regional = p.regional ∧
            (p.settle rank ws).2.1.global = p.global := by
  simp only [settle]
  split
  · split <;> exact ⟨rfl, rfl, rfl, rfl, rfl⟩
  · exact ⟨rfl, rfl, rfl, rfl, rfl⟩

/-- Beneath a father that has accepted it a node has a rank of some kind, the father beside
it, and the father's word about its ancestors and siblings. -/
theorem Position.attach_eq (p : Position) (self father : Peer) (rank : Rank)
    (acceptance : Acceptance) (ws : Words) :
    ∃ own, (p.attach self father rank acceptance ws).1 =
      { rank := own
        father := some father
        fatherDepth := some rank.depth
        neighbors := p.neighbors.add father
        regional := (p.regional.setUpstream acceptance.upstream).setSiblings
          (acceptance.siblings.filter fun sibling => !sibling.same self)
        global := p.global.remove father } := by
  obtain ⟨hfather, hdepth, hneighbors, hregional, hglobal⟩ := Position.settle_frame
    { p with
      father := some father
      neighbors := p.neighbors.add father
      global := p.global.remove father } rank ws
  refine ⟨(p.attach self father rank acceptance ws).1.rank, ?_⟩
  simp only [attach, hfather, hdepth, hneighbors, hregional, hglobal]

/-- What settling beneath a father that tells of its rank and its chain comes to. -/
def Position.heed (p : Position) (news : Update) (ws : Words) : RankChange × Position × Words :=
  { p with regional := p.regional.setUpstream news.upstream }.settle news.rank ws

/-- Settling leaves all but the rank and the chain as it is. -/
theorem Position.heed_frame (p : Position) (news : Update) (ws : Words) :
    (p.heed news ws).2.1.father = p.father ∧
      (p.heed news ws).2.1.neighbors = p.neighbors ∧
        (p.heed news ws).2.1.regional = p.regional.setUpstream news.upstream ∧
          (p.heed news ws).2.1.global = p.global := by
  obtain ⟨hfather, -, hneighbors, hregional, hglobal⟩ := settle_frame
    { p with regional := p.regional.setUpstream news.upstream } news.rank ws
  exact ⟨hfather, hneighbors, hregional, hglobal⟩

theorem Position.fatherDepth_heed (p : Position) (news : Update) (ws : Words) :
    (p.heed news ws).2.1.fatherDepth = some news.rank.depth :=
  (settle_frame ..).2.1

theorem Position.has_heed (p : Position) (news : Update) (ws : Words) (v : NodeId) :
    (p.heed news ws).2.1.has v = p.has v := by
  rw [has, has, (p.heed_frame news ws).2.1]

theorem Position.under_heed (p : Position) (news : Update) (ws : Words) (v : NodeId) :
    (p.heed news ws).2.1.under v = p.under v := by
  rw [under, under, (p.heed_frame news ws).1]

theorem Position.children_heed (p : Position) (news : Update) (ws : Words) :
    (p.heed news ws).2.1.children = p.children := by
  obtain ⟨hfather, hneighbors, -, -⟩ := p.heed_frame news ws
  rw [children, children, hfather, hneighbors]

namespace Session

variable {σ : Type} [Transport σ] {rule : Conduct}

/-- News of a father's rank and chain are heeded if they come from the father. -/
theorem onUpdate_eq (s : Session σ) (origin : Peer) (news : Update) :
    s.onUpdate origin news =
      if s.node.position.isFather origin then
        let settled := s.node.position.heed news s.words
        let t := (s.withPosition settled.2.1).withWords settled.2.2
        if settled.1.color || settled.1.depth || 0 < news.hops then
          t.sendAll settled.2.1.children (.update ⟨settled.2.1.rank, t.node.chain, news.hopsLeft⟩)
        else t
      else s := by
  unfold onUpdate
  cases h : s.node.position.isFather origin <;> simp [h, Position.heed]

theorem node_onUpdate_of_father {s : Session σ} {origin : Peer} {news : Update}
    (h : s.node.position.isFather origin = true) :
    (s.onUpdate origin news).node =
      { s.node with position := (s.node.position.heed news s.words).2.1 } := by
  rw [onUpdate_eq, if_pos h]
  dsimp only
  split <;> simp

theorem onUpdate_of_not_father {s : Session σ} {origin : Peer} {news : Update}
    (h : s.node.position.isFather origin = false) :
    s.onUpdate origin news = s := by
  rw [onUpdate_eq]
  simp [h]

theorem keeps_onUpdate (s : Session σ) {origin : Peer} {news : Update}
    (h : ∀ peer delivered, rule.sends peer
      (.update ⟨(s.onUpdate origin news).node.position.rank,
        (s.onUpdate origin news).node.chain, news.hopsLeft⟩) delivered) :
    s.Keeps rule (s.onUpdate origin news) := by
  cases hf : s.node.position.isFather origin with
  | false =>
      rw [onUpdate_of_not_father hf]
      exact .refl s
  | true =>
      rw [node_onUpdate_of_father hf] at h
      rw [onUpdate_eq, if_pos hf]
      have hplace : s.Keeps rule _ :=
        (keeps_withPosition s (s.node.position.heed news s.words).2.1).trans
          (keeps_withWords _ (s.node.position.heed news s.words).2.2)
      dsimp only
      split
      · exact hplace.trans (keeps_sendAll _ fun peer _ delivered => h peer delivered)
      · exact hplace

/-! ## Negotiations -/

end Session

namespace Mailbox

variable {m m' : Mailbox} {origin : Peer} {response : Response}

/-- A response that is collected was delivered. -/
theorem delivered_of_collect (h : m.collect = .ok response) : m.delivered = some response := by
  unfold collect at h
  split at h
  · cases h
  · rename_i held
    cases h
    simp [delivered, held]
  · split at h <;> cases h

/-- A response is taken from whom it is expected, and is all that is held besides what was held
before. -/
theorem deliver_eq_ok (h : m.deliver origin response = .ok m') :
    m.expects origin = true ∧ m'.awaited = none ∧
      ∀ response', m'.delivered = some response' →
        m.delivered = some response' ∨ response' = response := by
  unfold deliver at h
  split at h
  · cases h
  · rename_i expected hexpected
    split at h
    · rename_i hsame
      cases h
      refine ⟨by simpa [expects, hexpected, Peer.isThe] using hsame, rfl, fun response' hr => ?_⟩
      unfold delivered at hr ⊢
      rcases hheld : m.receiver with _ | _ | held <;> simp [hheld] at hr ⊢
      · exact hr.symm
      · exact Or.inl hr
    · cases h

/-- A response that nobody waits for is not taken. -/
theorem deliver_of_not_expected (h : m.expects origin = false) (response : Response) :
    ∃ error, m.deliver origin response = .error error := by
  cases hdeliver : m.deliver origin response with
  | error error => exact ⟨error, rfl⟩
  | ok m' => rw [(deliver_eq_ok hdeliver).1] at h; cases h

/-- Giving up a wait neither begins one nor brings a response. -/
theorem cancel_frame (m : Mailbox) (peer : Peer) :
    ((m.cancel peer).awaited = none ∨ (m.cancel peer).awaited = m.awaited) ∧
      (m.cancel peer).delivered = m.delivered := by
  unfold cancel
  split
  · exact ⟨Or.inl rfl, rfl⟩
  · exact ⟨Or.inr rfl, rfl⟩

end Mailbox

namespace Session

variable {σ : Type} [Transport σ] {rule : Conduct}

/-- A link leads nowhere, or to the node itself, or the peer at its end is to be asked. -/
theorem contact_cases (s : Session σ) (url : String) (force : Force) :
    (∃ error, (s.openLink url).1 = .error error ∧
        s.contact url force = (.error (.failed (.link error)), (s.openLink url).2)) ∨
      ∃ peer, (s.openLink url).1 = .ok peer ∧
        ((peer.same s.node.self = true ∧
            s.contact url force = (.error .selfConnect, (s.openLink url).2.closeLink peer)) ∨
          (peer.same s.node.self = false ∧
            s.contact url force =
              (.ok (peer, ⟨s.node.position.rank, force⟩), (s.openLink url).2))) := by
  have hnode := s.node_openLink url
  unfold contact
  split
  · rename_i error t heq
    exact Or.inl ⟨error, by rw [heq], by rw [heq]⟩
  · rename_i peer t heq
    rw [heq] at hnode ⊢
    change t.node = s.node at hnode
    refine Or.inr ⟨peer, rfl, ?_⟩
    rw [hnode]
    cases peer.same s.node.self with
    | true => exact Or.inl ⟨rfl, if_pos rfl⟩
    | false => exact Or.inr ⟨rfl, if_neg Bool.false_ne_true⟩

/-- The same for a reconfiguration that goes on with it. -/
theorem approach_cases (s : Session σ) (attempt : Attempt) :
    (∃ error, (s.openLink attempt.url).1 = .error error ∧
        s.approach attempt =
          (s.openLink attempt.url).2.settle attempt.purpose (.failed (.link error))) ∨
      ∃ peer, (s.openLink attempt.url).1 = .ok peer ∧
        ((peer.same s.node.self = true ∧
            s.approach attempt =
              ((s.openLink attempt.url).2.closeLink peer).settle attempt.purpose .selfConnect) ∨
          (peer.same s.node.self = false ∧
            s.approach attempt =
              (s.openLink attempt.url).2.hold (.asking ⟨peer, attempt.purpose⟩
                ⟨s.node.position.rank, attempt.force⟩))) := by
  rcases s.contact_cases attempt.url attempt.force with
    ⟨error, hopen, heq⟩ | ⟨peer, hopen, ⟨hself, heq⟩ | ⟨hother, heq⟩⟩
  · exact Or.inl ⟨error, hopen, by simp only [approach, heq]⟩
  · exact Or.inr ⟨peer, hopen, Or.inl ⟨hself, by simp only [approach, heq]⟩⟩
  · exact Or.inr ⟨peer, hopen, Or.inr ⟨hother, by simp only [approach, heq]⟩⟩

/-- Whoever is asked, the node waits for its answer, and the request was seen. -/
theorem ask_frame (s : Session σ) (peer : Peer) (request : Request) :
    (s.ask peer request).2.node = { s.node with mailbox := s.node.mailbox.expect peer } ∧
      (s.ask peer request).2.trace =
        s.trace ++ [.sent peer (.request request) .control (s.ask peer request).1] :=
  ⟨rfl, rfl⟩

theorem keeps_ask (s : Session σ) {peer : Peer} {request : Request}
    (h : ∀ delivered, rule.sends peer (.request request) delivered) :
    s.Keeps rule (s.ask peer request).2 :=
  (keeps_withNode s _).trans (keeps_send _ (h _))

/-- The request goes out and the node waits for its answer, or it does not. -/
theorem submit_eq (s : Session σ) (negotiation : Negotiation) (request : Request) :
    s.submit negotiation request = (s.ask negotiation.peer request).2.hold
      (if (s.ask negotiation.peer request).1 then .negotiating negotiation
        else .retreating negotiation) := by
  unfold submit
  split <;>
    · rename_i heq
      rw [heq]
      rfl

/-- While the request is sent nothing changes of the node but its mailbox and how far its
negotiation has come. -/
theorem submit_cases (s : Session σ) (negotiation : Negotiation) (request : Request) :
    ∃ holder, (s.submit negotiation request).node =
        { s.node with
          mailbox := s.node.mailbox.expect negotiation.peer
          slot := ⟨some holder⟩ } ∧
      (holder = .negotiating negotiation ∧
          (s.submit negotiation request).trace =
            s.trace ++ [.sent negotiation.peer (.request request) .control true] ∨
        holder = .retreating negotiation ∧
          (s.submit negotiation request).trace =
            s.trace ++ [.sent negotiation.peer (.request request) .control false]) := by
  obtain ⟨hnode, htrace⟩ := s.ask_frame negotiation.peer request
  rw [submit_eq]
  refine ⟨_, by rw [node_hold, hnode], ?_⟩
  cases hsent : (s.ask negotiation.peer request).1 with
  | true => exact Or.inl ⟨rfl, hsent ▸ htrace⟩
  | false => exact Or.inr ⟨rfl, hsent ▸ htrace⟩

theorem keeps_submit (s : Session σ) {negotiation : Negotiation} {request : Request}
    (h : ∀ delivered, rule.sends negotiation.peer (.request request) delivered) :
    s.Keeps rule (s.submit negotiation request) := by
  rw [submit_eq]
  exact (keeps_ask s h).trans (keeps_withNode _ _)

/-- The wait for an answer is over with an acceptance, and the node attaches, or without
one, and the link is closed. -/
theorem conclude_cases (s : Session σ) (peer : Peer) :
    (∃ response acceptance, s.node.mailbox.collect = .ok response ∧
        response.answer = .accepted acceptance ∧
        s.conclude peer =
          (.accepted peer, (s.withMailbox .empty).attach peer response.rank acceptance)) ∨
      (∃ result, s.conclude peer = (result, (s.withMailbox .empty).closeLink peer) ∧
        ∀ father, result ≠ .accepted father) := by
  unfold conclude
  dsimp only
  cases hc : s.node.mailbox.collect with
  | error e => exact Or.inr ⟨_, rfl, fun _ => NegotiationResult.noConfusion⟩
  | ok response =>
      dsimp only
      cases ha : response.answer with
      | accepted acceptance => exact Or.inl ⟨response, acceptance, rfl, ha, rfl⟩
      | refused refusal => exact Or.inr ⟨_, rfl, fun _ => NegotiationResult.noConfusion⟩

/-- What a negotiation is refused with was in the mailbox. -/
theorem collect_of_conclude {s : Session σ} {peer p : Peer} {rank : Rank} {refusal : Refusal}
    (h : (s.conclude peer).1 = .refused p rank refusal) :
    p = peer ∧ ∃ response, s.node.mailbox.collect = .ok response ∧
      response.answer = .refused refusal := by
  unfold conclude at h
  dsimp only at h
  cases hc : s.node.mailbox.collect with
  | error e =>
      rw [hc] at h
      cases h
  | ok response =>
      rw [hc] at h
      dsimp only at h
      cases ha : response.answer with
      | accepted acceptance =>
          rw [ha] at h
          cases h
      | refused r =>
          rw [ha] at h
          cases h
          exact ⟨rfl, response, rfl, ha⟩

/-! ## Reconfigurations -/

end Session

/-- What happens to its root connector leaves the rest of a node as it is. -/
theorem Node.settleConnector_cases (n : Node) (serial : Option Nat) (outcome : TickOutcome) :
    ∃ connector, n.settleConnector serial outcome = { n with connector := connector } := by
  unfold settleConnector
  split
  · exact ⟨n.connector, rfl⟩
  · split
    · exact ⟨_, rfl⟩
    · exact ⟨n.connector, rfl⟩

namespace Session

variable {σ : Type} [Transport σ] {rule : Conduct}

omit [Transport σ] in
/-- A search that has found nobody goes on to found a new tree, unless it leaves the node as it
is; any other is over. -/
theorem endSearch_eq (s : Session σ) (search : Search) (found : Option (Peer × PoolKind)) :
    ∃ connector,
      let t := s.note (.endSearch (found.map fun f => (f.1.id, f.2)) search.tries)
      let u := t.withNode { t.node with connector := connector }
      s.endSearch search found =
        if found.isNone && !search.asRoot then u.hold (.founding true)
        else u.release.finish (.searched (found.map Prod.fst)) := by
  obtain ⟨connector, h⟩ := s.node.settleConnector_cases search.connector
    (if found.isSome then .stop else .again)
  refine ⟨connector, ?_⟩
  simp only [endSearch, node_note]
  rw [h]

omit [Transport σ] in
/-- A search that is over leaves the node where it is. -/
theorem node_endSearch (s : Session σ) (search : Search) (found : Option (Peer × PoolKind)) :
    ∃ connector, (s.endSearch search found).node =
      { s.node with
        slot := ⟨if found.isNone && !search.asRoot then some (.founding true) else none⟩
        connector := connector } := by
  obtain ⟨connector, heq⟩ := s.endSearch_eq search found
  refine ⟨connector, ?_⟩
  rw [heq]
  dsimp only
  split
  · simp
  · simp
    rfl

@[simp]
theorem keeps_endSearch (s : Session σ) (search : Search) (found : Option (Peer × PoolKind)) :
    s.Keeps rule (s.endSearch search found) := by
  obtain ⟨connector, heq⟩ := s.endSearch_eq search found
  rw [heq]
  have hnote : s.Keeps rule _ :=
    keeps_note s (.endSearch (found.map fun f => (f.1.id, f.2)) search.tries)
  dsimp only
  split
  · exact (hnote.trans (keeps_withNode _ _)).trans (keeps_withNode _ _)
  · exact ((hnote.trans (keeps_withNode _ _)).trans (keeps_withNode _ _)).trans (keeps_finish _ _)

omit [Transport σ] in
/-- What asking a peer means for joining its tree: a hint is kept at most. -/
theorem endJoin_eq (s : Session σ) (result : NegotiationResult) :
    ∃ global outcome,
      s.endJoin result =
        (s.withPosition { s.node.position with global := global }).finish outcome ∧
      (global = s.node.position.global ∨ ∃ peer rank hint,
        result = .refused peer rank (.depthOrColor (some hint)) ∧
          global = s.node.position.global.add hint) := by
  cases result with
  | accepted | selfConnect | failed => exact ⟨_, _, rfl, Or.inl rfl⟩
  | refused peer rank refusal =>
      cases refusal with
      | maxDegree | minDegree | busy => exact ⟨_, _, rfl, Or.inl rfl⟩
      | depthOrColor hint =>
          cases hint with
          | none => exact ⟨_, _, rfl, Or.inl rfl⟩
          | some hint => exact ⟨_, _, rfl, Or.inr ⟨peer, rank, hint, rfl, rfl⟩⟩

omit [Transport σ] in
/-- What a search learns from a refusal: the node keeps a hint at most, and never itself. -/
theorem learn_frame (s : Session σ) (peer : Peer) (refusal : Refusal) (search : Search) :
    ∃ global,
      (s.learn peer refusal search).1 =
        s.withPosition { s.node.position with global := global } ∧
      (global = s.node.position.global ∨ ∃ hint, refusal = .depthOrColor (some hint) ∧
        hint.same s.node.self = false ∧ global = s.node.position.global.add hint) := by
  cases refusal with
  | maxDegree | minDegree | busy => exact ⟨_, rfl, Or.inl rfl⟩
  | depthOrColor hint =>
      cases hint with
      | none => exact ⟨_, rfl, Or.inl rfl⟩
      | some hint =>
          cases hother : hint.same s.node.self with
          | true =>
              refine ⟨s.node.position.global, ?_, Or.inl rfl⟩
              simp only [learn, hother, if_true]
              rfl
          | false =>
              refine ⟨_, ?_, Or.inr ⟨hint, rfl, hother, rfl⟩⟩
              simp [learn, hother]

omit [Transport σ] in
/-- What is to come of a negotiation: a hint at most is remembered, and what is left of the
reconfiguration is a search that goes on. -/
theorem settle_cases (s : Session σ) (purpose : Purpose) (result : NegotiationResult) :
    ∃ global connector holder, (s.settle purpose result).node =
        { s.node with
          position := { s.node.position with global := global }
          slot := ⟨holder⟩
          connector := connector } ∧
      (holder = none ∨
        ∃ search source search', purpose = .search search source ∧
          holder = some (.searching search')) ∧
      (global = s.node.position.global ∨ ∃ peer rank hint,
        result = .refused peer rank (.depthOrColor (some hint)) ∧
          global = s.node.position.global.add hint ∧
            (hint.same s.node.self = false ∨ purpose = .join)) := by
  cases purpose with
  | ask => exact ⟨_, _, none, rfl, Or.inl rfl, Or.inl rfl⟩
  | join =>
      obtain ⟨global, outcome, hend, hglobal⟩ := s.release.endJoin_eq result
      refine ⟨global, s.node.connector, none, ?_, Or.inl rfl, ?_⟩
      · simp only [settle, hend]
        rfl
      · rcases hglobal with rfl | ⟨peer, rank, hint, hrefused, rfl⟩
        · exact Or.inl rfl
        · exact Or.inr ⟨peer, rank, hint, hrefused, rfl, Or.inr rfl⟩
  | search search source =>
      cases result with
      | accepted father =>
          obtain ⟨connector, hnode⟩ := s.node_endSearch search (some (father, source))
          exact ⟨_, connector, none, hnode, Or.inl rfl, Or.inl rfl⟩
      | selfConnect | failed _ =>
          exact ⟨_, _, _, rfl, Or.inr ⟨search, source, search, rfl, rfl⟩, Or.inl rfl⟩
      | refused peer rank refusal =>
          obtain ⟨global, hlearn, hglobal⟩ := s.learn_frame peer refusal search
          refine ⟨global, s.node.connector, _, ?_,
            Or.inr ⟨search, source, search.learn s.node.self peer refusal, rfl, rfl⟩, ?_⟩
          · simp only [settle, hlearn]
            rfl
          · rcases hglobal with rfl | ⟨hint, rfl, hother, rfl⟩
            · exact Or.inl rfl
            · exact Or.inr ⟨peer, rank, hint, rfl, rfl, Or.inl hother⟩

/-- Whatever comes of a negotiation, nothing is done to the world outside. -/
@[simp]
theorem keeps_settle (s : Session σ) (purpose : Purpose) (result : NegotiationResult) :
    s.Keeps rule (s.settle purpose result) := by
  cases purpose with
  | ask => exact (keeps_withNode s _).trans (keeps_finish _ _)
  | join =>
      obtain ⟨global, outcome, hend, -⟩ := s.release.endJoin_eq result
      simp only [settle, hend]
      exact ((keeps_withNode s _).trans (keeps_withPosition _ _)).trans (keeps_finish _ _)
  | search search source =>
      cases result with
      | accepted father => exact keeps_endSearch s search _
      | selfConnect | failed _ => exact keeps_withNode s _
      | refused peer rank refusal =>
          obtain ⟨global, hlearn, -⟩ := s.learn_frame peer refusal search
          simp only [settle, hlearn]
          exact (keeps_withPosition s _).trans (keeps_withNode _ _)

theorem keeps_approach (s : Session σ) {attempt : Attempt} (h : rule.opens attempt.url) :
    s.Keeps rule (s.approach attempt) := by
  have hopen := keeps_openLink s h
  rcases s.approach_cases attempt with
    ⟨error, -, heq⟩ | ⟨peer, -, ⟨-, heq⟩ | ⟨-, heq⟩⟩ <;> rw [heq]
  · exact hopen.trans (keeps_settle _ _ _)
  · exact (hopen.trans (keeps_closeLink _ _)).trans (keeps_settle _ _ _)
  · exact hopen.trans (keeps_withNode _ _)

theorem retreat_eq (s : Session σ) (negotiation : Negotiation) :
    s.retreat negotiation =
      (s.giveUp negotiation.peer).2.settle negotiation.purpose
        (.failed (.notConnected negotiation.peer)) := rfl

theorem keeps_retreat (s : Session σ) (negotiation : Negotiation) :
    s.Keeps rule (s.retreat negotiation) :=
  ((keeps_withNode s _).trans (keeps_closeLink _ _)).trans (keeps_settle _ _ _)

end Session

/-- A candidate without a URL is not asked, any other is to be. -/
theorem Candidate.holder_cases (c : Candidate) (search : Search) :
    (c.peer.primaryUrl = none ∧ c.holder search = .searching search) ∨
      ∃ url, c.peer.primaryUrl = some url ∧
        c.holder search = .opening ⟨url, c.force, .search search c.source⟩ := by
  unfold holder
  cases c.peer.primaryUrl with
  | none => exact Or.inl ⟨rfl, rfl⟩
  | some url => exact Or.inr ⟨url, rfl, rfl⟩

namespace Session

variable {σ : Type} [Transport σ] {rule : Conduct}

/-- The session once the next candidate of a search was looked for. -/
def afterDraw (s : Session σ) (search : Search) : Session σ :=
  (s.withWords (s.nextCandidate search).words).pause (s.nextCandidate search).pause

omit [Transport σ] in
@[simp]
theorem node_afterDraw (s : Session σ) (search : Search) : (s.afterDraw search).node = s.node := by
  simp [afterDraw]

theorem keeps_afterDraw (s : Session σ) (search : Search) : s.Keeps rule (s.afterDraw search) :=
  (keeps_withWords s _).trans (keeps_pause _ _)

omit [Transport σ] in
/-- A search that goes on ends, because the node has stopped or nobody is left, or takes its
next candidate. -/
theorem draw_cases (s : Session σ) (search : Search) :
    (s.node.stopped = true ∧ s.draw search = s.endSearch search none) ∨
      s.node.stopped = false ∧
        (((s.nextCandidate search).found = none ∧
            s.draw search = (s.afterDraw search).endSearch
              { search with pools := (s.nextCandidate search).pools } none) ∨
          ∃ c, (s.nextCandidate search).found = some c ∧
            s.draw search = (s.afterDraw search).hold
              (c.holder (search.mark (s.nextCandidate search).pools c))) := by
  unfold draw
  cases hstopped : s.node.stopped with
  | true => exact Or.inl ⟨rfl, if_pos rfl⟩
  | false =>
      refine Or.inr ⟨rfl, ?_⟩
      rw [if_neg Bool.false_ne_true]
      dsimp only
      split
      · exact Or.inl ⟨‹_›, rfl⟩
      · exact Or.inr ⟨_, ‹_›, rfl⟩

theorem keeps_draw (s : Session σ) (search : Search) : s.Keeps rule (s.draw search) := by
  rcases s.draw_cases search with ⟨-, heq⟩ | ⟨-, ⟨-, heq⟩ | ⟨c, -, heq⟩⟩ <;> rw [heq]
  · exact keeps_endSearch s search none
  · exact (keeps_afterDraw s search).trans (keeps_endSearch _ _ _)
  · exact (keeps_afterDraw s search).trans (keeps_withNode _ _)

/-! ## Leaving a father and founding a tree -/

@[simp]
theorem node_forsake (s : Session σ) (father : Peer) :
    (s.forsake father).node =
      { s.node with
        position := s.node.position.forget father
        slot := ⟨some (.founding false)⟩ } := rfl

theorem keeps_forsake (s : Session σ) (father : Peer) : s.Keeps rule (s.forsake father) :=
  ((keeps_withPosition s _).trans (keeps_closeLink _ _)).trans (keeps_withNode _ _)

/-- A node that is told to leave its father tells it so first. -/
theorem keeps_reroot (s : Session σ)
    (h : ∀ peer delivered, rule.sends peer .noLongerChild delivered) :
    s.Keeps rule s.reroot := by
  unfold reroot
  split
  · exact keeps_withNode s _
  · exact (keeps_tell s (h _)).trans (keeps_withNode _ _)

/-- Whether a node that is to found a tree does so. -/
def founds (s : Session σ) (repair : Bool) : Bool := !repair || !s.node.stopped

/-- A node that has founded a tree, or has not for it has stopped, lets go of its slot.  Unless
it has stopped it looks for a tree to join from then on. -/
theorem node_found (s : Session σ) (repair : Bool) :
    (s.found repair).node =
      { (if s.node.stopped then s.node else s.node.startConnector) with
        position := if s.founds repair then (s.node.position.newTree s.node.self s.words).1
          else s.node.position
        slot := .free } := by
  unfold found founds
  cases repair <;> cases hstopped : s.node.stopped <;> simp [hstopped, Node.startConnector]

/-- Only the founding of a tree is told of. -/
theorem keeps_found (s : Session σ) (repair : Bool)
    (h : s.founds repair = true → ∀ peer delivered, rule.sends peer (.update
      ⟨(s.found repair).node.position.rank, [], s.node.settings.hops⟩) delivered) :
    s.Keeps rule (s.found repair) := by
  rw [node_found] at h
  have hnew (hfounds : s.founds repair = true) : s.Keeps rule s.newTree := by
    refine keeps_newTree s fun peer delivered => ?_
    simpa [hfounds] using h hfounds peer delivered
  unfold found
  cases repair with
  | true =>
      cases hstopped : s.node.stopped with
      | true => exact (keeps_withNode s _).trans (keeps_finish _ _)
      | false =>
          exact (((hnew (by simp [founds, hstopped])).trans (keeps_withNode _ _)).trans
            (keeps_withNode _ _)).trans (keeps_finish _ _)
  | false =>
      have hnew' := hnew rfl
      dsimp only
      rw [if_neg Bool.false_ne_true]
      split
      · exact hnew'.trans (keeps_withNode _ _)
      · exact (hnew'.trans (keeps_withNode _ _)).trans (keeps_withNode _ _)

/-! ## Going on -/

section

variable {s : Session σ} {search : Search} {attempt : Attempt} {negotiation : Negotiation}
  {request : Request} {father : Peer} {repair : Bool}

theorem advance_of_searching (h : s.node.slot.holder = some (.searching search)) :
    s.advance = s.draw search := by
  unfold advance
  rw [h]

theorem advance_of_opening (h : s.node.slot.holder = some (.opening attempt)) :
    s.advance = s.approach attempt := by
  unfold advance
  rw [h]

theorem advance_of_asking (h : s.node.slot.holder = some (.asking negotiation request)) :
    s.advance = s.submit negotiation request := by
  unfold advance
  rw [h]

theorem advance_of_retreating (h : s.node.slot.holder = some (.retreating negotiation)) :
    s.advance = s.retreat negotiation := by
  unfold advance
  rw [h]

theorem advance_of_leaving (h : s.node.slot.holder = some (.leaving father)) :
    s.advance = s.forsake father := by
  unfold advance
  rw [h]

theorem advance_of_founding (h : s.node.slot.holder = some (.founding repair)) :
    s.advance = s.found repair := by
  unfold advance
  rw [h]

/-- Only what can go on does so. -/
theorem advance_of_not_ready (h : s.node.isReady = false) : s.advance = s := by
  unfold advance
  split <;> simp_all [Node.isReady, Holder.isReady]

/-- A negotiation that is over is concluded, and then what is to come of it comes. -/
theorem resume_of_negotiating (h : s.node.slot.holder = some (.negotiating negotiation)) :
    s.resume =
      (s.conclude negotiation.peer).2.settle negotiation.purpose
        (s.conclude negotiation.peer).1 := by
  unfold resume
  rw [h]

/-- Only a node that waits for an answer goes on with its negotiation. -/
theorem resume_of_not_negotiating
    (h : ∀ negotiation, s.node.slot.holder ≠ some (.negotiating negotiation)) :
    s.resume = s := by
  unfold resume
  split
  · rename_i negotiation hn
    exact absurd hn (h negotiation)
  · rfl

end

/-! ## Gossip -/

/-- Candidates are told of others one by one. -/
def tellCandidates (s : Session σ) (payload recipients : List Peer) : Session σ :=
  recipients.foldl (fun s p => s.sendTransient p (.candidates payload) .gossip) s

@[simp]
theorem node_tellCandidates (s : Session σ) (payload recipients : List Peer) :
    (s.tellCandidates payload recipients).node = s.node := by
  induction recipients generalizing s with
  | nil => rfl
  | cons p rest ih =>
      exact (ih (s.sendTransient p (.candidates payload) .gossip)).trans (node_sendTransient ..)

theorem keeps_tellCandidates (s : Session σ) {payload recipients : List Peer}
    (ho : ∀ p ∈ recipients, ∀ url, p.primaryUrl = some url → rule.opens url)
    (hs : ∀ linked delivered, rule.sends linked (.candidates payload) delivered) :
    s.Keeps rule (s.tellCandidates payload recipients) := by
  induction recipients generalizing s with
  | nil => exact .refl s
  | cons p rest ih =>
      have hfirst := @keeps_sendTransient _ _ _ s _ _ .gossip (ho p (by simp)) hs
      exact hfirst.trans (ih _ fun q hq => ho q (by simp [hq]))

/-- A round of gossip samples whom to tell of and whom to tell. -/
theorem gossip_eq (s : Session σ) :
    ∃ payload recipients ws,
      s.gossip = s.withWords ws ∨
        s.gossip = ((s.withWords ws).tellCandidates payload recipients).note
          (.gossip payload.length recipients.length) := by
  let settings := s.node.settings
  let payload := s.node.position.global.sample settings.payloadFraction [] s.words
  let recipients := s.node.position.global.sample settings.recipientFraction payload.1 payload.2
  refine ⟨payload.1, recipients.1, recipients.2, ?_⟩
  by_cases h : payload.1.isEmpty || recipients.1.isEmpty
  · exact Or.inl (if_pos h)
  · exact Or.inr (if_neg h)

/-- A round of gossip leaves the node as it is. -/
@[simp] theorem node_gossip (s : Session σ) : s.gossip.node = s.node := by
  obtain ⟨payload, recipients, ws, hgossip | hgossip⟩ := s.gossip_eq
  · rw [hgossip, node_withWords]
  · rw [hgossip, node_note, node_tellCandidates, node_withWords]

end Session

/-! ## What is prepared -/

/-- Whether an act only prepares what is to come: errands, and the root connector. -/
def Act.prepares : Act → Bool
  | start | stop | requestJoin _ | requestReroot | tick => true
  | event _ | leave _ | gossip | begin _ | advance | resume => false

namespace Session

variable {σ : Type} [Transport σ] {rule : Conduct} {a : Act}

/-- Such an act changes of a node only what it is to do, or is turned down. -/
theorem run_of_prepares (s : Session σ) (h : a.prepares = true) :
    (∃ errands connector connectors stopped,
      a.run s = s.withNode
        { s.node with
          errands := errands
          connector := connector
          connectors := connectors
          stopped := stopped }) ∨
      ∃ outcome, a.run s = s.finish outcome := by
  cases a with
  | start =>
      left
      simp only [Act.run, start]
      split
      · split <;> exact ⟨_, _, _, _, rfl⟩
      · exact ⟨_, _, _, _, rfl⟩
  | stop => exact Or.inl ⟨_, _, _, _, rfl⟩
  | requestJoin url =>
      simp only [Act.run, requestJoin]
      split
      · exact Or.inr ⟨_, rfl⟩
      · split
        · exact Or.inr ⟨_, rfl⟩
        · exact Or.inl ⟨_, _, _, _, rfl⟩
  | requestReroot => exact Or.inl ⟨_, _, _, _, rfl⟩
  | tick =>
      left
      simp only [Act.run, tick]
      split
      · exact ⟨_, _, _, _, rfl⟩
      · rename_i c _
        split
        · split
          · obtain ⟨connector, hc⟩ := Node.settleConnector_cases
              { s.node with connector := some { c with ticker := c.ticker.fire } }
              (some c.serial) .stop
            exact ⟨_, connector, _, _, congrArg s.withNode hc⟩
          · exact ⟨_, _, _, _, rfl⟩
        · exact ⟨_, _, _, _, rfl⟩
  | event _ | leave _ | gossip | begin _ | advance | resume => cases h

theorem node_of_prepares (s : Session σ) (h : a.prepares = true) :
    ∃ errands connector connectors stopped,
      (a.run s).node =
        { s.node with
          errands := errands
          connector := connector
          connectors := connectors
          stopped := stopped } := by
  rcases s.run_of_prepares h with ⟨_, _, _, _, hrun⟩ | ⟨outcome, hrun⟩ <;> rw [hrun]
  · exact ⟨_, _, _, _, rfl⟩
  · exact ⟨_, _, _, _, rfl⟩

theorem keeps_of_prepares (s : Session σ) (h : a.prepares = true) : s.Keeps rule (a.run s) := by
  rcases s.run_of_prepares h with ⟨_, _, _, _, hrun⟩ | ⟨outcome, hrun⟩ <;> rw [hrun]
  · exact keeps_withNode _ _
  · exact keeps_finish _ _

end Session

end BrokerForest
