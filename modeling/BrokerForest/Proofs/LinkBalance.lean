import BrokerForest.Proofs.LinkAccounts
import BrokerForest.Proofs.Parting
/-!
# The balance of links: one reference for each broker beside a node

A node holds one reference to the link to each broker beside it, and one more to whomever it
asks, from when it has opened the link until the negotiation is over; every other reference it
gives back in the act in which it took it.  Each act keeps this balance but for three: the node
welcomes a child whether or not its link could be opened, it takes a place beneath a father that
may be no broker, or one of its children, and it closes the link to the father that it leaves
though the father may be gone by then, and the link with it.

Main statements:

* `Node.links` — how many references a node is to hold;
* `Episode.Secures` — a child is reached by the link opened for it, a father is a broker that
  was not beside the node, and one that is left is still beside it;
* `Session.balances_run` — every act keeps the balance but for these;
* **`Life.links_balanced`** — so, in a life in which they are met, no more links are closed than
  opened, and the difference is the broker beside the node and the peer that it asks;
* `Life.exists_unbalanced` — without them a link is closed that was not opened, another remains
  open, and a third is closed twice.
-/

namespace BrokerForest

/-- How many references to the link to a peer a node is to hold: one while it is a broker beside
the node, and one while the node has the link open to ask it. -/
def Node.links (n : Node) (v : NodeId) : Nat := (n.position.has v).toNat + n.asks v

theorem Node.links_of_free {n : Node} {v : NodeId} (h : n.slot.holder = none) :
    n.links v = (n.position.has v).toNat := by
  rw [links, asks_of_free h, Nat.add_zero]

/-- As far as a peer is concerned, a link is taken to whoever is accepted as a child, if it is a
broker, and to nobody else; whoever becomes the father is a broker and was none beside the node;
and whoever is left as the father is a broker beside it still. -/
def Episode.Secures (v : NodeId) (e : Episode) : Prop :=
  match e.act with
  | .event (.message child (.request _)) =>
    e.before.position.neighbors.contains child = false →
      e.after.position.neighbors.contains child = true →
        e.seen.countP (Effect.takes v) = if child.broker = true ∧ child.id = v then 1 else 0
  | .resume =>
    ∀ father ∈ e.after.position.father, e.before.position.father = none → father.id = v →
      father.broker = true ∧ e.before.position.neighbors.isBroker father = false
  | .advance =>
    ∀ father, e.before.slot.holder = some (.leaving father) → father.id = v →
      e.before.position.neighbors.isBroker father = true
  | _ => True

/-- Whether the father that a node is to leave, if it is to leave one, is a broker beside it. -/
def Node.leavesBroker (n : Node) (v : NodeId) : Bool :=
  match n.slot.holder with
  | some (.leaving father) => decide (father.id ≠ v) || n.position.neighbors.isBroker father
  | _ => true

theorem Node.leavesBroker_iff {n : Node} {v : NodeId} :
    n.leavesBroker v = true ↔ ∀ father, n.slot.holder = some (.leaving father) → father.id = v →
      n.position.neighbors.isBroker father = true := by
  unfold leavesBroker
  split
  · rename_i father h
    simp [h, Classical.or_iff_not_imp_left]
  · rename_i h
    simp only [true_iff]
    exact fun father hfather => absurd hfather (h father)

instance (v : NodeId) (e : Episode) : Decidable (e.Secures v) := by
  unfold Episode.Secures
  split
  · infer_instance
  · infer_instance
  · exact decidable_of_iff _ Node.leavesBroker_iff
  · infer_instance

namespace Position

variable {p : Position} {peer : Peer} {v : NodeId}

/-- Whoever is parted from is no broker beside the node any more. -/
theorem has_parted (p : Position) (peer : Peer) (v : NodeId) :
    (p.parted peer).has v = (p.has v && decide (v ≠ peer.id)) := by
  unfold parted
  split
  · exact has_forget p peer v
  · exact has_forget p peer v

/-- A new neighbor is a broker beside the node if it is one. -/
theorem has_add_iff (p : Position) (q : Peer) (v : NodeId) :
    { p with neighbors := p.neighbors.add q }.has v =
      (p.has v || (q.broker && decide (v = q.id))) := by
  cases hbroker : q.broker with
  | true => simpa using has_add hbroker v
  | false => simp [has, Neighbors.add, hbroker]

/-- A new neighbor is a neighbor. -/
theorem contains_add_self (p : Position) (q : Peer) : (p.neighbors.add q).contains q = true := by
  rw [Neighbors.contains, Bool.or_eq_true]
  unfold Neighbors.add
  split
  · exact Or.inl (Neighbors.among_iff_mem.2 (Neighbors.mem_insert.2 (Or.inl rfl)))
  · exact Or.inr (Neighbors.among_iff_mem.2 (Neighbors.mem_insert.2 (Or.inl rfl)))

end Position

namespace Session

variable {σ : Type} {s t : Session σ} {v : NodeId} {c d : Nat}

/-- Between two sessions a node goes from the references that it is to hold to those that it is
to hold then. -/
def Balances (v : NodeId) (s t : Session σ) : Prop :=
  s.Accounts v (s.node.links v) (t.node.links v) t

theorem balances_of_accounts (h : s.Accounts v (s.node.links v) d t) (hd : d = t.node.links v) :
    s.Balances v t := by
  rwa [hd] at h

/-- Who opens and closes nothing keeps the balance if the brokers beside it and its slot stay
as they are. -/
theorem balances_of_frame (h : ∀ c, s.Accounts v c c t)
    (hbrokers : t.node.position.neighbors.brokers = s.node.position.neighbors.brokers)
    (hslot : t.node.slot = s.node.slot) : s.Balances v t :=
  balances_of_accounts (h _)
    (by simp [Node.links, Position.has, Node.asks, Node.negotiation?, hbrokers, hslot])

theorem balances_of_idles (h : s.Idles t)
    (hbrokers : t.node.position.neighbors.brokers = s.node.position.neighbors.brokers)
    (hslot : t.node.slot = s.node.slot) : s.Balances v t :=
  balances_of_frame (fun _ => h.accounts) hbrokers hslot

theorem balances_refl (s : Session σ) : s.Balances v s := accounts_refl s

variable [Transport σ]

/-! ## What a node experiences -/

/-- Parting from a peer keeps the balance. -/
theorem balances_depart (s : Session σ) (peer : Peer) :
    s.Balances v (s.depart peer) := by
  have haccounts := accounts_depart (v := v) (c := (s.depart peer).node.links v) s peer
  have hasks : (s.depart peer).node.asks v = s.node.asks v := by
    simp only [Node.asks, Node.negotiation?, (s.meanwhile_depart peer).2]
  have hheld : (s.depart peer).node.links v +
      (if s.node.position.neighbors.isBroker peer = true then peer.tally v else 0) =
        s.node.links v := by
    simp only [Node.links, hasks, position_depart, Position.has_parted, ← Position.has_id,
      Peer.tally]
    by_cases hid : peer.id = v
    · subst hid
      cases s.node.position.has peer.id <;> simp [Nat.add_comm]
    · simp [hid, Ne.symm hid]
  rw [hheld] at haccounts
  exact haccounts

/-- Accepting a child keeps the balance if a link was taken to it. -/
theorem balances_accept {child : Peer} {admission : Admission}
    (hstranger : s.node.position.neighbors.contains child = false)
    (hsecures : (s.accept child admission).node.position.neighbors.contains child = true →
      (s.since (s.accept child admission)).countP (Effect.takes v) =
        if child.broker = true ∧ child.id = v then 1 else 0) :
    s.Balances v (s.accept child admission) := by
  cases hsent : (s.send child (s.node.offer admission) .control).1 with
  | false =>
      rw [accept_of_not_sent hsent]
      exact balances_of_idles (idles_send _ _ _ _) rfl rfl
  | true =>
      have hnode : (s.accept child admission).node =
          { s.node with position := s.node.position.welcome child admission } := by
        rw [accept_of_sent hsent, node_welcome]
        rfl
      have htaken := hsecures (by rw [hnode]; exact Position.contains_add_self _ child)
      have haccepted := accounts_accept (v := v) (c := s.node.links v) s child admission
      rw [htaken] at haccepted
      refine balances_of_accounts haccepted ?_
      have hhas : (s.node.position.welcome child admission).has v =
          (s.node.position.has v || (child.broker && decide (v = child.id))) :=
        Position.has_add_iff s.node.position child v
      have hnew : s.node.position.has child.id = false := by
        rw [Position.has_id]
        exact (Bool.or_eq_false_iff.1 hstranger).1
      simp only [hnode, Node.links, hhas, Node.asks, Node.negotiation?]
      by_cases hchild : child.broker = true ∧ child.id = v
      · obtain ⟨hbroker, rfl⟩ := hchild
        simp [hbroker, hnew, Nat.add_comm]
      · have hother : (child.broker && decide (v = child.id)) = false := by
          rw [Bool.eq_false_iff, ne_eq, Bool.and_eq_true, decide_eq_true_eq]
          exact fun h => hchild ⟨h.1, h.2.symm⟩
        rw [if_neg hchild, hother, Bool.or_false, Nat.add_zero]

/-- Answering a request keeps the balance if a link was taken to a child that was accepted. -/
theorem balances_examine {requester : Peer} {request : Request}
    (hsecures : s.node.position.neighbors.contains requester = false →
      (s.examine requester request).node.position.neighbors.contains requester = true →
        (s.since (s.examine requester request)).countP (Effect.takes v) =
          if requester.broker = true ∧ requester.id = v then 1 else 0) :
    s.Balances v (s.examine requester request) := by
  rw [examine_eq] at hsecures ⊢
  generalize hjudge : s.node.judge requester request s.words = judged at hsecures ⊢
  obtain ⟨verdict, ws⟩ := judged
  have hwords : s.Idles (s.withWords ws) := idles_withWords s ws
  rcases verdict with _ | ⟨refusal, _ | _ | root⟩ | admission
  · exact balances_of_idles hwords rfl rfl
  · exact balances_of_idles (hwords.trans (idles_refuse _ _ _)) (by simp [pronounce])
      (by simp [pronounce])
  · exact balances_of_idles ((hwords.trans (idles_withPosition _ _)).trans (idles_refuse _ _ _))
      (by simp [pronounce]) (by simp [pronounce])
  · exact balances_of_frame (fun c => (hwords.trans (idles_refuse _ _ _)).accounts.trans
      (accounts_sendTransient _ _ _ _)) (by simp [pronounce]) (by simp [pronounce])
  · have hstranger : s.node.position.neighbors.contains requester = false :=
      (Node.admission_of_judge hjudge).1
    exact hwords.accounts.trans
      (balances_accept (s := s.withWords ws) hstranger (hsecures hstranger))

/-- What a node experiences keeps the balance, but for a child that it accepts. -/
theorem balances_onEvent (event : Event)
    (hsecures : ∀ requester request, event = .message requester (.request request) →
      s.node.position.neighbors.contains requester = false →
        (s.onEvent event).node.position.neighbors.contains requester = true →
          (s.since (s.onEvent event)).countP (Effect.takes v) =
            if requester.broker = true ∧ requester.id = v then 1 else 0) :
    s.Balances v (s.onEvent event) := by
  have hslot : (s.onEvent event).node.slot = s.node.slot := (s.meanwhile_event event).2
  cases event with
  | opened peer =>
      simp only [onEvent]
      split
      · exact balances_refl s
      · rename_i hclient
        refine balances_of_idles (idles_withPosition _ _) ?_ rfl
        simp [Neighbors.add, hclient]
  | closed peer | dead peer =>
      let cancelled := s.withNode { s.node with mailbox := s.node.mailbox.cancel peer }
      exact (idles_withNode s _).accounts.trans (balances_depart cancelled peer)
  | message origin message =>
      cases message with
      | request request => exact balances_examine (hsecures origin request rfl)
      | response response =>
          refine balances_of_frame (fun c => accounts_onResponse s origin response) ?_ hslot
          rcases s.node_onResponse origin response with ⟨mailbox, _, hnode⟩ | hnode
          · exact congrArg (fun n => n.position.neighbors.brokers) hnode
          · exact congrArg (fun n => n.position.neighbors.brokers) hnode
      | update news =>
          refine balances_of_idles (idles_onUpdate s origin news) ?_ hslot
          cases hfather : s.node.position.isFather origin with
          | true =>
              exact (congrArg (fun n => n.position.neighbors.brokers)
                (node_onUpdate_of_father hfather)).trans
                (congrArg Neighbors.brokers (Position.heed_frame ..).2.1)
          | false =>
              exact congrArg (fun t => t.node.position.neighbors.brokers)
                (onUpdate_of_not_father hfather)
      | siblingDead news | newSibling news =>
          simp only [onEvent, onMessage]
          split
          · exact balances_of_idles (idles_withPosition _ _) rfl rfl
          · exact balances_refl s
      | candidates peers => exact balances_of_idles (idles_withPosition _ _) rfl rfl
      | goodCandidate candidate =>
          refine balances_of_idles (idles_withPosition _ _) ?_ hslot
          change (s.node.position.onGoodCandidate s.node.self candidate).neighbors.brokers = _
          unfold Position.onGoodCandidate
          split <;> rfl
      | noLongerChild => exact balances_depart s origin

/-! ## Reconfigurations -/

omit [Transport σ] in
/-- Who opens and closes nothing and asks whom it asked keeps the balance if the brokers beside
it stay as they are. -/
theorem balances_of_asks (h : s.Idles t)
    (hbrokers : t.node.position.neighbors.brokers = s.node.position.neighbors.brokers)
    (hasks : t.node.asks v = s.node.asks v) : s.Balances v t :=
  balances_of_accounts h.accounts (by simp [Node.links, Position.has, hbrokers, hasks])

omit [Transport σ] in
theorem balances_search (hfree : s.node.slot.holder = none) (dead : Option Peer) (asRoot : Bool)
    (connector : Option Nat) : s.Balances v (s.search dead asRoot connector) := by
  have hidle := idles_search s dead asRoot connector
  rcases s.search_cases dead asRoot connector with
    ⟨-, outcome, hnode⟩ | ⟨-, -, search, -, -, hnode⟩
  · obtain ⟨c, hc⟩ := s.node.settleConnector_cases connector outcome
    rw [hc] at hnode
    exact balances_of_idles hidle (by rw [hnode]) (by rw [hnode])
  · refine balances_of_asks hidle (by rw [hnode]) ?_
    rw [hnode, Node.asks_of_free hfree]
    rfl

omit [Transport σ] in
theorem balances_join (hfree : s.node.slot.holder = none) (url : String) :
    s.Balances v (s.join url) := by
  have hidle := idles_join s url
  unfold join at hidle ⊢
  cases hfather : s.node.position.father <;>
    simp only [hfather] at hidle
  · exact balances_of_asks hidle rfl (Node.asks_of_free hfree v).symm
  · exact balances_of_idles hidle rfl rfl

/-- A node that tells its father that it leaves it keeps the balance. -/
theorem balances_reroot (hfree : s.node.slot.holder = none) : s.Balances v s.reroot := by
  have hidle := idles_reroot s
  unfold reroot at hidle ⊢
  cases hfather : s.node.position.father <;>
    · simp only [hfather] at hidle
      exact balances_of_asks hidle rfl (Node.asks_of_free hfree v).symm

theorem balances_begin (hfree : s.node.slot.holder = none) (errand : Errand) :
    s.Balances v (s.begin errand) := by
  cases errand with
  | repair dead => exact balances_search hfree _ _ _
  | connect connector => exact balances_search hfree _ _ _
  | join url => exact balances_join hfree url
  | reroot => exact balances_reroot hfree

omit [Transport σ] in
/-- Taking the next candidate keeps the balance. -/
theorem balances_draw {search : Search}
    (hsearching : s.node.slot.holder = some (.searching search)) :
    s.Balances v (s.draw search) := by
  have hbefore : s.node.asks v = 0 := Node.asks_of_holder hsearching v
  have hends : ∀ (u : Session σ) (search' : Search), u.node = s.node →
      (u.endSearch search' none).node.position.neighbors.brokers =
          s.node.position.neighbors.brokers ∧
        (u.endSearch search' none).node.asks v = 0 := by
    intro u search' hu
    obtain ⟨connector, hnode⟩ := u.node_endSearch search' none
    rw [hnode, hu]
    exact ⟨rfl, by dsimp only [Node.asks, Node.negotiation?]; split <;> rfl⟩
  refine balances_of_asks (idles_draw s search) ?_ ?_ <;>
    rcases s.draw_cases search with ⟨-, heq⟩ | ⟨-, ⟨-, heq⟩ | ⟨c, -, heq⟩⟩ <;> rw [heq]
  · exact (hends s search rfl).1
  · exact (hends _ _ (by simp)).1
  · simp
  · exact (hends s search rfl).2.trans hbefore.symm
  · exact (hends _ _ (by simp)).2.trans hbefore.symm
  · rw [hbefore, node_hold, Node.asks, Node.negotiation?]
    rcases c.holder_cases (search.mark (s.nextCandidate search).pools c) with
      ⟨-, hholder⟩ | ⟨url, -, hholder⟩ <;> rw [hholder] <;> rfl

/-- Whoever is to be asked, the reference to it is held from then on. -/
theorem balances_approach {attempt : Attempt}
    (hopening : s.node.slot.holder = some (.opening attempt)) :
    s.Balances v (s.approach attempt) := by
  have hasked := accounts_approach (v := v) (c := s.node.links v) s attempt
  refine balances_of_accounts hasked ?_
  have hbrokers : (s.approach attempt).node.position.neighbors.brokers =
      s.node.position.neighbors.brokers := by
    rcases s.approach_spec attempt with ⟨u, result, heq, hu, -⟩ | ⟨peer, result, -, -, hnode, -⟩
    · obtain ⟨global, connector, holder, hnode, -⟩ := u.settle_cases attempt.purpose result
      rw [heq, hnode, hu]
    · rw [hnode]
  simp only [Node.links, Position.has, hbrokers, Node.asks_of_holder hopening, Holder.negotiation?]
  rfl

/-- While the request is sent, or is not, the reference is held. -/
theorem balances_submit {negotiation : Negotiation} {request : Request}
    (hasking : s.node.slot.holder = some (.asking negotiation request)) :
    s.Balances v (s.submit negotiation request) := by
  obtain ⟨holder, hnode, hholder⟩ := s.submit_cases negotiation request
  refine balances_of_asks (idles_submit s negotiation request) (by rw [hnode]) ?_
  rw [Node.asks_of_holder hasking, hnode]
  rcases hholder with ⟨rfl, -⟩ | ⟨rfl, -⟩ <;> rfl

omit [Transport σ] in
/-- A negotiation that is over without a father: the reference that was held for it is given
back. -/
theorem balances_of_declined {negotiation : Negotiation} {u : Session σ} {purpose : Purpose}
    {result : NegotiationResult} (hnegotiation : s.node.negotiation? = some negotiation)
    (hu : u.node.position = s.node.position)
    (haccounts : ∀ c, s.Accounts v (c + negotiation.peer.tally v) c u) :
    s.Balances v (u.settle purpose result) := by
  obtain ⟨global, connector, holder, hnode, -⟩ := u.settle_cases purpose result
  have hasks : s.node.asks v = negotiation.peer.tally v := by rw [Node.asks, hnegotiation]; rfl
  have hhas : (u.settle purpose result).node.position.has v = s.node.position.has v := by
    rw [hnode, Position.has, Position.has, hu]
  unfold Balances
  rw [Node.links, Node.links, asks_settle, hhas, hasks]
  exact (haccounts _).trans (idles_settle _ _ _).accounts

theorem balances_retreat {negotiation : Negotiation}
    (hretreating : s.node.slot.holder = some (.retreating negotiation)) :
    s.Balances v (s.retreat negotiation) := by
  have hnegotiation : s.node.negotiation? = some negotiation := by
    rw [Node.negotiation?, hretreating]
    rfl
  rw [retreat_eq]
  exact balances_of_declined hnegotiation rfl fun _ =>
    (idles_withNode _ _).accounts.trans (accounts_closeLink _ negotiation.peer)

/-- A node that leaves its father keeps the balance if the father is a broker beside it still. -/
theorem balances_forsake {father : Peer}
    (hleaving : s.node.slot.holder = some (.leaving father))
    (hbeside : father.id = v → s.node.position.neighbors.isBroker father = true) :
    s.Balances v (s.forsake father) := by
  have hbefore : s.node.asks v = 0 := Node.asks_of_holder hleaving v
  have hafter : (s.forsake father).node.asks v = 0 := rfl
  have hhas : (s.forsake father).node.position.has v =
      (s.node.position.has v && decide (v ≠ father.id)) := s.node.position.has_forget father v
  have hclosed := accounts_forsake (v := v) (c := (s.forsake father).node.links v) s father
  refine balances_of_accounts ((?_ : s.Accounts v _ _ _)) rfl
  convert hclosed using 1
  rw [Node.links, Node.links, hbefore, hafter, hhas, Peer.tally]
  by_cases hid : father.id = v
  · subst hid
    have hhad : s.node.position.has father.id = true := by
      rw [Position.has_id]
      exact hbeside rfl
    simp [hhad]
  · simp [hid, Ne.symm hid]

/-- Founding a tree keeps the balance. -/
theorem balances_found {repair : Bool}
    (hfounding : s.node.slot.holder = some (.founding repair)) :
    s.Balances v (s.found repair) := by
  have hnode := s.node_found repair
  refine balances_of_asks (idles_found s repair) ?_ ?_
  · rw [hnode]
    dsimp only
    split <;> rfl
  · rw [Node.asks_of_holder hfounding, Node.asks_of_free (by rw [hnode]; rfl)]
    rfl

/-- Going on keeps the balance, but for a father that is left. -/
theorem balances_advance (s : Session σ)
    (hbeside : ∀ father, s.node.slot.holder = some (.leaving father) → father.id = v →
      s.node.position.neighbors.isBroker father = true) : s.Balances v s.advance := by
  match hholder : s.node.slot.holder with
  | none | some .outsider | some (.negotiating _) =>
      rw [advance_of_not_ready (by simp [Node.isReady, hholder, Holder.isReady])]
      exact balances_refl s
  | some (.searching search) =>
      rw [advance_of_searching hholder]
      exact balances_draw hholder
  | some (.opening attempt) =>
      rw [advance_of_opening hholder]
      exact balances_approach hholder
  | some (.asking negotiation request) =>
      rw [advance_of_asking hholder]
      exact balances_submit hholder
  | some (.retreating negotiation) =>
      rw [advance_of_retreating hholder]
      exact balances_retreat hholder
  | some (.leaving father) =>
      rw [advance_of_leaving hholder]
      exact balances_forsake hholder (hbeside father hholder)
  | some (.founding repair) =>
      rw [advance_of_founding hholder]
      exact balances_found hholder

/-- A node that attaches to the peer that it waited for keeps the balance if this is a broker
that was not beside it: the reference that it held while it waited is the one to its father. -/
theorem balances_accepted {negotiation : Negotiation} {response : Response}
    {acceptance : Acceptance} (hslot : s.node.slot.holder = some (.negotiating negotiation))
    (hcollect : s.node.mailbox.collect = .ok response)
    (haccepted : response.answer = .accepted acceptance)
    (hsecures : negotiation.peer.id = v → negotiation.peer.broker = true ∧
      s.node.position.neighbors.isBroker negotiation.peer = false) : s.Balances v s.resume := by
  obtain ⟨hposition, hfree⟩ := node_resume_of_accepted hslot hcollect haccepted
  obtain ⟨own, hplace⟩ := s.node.position.attach_eq s.node.self negotiation.peer response.rank
    acceptance s.words
  have hidle : s.Idles s.resume := by
    rw [resume_of_accepted hslot hcollect haccepted]
    exact ((idles_withNode _ _).trans (idles_attach _ _ _ _)).trans (idles_settle _ _ _)
  have hhas : s.resume.node.position.has v =
      (s.node.position.has v || (negotiation.peer.broker && decide (v = negotiation.peer.id))) := by
    rw [← Position.has_add_iff, hposition, hplace]
    rfl
  have hasked : s.node.asks v = negotiation.peer.tally v := Node.asks_of_holder hslot v
  refine balances_of_accounts hidle.accounts ?_
  rw [Node.links, hasked, Node.links_of_free (by rw [hfree]; rfl), hhas]
  by_cases hid : negotiation.peer.id = v
  · obtain ⟨hbroker, hstranger⟩ := hsecures hid
    rw [← Position.has_id, hid] at hstranger
    simp [hstranger, hbroker, hid, Peer.tally]
  · simp [hid, Ne.symm hid, Peer.tally]

/-- The end of a negotiation keeps the balance if a father that comes of it is a broker that was
not beside the node. -/
theorem balances_resume (hseeking : s.node.isSeeking = true → s.node.position.father = none)
    (hsecures : ∀ father ∈ s.resume.node.position.father, s.node.position.father = none →
      father.id = v →
        father.broker = true ∧ s.node.position.neighbors.isBroker father = false) :
    s.Balances v s.resume := by
  by_cases hn : ∃ negotiation, s.node.slot.holder = some (.negotiating negotiation)
  · obtain ⟨negotiation, hslot⟩ := hn
    rcases s.conclude_cases negotiation.peer with
      ⟨response, acceptance, hcollect, haccepted, -⟩ | ⟨result, hconclude, hother⟩
    · have hfather : s.resume.node.position.father = some negotiation.peer := by
        obtain ⟨own, hplace⟩ := s.node.position.attach_eq s.node.self negotiation.peer
          response.rank acceptance s.words
        rw [(node_resume_of_accepted hslot hcollect haccepted).1, hplace]
      have hroot := hseeking (Node.isSeeking_of_holder hslot rfl)
      exact balances_accepted hslot hcollect haccepted (hsecures negotiation.peer hfather hroot)
    · have hnegotiation : s.node.negotiation? = some negotiation := by
        rw [Node.negotiation?, hslot]
        rfl
      rw [resume_of_negotiating hslot, hconclude]
      exact balances_of_declined hnegotiation rfl fun _ =>
        (idles_withNode _ _).accounts.trans (accounts_closeLink _ negotiation.peer)
  · rw [resume_of_not_negotiating (by simpa using hn)]
    exact balances_refl s

/-- Preparing something. -/
theorem balances_of_prepares {a : Act} (s : Session σ) (h : a.prepares = true) :
    s.Balances v (a.run s) := by
  rcases s.run_of_prepares h with ⟨_, _, _, _, hrun⟩ | ⟨outcome, hrun⟩ <;> rw [hrun]
  · exact balances_of_idles (idles_withNode _ _) rfl rfl
  · exact balances_of_idles (idles_finish _ _) rfl rfl

/-- **Every act keeps the balance of a node** that secures what it has to. -/
theorem balances_run {a : Act} (hfresh : s.trace = []) (possible : a.Possible s.node)
    (hseeking : s.node.isSeeking = true → s.node.position.father = none)
    (hsecures : (s.episode a).Secures v) : s.Balances v (a.run s) := by
  cases a with
  | event event =>
      refine balances_onEvent event ?_
      rintro requester request rfl
      have hseen (t : Session σ) : s.since t = t.trace := by simp [since, hfresh]
      rw [hseen]
      exact hsecures
  | leave peer =>
      simp only [Act.run, leave_eq]
      split
      · let told := s.tell peer .noLongerChild
        exact (idles_send s peer .noLongerChild .control).accounts.trans
          (balances_depart told peer)
      · exact balances_refl s
  | gossip =>
      exact balances_of_frame (fun _ => accounts_gossip s) (congrArg
        (fun n => n.position.neighbors.brokers) s.node_gossip) (congrArg Node.slot s.node_gossip)
  | begin errand =>
      let begun := s.withNode { s.node with errands := s.node.errands.erase errand }
      have hholder : s.node.slot.holder = none := by simpa [Slot.isBusy] using possible.2
      exact (idles_withNode s _).accounts.trans (balances_begin (s := begun) hholder errand)
  | advance => exact balances_advance s hsecures
  | resume => exact balances_resume hseeking hsecures
  | start | stop | requestJoin _ | requestReroot | tick => exact balances_of_prepares s rfl

end Session

/-! ## All that can happen to a node -/

section

variable {history : List Episode} {n : Node} {v : NodeId} {p : Peer}

/-- The ledger on a peer, kept from the start of a life on, leads to what the node is to hold. -/
theorem Life.account (life : Life (Episode.Secures v) history n) :
    (history.flatMap Episode.seen).foldlM (Effect.account v) 0 = some (n.links v) := by
  induction life with
  | birth => rfl
  | @act history n a σ _ life outside ws possible meets ih =>
      obtain ⟨later, htrace, haccount⟩ := Session.balances_run (s := ⟨n, outside, ws, []⟩) rfl
        possible life.father_of_seeking meets
      rw [List.flatMap_append, List.foldlM_append, ih, List.flatMap_singleton]
      change List.foldlM (Effect.account v) _ (a.run ⟨n, outside, ws, []⟩).trace = _
      rw [htrace]
      exact haccount

/-- **In a life in which a link is taken to a peer when it is accepted as a child, a father is a
broker that was not beside the node, and one that is left is beside it still**, the links to the
peer were at no time closed more often than opened.  The difference is one while it is a broker
beside the node, and one more while the node has the link open to ask it; with nothing in progress
it is the broker alone. -/
theorem Life.links_balanced (life : Life (Episode.Secures p.id) history n) :
    (∀ first, first <+: history.flatMap Episode.seen →
        first.countP (Effect.releases p.id) ≤ first.countP (Effect.takes p.id)) ∧
      (history.flatMap Episode.seen).countP (Effect.takes p.id) =
        (history.flatMap Episode.seen).countP (Effect.releases p.id) + n.links p.id ∧
      (n.slot.holder = none →
        (history.flatMap Episode.seen).countP (Effect.takes p.id) =
          (history.flatMap Episode.seen).countP (Effect.releases p.id) +
            if n.position.neighbors.isBroker p = true then 1 else 0) := by
  have haccount := life.account
  have hbalance := Effect.balance_of_account haccount
  rw [Nat.zero_add, Nat.add_comm] at hbalance
  refine ⟨fun first hfirst => Effect.releases_le_of_account haccount hfirst, hbalance, ?_⟩
  intro hfree
  have hlinks : n.links p.id = if n.position.neighbors.isBroker p = true then 1 else 0 := by
    rw [← Position.has_id, Node.links_of_free hfree]
    cases n.position.has p.id <;> rfl
  rw [hbalance, hlinks]

end

namespace Rehearsal

/-- A broker accepts a child that goes again, and joins a tree: it holds one reference to the
link to its father, and none to the link to the child. -/
theorem links_balanced_of_mother :
    let acts : List Act :=
      .event (.message (broker 3 "z") (.request ⟨⟨.colorless, ⟨100.0⟩⟩, .none⟩)) ::
        courtship ++ [.resume, .event (.closed (broker 3 "z"))]
    let history := newborn.story trio still acts
    let n := newborn.grown trio still acts
    Life (Episode.Secures (broker 2 "y").id) history n ∧ n.slot.holder = none ∧
      n.position.neighbors.isBroker (broker 2 "y") = true ∧
        ((∀ first, first <+: history.flatMap Episode.seen →
            first.countP (Effect.releases (broker 2 "y").id) ≤
              first.countP (Effect.takes (broker 2 "y").id)) ∧
          (history.flatMap Episode.seen).countP (Effect.takes (broker 2 "y").id) =
            (history.flatMap Episode.seen).countP (Effect.releases (broker 2 "y").id) +
              n.links (broker 2 "y").id ∧
          (n.slot.holder = none →
            (history.flatMap Episode.seen).countP (Effect.takes (broker 2 "y").id) =
              (history.flatMap Episode.seen).countP (Effect.releases (broker 2 "y").id) +
                if n.position.neighbors.isBroker (broker 2 "y") = true then 1 else 0)) := by
  intro acts history n
  have hpossible : ∀ e ∈ newborn.story trio still acts,
      e.act.Possible e.before ∧ e.Secures (broker 2 "y").id := by decide +kernel
  have life : Life (Episode.Secures (broker 2 "y").id) history n :=
    (Life.birth .standard (broker 1 "x") still).story trio still hpossible
  exact ⟨life, by decide +kernel, by decide +kernel, life.links_balanced⟩

end Rehearsal

/-- The link to a child that has no URL is closed and was never opened; the link to a father that
was accepted as a child while it was asked remains open when it is gone; and the link to a father
that dies while the node leaves it is opened once and closed twice. -/
theorem Life.exists_unbalanced :
    (∃ history n, ∃ p : Peer, Life (fun _ => True) history n ∧ n.slot.holder = none ∧
        (history.flatMap Episode.seen).countP (Effect.takes p.id) <
          (history.flatMap Episode.seen).countP (Effect.releases p.id)) ∧
      (∃ history n, ∃ p : Peer, Life (fun _ => True) history n ∧ n.slot.holder = none ∧
        n.position.neighbors.isBroker p = false ∧
        (history.flatMap Episode.seen).countP (Effect.releases p.id) <
          (history.flatMap Episode.seen).countP (Effect.takes p.id)) ∧
      ∃ history n, ∃ p : Peer, Life (fun _ => True) history n ∧ n.slot.holder = none ∧
        (history.flatMap Episode.seen).countP (Effect.takes p.id) = 1 ∧
          (history.flatMap Episode.seen).countP (Effect.releases p.id) = 2 := by
  have birth : Life (fun _ => True) [] Rehearsal.newborn :=
    .birth .standard (Rehearsal.broker 1 "x") Rehearsal.still
  have hlived : ∀ acts : List Act,
      (∀ e ∈ Rehearsal.newborn.story Rehearsal.trio Rehearsal.still acts,
        e.act.Possible e.before ∧ True) →
      Life (fun _ => True) (Rehearsal.newborn.story Rehearsal.trio Rehearsal.still acts)
        (Rehearsal.newborn.grown Rehearsal.trio Rehearsal.still acts) := by
    intro acts h
    exact birth.story Rehearsal.trio Rehearsal.still h
  refine ⟨?_, ?_, ?_⟩
  · let silent : Peer := { Rehearsal.broker 2 "y" with urls := [] }
    let acts : List Act :=
      [.event (.message silent (.request ⟨⟨.colorless, ⟨100.0⟩⟩, .none⟩)),
        .event (.closed silent)]
    exact ⟨_, _, silent, hlived acts (by decide +kernel), by decide +kernel, by decide +kernel⟩
  · let wooed := Rehearsal.broker 2 "y"
    let rank : Rank := ⟨⟨["a"]⟩, ⟨1.0⟩⟩
    let acts : List Act :=
      [.start, .requestJoin "y", .begin (.join "y"), .advance, .advance,
        .event (.message wooed (.request ⟨rank, .none⟩)),
        .event (.message wooed (.response ⟨rank, .accepted ⟨[], []⟩⟩)), .resume,
        .event (.closed wooed)]
    exact ⟨_, _, wooed, hlived acts (by decide +kernel), by decide +kernel, by decide +kernel,
      by decide +kernel⟩
  · let acts : List Act := Rehearsal.courtship ++
      [.resume, .requestReroot, .begin .reroot, .event (.dead (Rehearsal.broker 2 "y")), .advance,
        .advance]
    exact ⟨_, _, Rehearsal.broker 2 "y", hlived acts (by decide +kernel), by decide +kernel,
      by decide +kernel, by decide +kernel⟩

end BrokerForest
