import BrokerForest.Proofs.SearchSteps
/-!
# Whom a node can know of

A node knows of others by what it is told and by whom its links lead to.  So if everyone in
the world is of some sort, and every message names such peers only, then so does everything
that a node remembers, and every message that it sends itself.

Main statements:

* `Message.named` — everyone that a message names;
* `Node.Knows` — everyone that a node remembers is of some sort;
* `Conduct.vouching` — the rule to name such peers only;
* `Session.Vouches` — a piece of work keeps to it, and to knowing such peers only;
* **`Session.vouches_run`** — every act is such a piece.
-/

namespace BrokerForest

/-! ## Whom messages name -/

/-- Everyone that an answer names. -/
def Response.named (r : Response) : List Peer :=
  match r.answer with
  | .accepted acceptance => acceptance.upstream ++ acceptance.siblings
  | .refused refusal => refusal.named

/-- Everyone that a message names, but for a peer that is gone. -/
def Message.named : Message → List Peer
  | .request _ | .noLongerChild => []
  | .response answer => answer.named
  | .siblingDead news => news.candidates
  | .update news => news.upstream
  | .newSibling news => news.sibling :: (news.upstream ++ news.siblings ++ news.candidates)
  | .candidates peers => peers
  | .goodCandidate peer => [peer]

/-- The rule to name certain peers only. -/
def Conduct.vouching (P : Peer → Prop) : Conduct where
  opens _ := True
  sends _ message _ := ∀ p ∈ message.named, P p

variable {P : Peer → Prop}

/-! ## Whom nodes remember -/

/-- Everyone that a node knows of by its place is of some sort. -/
structure Position.Knows (P : Peer → Prop) (p : Position) : Prop where
  father : ∀ q, p.father = some q → P q
  brokers : ∀ q ∈ p.neighbors.brokers, P q
  regional : p.regional.All P
  global : p.global.All P

namespace Neighbors

theorem brokers_insert {p : Peer} {peers : List Peer} (h : ∀ q ∈ peers, P q) (hp : P p) :
    ∀ q ∈ insert p peers, P q := by
  induction peers with
  | nil => simpa [insert] using hp
  | cons r rest ih =>
      have hrest := ih fun q hq => h q (by simp [hq])
      have hr : P r := h r (by simp)
      unfold insert
      split
      · exact h
      · split <;> grind

theorem brokers_add {n : Neighbors} {p : Peer} (h : ∀ q ∈ n.brokers, P q) (hp : P p) :
    ∀ q ∈ (n.add p).brokers, P q := by
  unfold add
  split
  · exact brokers_insert h hp
  · exact h

theorem brokers_remove {n : Neighbors} (p : Peer) (h : ∀ q ∈ n.brokers, P q) :
    ∀ q ∈ (n.remove p).brokers, P q := by
  unfold remove
  split
  · exact fun q hq => h q (List.mem_of_mem_eraseP hq)
  · exact h

end Neighbors

namespace Position

variable {p : Position} {self q : Peer} {ws : Words}

theorem Knows.children (h : p.Knows P) : ∀ q ∈ p.children, P q :=
  fun q hq => h.brokers q (List.mem_filter.1 hq).1

theorem Knows.chain (h : p.Knows P) (most : Nat) : ∀ q ∈ p.chainForChildren most, P q := by
  intro q hq
  rcases List.mem_append.1 (List.mem_of_mem_take hq) with hq | hq
  · exact h.father q (by simpa using hq)
  · exact h.regional.1 q (List.mem_reverse.1 hq)

theorem Knows.localRoot (h : p.Knows P) (hself : P self) : P (p.localRoot self) := by
  unfold Position.localRoot
  cases hlast : p.regional.upstreamChain.getLast? with
  | some root => exact h.regional.1 root (List.mem_reverse.1 (List.mem_of_getLast? hlast))
  | none =>
      cases hfather : p.father with
      | none => exact hself
      | some father => exact h.father father hfather

theorem Knows.hear (h : p.Knows P) {candidates : List Peer} (hnamed : ∀ q ∈ candidates, P q)
    (excluded : Peer → Bool) : (p.hear self candidates excluded).Knows P :=
  { h with global := Global.all_merge h.global hnamed }

theorem Knows.settle (h : p.Knows P) (rank : Rank) (ws : Words) :
    (p.settle rank ws).2.1.Knows P := by
  obtain ⟨hfather, -, hneighbors, hregional, hglobal⟩ := p.settle_frame rank ws
  constructor
  · rw [hfather]; exact h.father
  · rw [hneighbors]; exact h.brokers
  · rw [hregional]; exact h.regional
  · rw [hglobal]; exact h.global

theorem Knows.attach (h : p.Knows P) (self : Peer) {acceptance : Acceptance} (hq : P q)
    (hnamed : ∀ r ∈ acceptance.upstream ++ acceptance.siblings, P r) (rank : Rank) (ws : Words) :
    (p.attach self q rank acceptance ws).1.Knows P := by
  have hplace : ({ p with
      father := some q
      neighbors := p.neighbors.add q
      global := p.global.remove q } : Position).Knows P :=
    ⟨fun r hr => by cases hr; exact hq, Neighbors.brokers_add h.brokers hq, h.regional,
      Global.all_remove q h.global⟩
  have hsettled := hplace.settle rank ws
  refine { hsettled with regional := ?_ }
  refine Regional.all_setSiblings (Regional.all_setUpstream hsettled.regional fun r hr => ?_)
    fun r hr => ?_
  · exact hnamed r (by simp [hr])
  · exact hnamed r (by simp [(List.mem_filter.1 hr).1])

theorem Knows.newTree (h : p.Knows P) : (p.newTree self ws).1.Knows P where
  father := by simp [Position.newTree]
  brokers := h.brokers
  regional := Regional.all_clear _
  global := by
    refine Global.all_merge h.global fun r hr => ?_
    rcases List.mem_append.1 hr with hr | hr
    · exact h.regional.1 r (List.mem_reverse.1 hr)
    · exact h.regional.2 r hr

theorem Knows.forget (h : p.Knows P) (q : Peer) : (p.forget q).Knows P :=
  { h with brokers := Neighbors.brokers_remove q h.brokers }

theorem Knows.orphan (h : p.Knows P) : p.orphan.Knows P :=
  { h with father := by simp [Position.orphan] }

theorem Knows.welcome (h : p.Knows P) {child : Peer} (hchild : P child) (admission : Admission) :
    (p.welcome child admission).Knows P :=
  { h with brokers := Neighbors.brokers_add h.brokers hchild }

end Position

/-- Everyone that the search of a negotiation knows of is of some sort. -/
def Purpose.Knows (P : Peer → Prop) (purpose : Purpose) : Prop :=
  ∀ search, purpose.search? = some search → search.pools.All P

/-- Whom a search is to ask is of some sort too, and not the father that it is to replace. -/
def Attempt.Knows (P : Peer → Prop) (attempt : Attempt) : Prop :=
  attempt.purpose.Knows P ∧ ∀ search, attempt.purpose.search? = some search →
    ∃ p, P p ∧ p.primaryUrl = some attempt.url ∧ p.isThe search.dead = false

/-- Everyone that a holder of a slot knows of is of some sort. -/
def Holder.Knows (P : Peer → Prop) : Holder → Prop
  | .outsider | .founding _ => True
  | .searching search => search.pools.All P
  | .opening attempt => attempt.Knows P
  | .asking negotiation _ | .negotiating negotiation | .retreating negotiation =>
    P negotiation.peer ∧ negotiation.purpose.Knows P
  | .leaving father => P father

/-- A candidate that a search may take is of some sort if all that it knows of are. -/
theorem Candidate.knows_holder {c : Candidate} {search : Search} (hsearch : search.pools.All P)
    (hpeer : P c.peer) (hdead : c.peer.isThe search.dead = false) :
    (c.holder search).Knows P := by
  rcases c.holder_cases search with ⟨-, heq⟩ | ⟨url, hurl, heq⟩ <;> rw [heq]
  · exact hsearch
  · refine ⟨fun search' hsame => ?_, fun search' hsame => ?_⟩ <;>
      obtain rfl : search = search' := Option.some.inj hsame
    · exact hsearch
    · exact ⟨c.peer, hpeer, hurl, hdead⟩

/-- Everyone that a node knows of is of some sort. -/
structure Node.Knows (P : Peer → Prop) (n : Node) : Prop where
  self : P n.self
  position : n.position.Knows P
  holder : ∀ holder, n.slot.holder = some holder → holder.Knows P
  delivered : ∀ response, n.mailbox.delivered = some response → ∀ p ∈ response.named, P p

/-- Everyone that a node's refusal names the node knows of. -/
theorem Node.Knows.refusal {n : Node} (h : n.Knows P) {requester : Peer} {request : Request}
    {ws ws' : Words} {refusal : Refusal} {tip : Tip}
    (hjudge : n.judge requester request ws = (.refuse refusal tip, ws')) :
    ∀ p ∈ refusal.named, P p := by
  have hroot := h.position.localRoot h.self
  have hchain := h.position.chain n.settings.upstreamMax
  have hchildren := h.position.children
  unfold Node.judge at hjudge
  split at hjudge
  · cases hjudge
  · split at hjudge
    · unfold Node.refuseRank at hjudge
      dsimp only at hjudge
      split at hjudge <;> cases hjudge
      · simp [Refusal.named]
      · split
        · simp [Refusal.named]
        · simpa [Refusal.named] using hroot
    · split at hjudge
      · rename_i hdegree
        cases hjudge
        unfold Node.refuseDegree at hdegree
        dsimp only at hdegree
        split at hdegree
        · cases hdegree
          simp [Refusal.named]
        · split at hdegree
          · cases hdegree
            exact hchildren
          · split at hdegree <;> cases hdegree
            exact hchain
      · cases hjudge

/-- Whoever a node can find at the end of a link is of some sort. -/
def Finds {σ : Type} [Transport σ] (P : Peer → Prop) (world : σ) : Prop :=
  ∀ s : Session σ, s.outside = world → ∀ url peer, (s.openLink url).1 = .ok peer → P peer

/-- A piece of work leaves a node that knows and names peers of some sort only. -/
structure Session.Vouches {σ : Type} [Transport σ] (P : Peer → Prop) (s t : Session σ) : Prop where
  node : t.node.Knows P
  keeps : s.Keeps (.vouching P) t

namespace Session

variable {σ : Type} [Transport σ] {s t u : Session σ}

theorem Vouches.trans (hst : s.Vouches P t) (htu : t.Vouches P u) : s.Vouches P u :=
  ⟨htu.node, hst.keeps.trans htu.keeps⟩

/-- Work that leaves the slot and the mailbox alone. -/
theorem vouches_of_place (h : s.node.Knows P) (hself : t.node.self = s.node.self)
    (hslot : t.node.slot = s.node.slot) (hmailbox : t.node.mailbox = s.node.mailbox)
    (hposition : t.node.position.Knows P) (hkeeps : s.Keeps (.vouching P) t) :
    s.Vouches P t :=
  ⟨⟨hself ▸ h.self, hposition, hslot ▸ h.holder, hmailbox ▸ h.delivered⟩, hkeeps⟩

/-! ## What a node experiences -/

theorem vouches_depart (h : s.node.Knows P) (peer : Peer) : s.Vouches P (s.depart peer) := by
  have hkeeps : s.Keeps (.vouching P) (s.depart peer) :=
    keeps_depart s fun _ _ => h.position.global.1
  rcases depart_cases s peer with hnode | hnode
  · refine vouches_of_place h ?_ ?_ ?_ ?_ hkeeps <;> rw [hnode]
    exact h.position.forget peer
  · refine vouches_of_place h ?_ ?_ ?_ ?_ hkeeps <;> rw [hnode]
    exact (h.position.forget peer).orphan

theorem vouches_leave (h : s.node.Knows P) (peer : Peer) : s.Vouches P (s.leave peer) := by
  rw [leave_eq]
  split
  · have htold : s.Vouches P (s.tell peer .noLongerChild) :=
      vouches_of_place h rfl rfl rfl h.position (keeps_tell s fun _ => by
        simp [Conduct.vouching, Message.named])
    exact htold.trans (vouches_depart htold.node peer)
  · exact ⟨h, .refl s⟩

/-- A child is accepted. -/
theorem vouches_accept (h : s.node.Knows P) {child : Peer} (hchild : P child)
    (admission : Admission) : s.Vouches P (s.accept child admission) := by
  have hchain := h.position.chain s.node.settings.upstreamMax
  have hchildren := h.position.children
  have hoffer : ∀ p ∈ (s.node.offer admission).named, P p := by
    intro p hp
    rcases List.mem_append.1 hp with hp | hp
    · exact hchain p hp
    · exact hchildren p hp
  have hsend : s.Keeps (.vouching P) (s.send child (s.node.offer admission) .control).2 :=
    keeps_send s hoffer
  cases hsent : (s.send child (s.node.offer admission) .control).1 with
  | false =>
      rw [accept_of_not_sent hsent]
      exact vouches_of_place h rfl rfl rfl h.position hsend
  | true =>
      rw [accept_of_sent hsent]
      refine vouches_of_place h (by simp) (by simp) (by simp) ?_ (hsend.trans (keeps_welcome _
        (fun _ _ => trivial) (fun _ _ _ p hp => ?_) fun _ _ _ _ => hchain))
      · rw [node_welcome]
        exact h.position.welcome hchild admission
      · simp only [Message.named, List.mem_cons, List.mem_append] at hp
        rcases hp with rfl | (hp | hp) | hp
        · exact hchild
        · exact hchain p hp
        · exact hchildren p hp
        · exact h.position.global.1 p hp

/-- A request is answered. -/
theorem vouches_examine (h : s.node.Knows P) {requester : Peer} (hrequester : P requester)
    (request : Request) : s.Vouches P (s.examine requester request) := by
  rw [examine_eq]
  generalize hjudge : s.node.judge requester request s.words = judged
  obtain ⟨verdict, ws⟩ := judged
  have hstart : s.Vouches P (s.withWords ws) := ⟨h, keeps_withWords s ws⟩
  have hrefuse : ∀ {t : Session σ} {refusal : Refusal}, t.node.Knows P →
      (∀ p ∈ refusal.named, P p) → t.Vouches P (t.refuse requester refusal) :=
    fun ht hnamed => ⟨by rw [node_refuse]; exact ht, keeps_refuse _ fun _ => hnamed⟩
  rcases verdict with _ | ⟨refusal, _ | _ | root⟩ | admission
  · exact hstart
  · exact hstart.trans (hrefuse h (h.refusal hjudge))
  · have hkept : s.Vouches P ((s.withWords ws).withPosition { s.node.position with
        global := s.node.position.global.setHint requester }) :=
      vouches_of_place h rfl rfl rfl
        { h.position with global := Global.all_setHint h.position.global hrequester }
        ((keeps_withWords s ws).trans (keeps_withPosition _ _))
    exact hkept.trans (hrefuse hkept.node (h.refusal hjudge))
  · have hrefused := hstart.trans (hrefuse h (h.refusal hjudge))
    refine ⟨by simpa [pronounce] using h, hrefused.keeps.trans (keeps_sendTransient _
      (fun _ _ => trivial) fun _ _ => ?_)⟩
    simpa [Conduct.vouching, Message.named] using hrequester
  · exact hstart.trans (vouches_accept (s := s.withWords ws) h hrequester admission)

/-- A response is delivered, or turned down. -/
theorem vouches_onResponse (h : s.node.Knows P) {origin : Peer} {response : Response}
    (hnamed : ∀ p ∈ response.named, P p) : s.Vouches P (s.onResponse origin response) := by
  have hkeeps : s.Keeps (.vouching P) (s.onResponse origin response) :=
    keeps_onResponse s (fun _ _ => trivial) fun _ _ => by simp [Conduct.vouching, Message.named]
  rcases s.node_onResponse origin response with ⟨mailbox, hdelivered, hnode⟩ | hnode
  · refine ⟨?_, hkeeps⟩
    rw [hnode]
    refine { h with delivered := fun response' hresponse' => ?_ }
    rcases (Mailbox.deliver_eq_ok hdelivered).2.2 response' hresponse' with hold | rfl
    · exact h.delivered response' hold
    · exact hnamed
  · exact ⟨hnode ▸ h, hkeeps⟩

/-- The father tells of its rank and its chain. -/
theorem vouches_onUpdate (h : s.node.Knows P) {origin : Peer} {news : Update}
    (hnamed : ∀ p ∈ news.upstream, P p) : s.Vouches P (s.onUpdate origin news) := by
  cases hf : s.node.position.isFather origin with
  | false =>
      rw [onUpdate_of_not_father hf]
      exact ⟨h, .refl s⟩
  | true =>
      have hplace : (s.node.position.heed news s.words).2.1.Knows P :=
        Position.Knows.settle (p := { s.node.position with
          regional := s.node.position.regional.setUpstream news.upstream })
          { h.position with regional := Regional.all_setUpstream h.position.regional hnamed } _ _
      have hnode : (s.onUpdate origin news).node = _ := node_onUpdate_of_father hf
      refine vouches_of_place h (by rw [hnode]) (by rw [hnode]) (by rw [hnode])
        (by rw [hnode]; exact hplace) (keeps_onUpdate s fun _ _ => ?_)
      rw [hnode]
      exact hplace.chain _

/-- Anything is experienced. -/
theorem vouches_onEvent (h : s.node.Knows P) {e : Event} (hsource : P e.source)
    (hnamed : ∀ origin message, e = .message origin message → ∀ p ∈ message.named, P p) :
    s.Vouches P (s.onEvent e) := by
  have hplace : ∀ p : Position, p.Knows P → s.Vouches P (s.withPosition p) := fun p hp =>
    vouches_of_place h rfl rfl rfl hp (keeps_withPosition s p)
  have hgone : ∀ peer, s.Vouches P
      ((s.withNode { s.node with mailbox := s.node.mailbox.cancel peer }).depart peer) := by
    intro peer
    have hcancel : ({ s.node with mailbox := s.node.mailbox.cancel peer } : Node).Knows P := by
      refine { h with delivered := ?_ }
      rw [(s.node.mailbox.cancel_frame peer).2]
      exact h.delivered
    have hstart : s.Vouches P
        (s.withNode { s.node with mailbox := s.node.mailbox.cancel peer }) :=
      ⟨hcancel, keeps_withNode _ _⟩
    exact hstart.trans (vouches_depart hcancel peer)
  cases e with
  | opened peer =>
      simp only [onEvent]
      split
      · exact ⟨h, .refl s⟩
      · exact hplace _ { h.position with
          brokers := Neighbors.brokers_add h.position.brokers hsource }
  | closed peer => exact hgone peer
  | dead peer => exact hgone peer
  | message origin message =>
      have hnamed := hnamed origin message rfl
      cases message with
      | request request => exact vouches_examine h hsource request
      | response response => exact vouches_onResponse h hnamed
      | siblingDead news =>
          simp only [onEvent, onMessage]
          split
          · refine hplace _ (Position.Knows.hear (p := { s.node.position with
              regional := s.node.position.regional.removeSibling news.dead
              fatherDepth := some news.rank.depth }) ?_ hnamed _)
            exact { h.position with regional := Regional.all_removeSibling _ h.position.regional }
          · exact ⟨h, .refl s⟩
      | update news => exact vouches_onUpdate h hnamed
      | newSibling news =>
          simp only [Message.named, List.mem_cons, List.mem_append] at hnamed
          simp only [onEvent, onMessage]
          split
          · refine hplace _ (Position.Knows.hear (p := { s.node.position with
              fatherDepth := some news.rank.depth
              regional := (s.node.position.regional.setUpstream news.upstream).addSiblings
                ((news.siblings ++ [news.sibling]).filter fun sibling =>
                  !sibling.same s.node.self) }) ?_ (fun p hp => hnamed p (by simp [hp])) _)
            refine { h.position with
              regional := Regional.all_addSiblings (Regional.all_setUpstream h.position.regional
                fun p hp => hnamed p (by simp [hp])) fun p hp => hnamed p ?_ }
            have hp := (List.mem_filter.1 hp).1
            grind
          · exact ⟨h, .refl s⟩
      | candidates peers => exact hplace _ (h.position.hear hnamed _)
      | goodCandidate peer =>
          refine hplace _ ?_
          unfold Position.onGoodCandidate
          split
          · exact h.position
          · exact { h.position with
              global :=
                Global.all_setHint h.position.global (hnamed peer (by simp [Message.named])) }
      | noLongerChild => exact vouches_depart h origin

/-! ## Reconfigurations -/

/-- The slot is held by someone who knows of such peers only. -/
theorem Vouches.hold (h : s.Vouches P t) {holder : Holder} (hholder : holder.Knows P) :
    s.Vouches P (t.hold holder) where
  node := { h.node with holder := fun holder' hholder' => by cases hholder'; exact hholder }
  keeps := h.keeps.trans (keeps_withNode _ _)

theorem Vouches.release (h : s.Vouches P t) : s.Vouches P t.release where
  node := { h.node with holder := by simp [Slot.free] }
  keeps := h.keeps.trans (keeps_withNode _ _)

theorem Vouches.finish (h : s.Vouches P t) (outcome : Outcome) : s.Vouches P (t.finish outcome) :=
  ⟨h.node, h.keeps.trans (keeps_finish t outcome)⟩

/-- Something becomes of the errands and of the root connector. -/
theorem Vouches.withNode (h : s.Vouches P t) {n : Node} (hself : n.self = t.node.self)
    (hposition : n.position = t.node.position) (hslot : n.slot = t.node.slot)
    (hmailbox : n.mailbox = t.node.mailbox) : s.Vouches P (t.withNode n) :=
  h.trans (vouches_of_place h.node hself hslot hmailbox (hposition ▸ h.node.position)
    (keeps_withNode t n))

/-- A hint is remembered. -/
theorem vouches_add (h : s.node.Knows P) {hint : Peer} (hhint : P hint) :
    s.Vouches P (s.withPosition { s.node.position with
      global := s.node.position.global.add hint }) :=
  vouches_of_place h rfl rfl rfl
    { h.position with global := Global.all_add h.position.global hhint } (keeps_withPosition _ _)

/-- A search ends. -/
theorem vouches_endSearch (h : s.node.Knows P) (search : Search)
    (found : Option (Peer × PoolKind)) : s.Vouches P (s.endSearch search found) := by
  obtain ⟨connector, hnode⟩ := s.node_endSearch search found
  refine ⟨?_, keeps_endSearch s _ _⟩
  rw [hnode]
  refine ⟨h.self, h.position, ?_, h.delivered⟩
  intro holder hholder
  dsimp only at hholder
  split at hholder
  · cases hholder
    trivial
  · cases hholder

/-- A search takes its next candidate. -/
theorem vouches_draw (h : s.node.Knows P) {search : Search} (hsearch : search.pools.All P) :
    s.Vouches P (s.draw search) := by
  have hnext := SearchPools.next_spec hsearch
    (search.admits s.node.self s.node.position.neighbors) s.words
  have hdrawn : s.Vouches P (s.afterDraw search) :=
    ⟨by rw [node_afterDraw]; exact h, keeps_afterDraw s search⟩
  rcases s.draw_cases search with ⟨-, heq⟩ | ⟨-, ⟨-, heq⟩ | ⟨c, hfound, heq⟩⟩ <;> rw [heq]
  · exact vouches_endSearch h search none
  · exact hdrawn.trans (vouches_endSearch hdrawn.node _ none)
  · obtain ⟨-, husable, hpeer⟩ := hnext.found c hfound
    simp only [Search.admits, Bool.and_eq_true, Bool.not_eq_true'] at husable
    exact hdrawn.hold (Candidate.knows_holder hnext.pools hpeer husable.1.1.2)

/-- A search begins. -/
theorem vouches_search (h : s.node.Knows P) (dead : Option Peer) (asRoot : Bool)
    (connector : Option Nat) : s.Vouches P (s.search dead asRoot connector) := by
  have hend : ∀ outcome result, s.Vouches P
      ((s.withNode (s.node.settleConnector connector outcome)).finish result) := by
    intro outcome result
    obtain ⟨c, hc⟩ := s.node.settleConnector_cases connector outcome
    rw [hc]
    refine Vouches.finish (Vouches.withNode ⟨h, .refl s⟩ ?_ ?_ ?_ ?_) result <;> rfl
  unfold search
  split
  · exact hend _ _
  · dsimp only
    split
    · exact hend _ _
    · refine Vouches.hold ⟨?_, (keeps_withPosition _ _).trans (keeps_note _ _)⟩ ?_
      · rw [node_note]
        exact { h with
          position := { h.position with global := Global.all_withoutHint h.position.global } }
      · exact SearchPools.all_start h.position.regional h.position.global

/-- What asking a peer means for joining its tree. -/
theorem vouches_endJoin (h : s.node.Knows P) {result : NegotiationResult}
    (hresult : ∀ peer rank refusal, result = .refused peer rank refusal →
      ∀ p ∈ refusal.named, P p) :
    s.Vouches P (s.endJoin result) := by
  have hstay : s.Vouches P s := ⟨h, .refl s⟩
  obtain ⟨global, outcome, hend, rfl | ⟨peer, rank, hint, hrefused, rfl⟩⟩ := s.endJoin_eq result <;>
    rw [hend]
  · exact hstay.finish _
  · have hhint := hresult peer rank _ hrefused hint (by simp [Refusal.named])
    exact (vouches_add h hhint).finish _

/-- The peer at a URL is to be asked to be the father. -/
theorem vouches_join (h : s.node.Knows P) (url : String) : s.Vouches P (s.join url) := by
  have hstay : s.Vouches P s := ⟨h, .refl s⟩
  unfold join
  split
  · exact hstay.finish _
  · exact hstay.hold ⟨fun search hnone => (by cases hnone), fun search hnone => (by cases hnone)⟩

/-- What is to come of a negotiation comes of it. -/
theorem vouches_settle (h : s.node.Knows P) {purpose : Purpose} (hpurpose : purpose.Knows P)
    {result : NegotiationResult}
    (hresult : ∀ peer rank refusal, result = .refused peer rank refusal →
      P peer ∧ ∀ p ∈ refusal.named, P p) :
    s.Vouches P (s.settle purpose result) := by
  have hstay : s.Vouches P s := ⟨h, .refl s⟩
  cases purpose with
  | ask => exact hstay.release.finish _
  | join =>
      exact hstay.release.trans (vouches_endJoin hstay.release.node
        fun peer rank refusal hrefused => (hresult peer rank refusal hrefused).2)
  | search search source =>
      have hsearch : search.pools.All P := hpurpose search rfl
      cases result with
      | accepted father => exact vouches_endSearch h search (some (father, source))
      | selfConnect => exact hstay.hold hsearch
      | failed error => exact hstay.hold hsearch
      | refused peer rank refusal =>
          obtain ⟨hpeer, hnamed⟩ := hresult peer rank refusal rfl
          have hlearned := Search.all_learn s.node.self hsearch hpeer hnamed
          obtain ⟨global, hlearn, rfl | ⟨hint, rfl, -, rfl⟩⟩ :=
              s.learn_frame peer refusal search <;>
            simp only [settle, hlearn]
          · exact hstay.hold hlearned
          · exact (vouches_add h (hnamed hint (by simp [Refusal.named]))).hold hlearned

/-- A link is opened to whom is to be asked. -/
theorem vouches_approach (h : s.node.Knows P) (hfinds : Finds P s.outside) {attempt : Attempt}
    (hattempt : attempt.Knows P) : s.Vouches P (s.approach attempt) := by
  have hopened : s.Vouches P (s.openLink attempt.url).2 :=
    ⟨by rw [node_openLink]; exact h, keeps_openLink s trivial⟩
  rcases s.approach_cases attempt with
    ⟨error, -, heq⟩ | ⟨peer, hpeer, ⟨-, heq⟩ | ⟨-, heq⟩⟩ <;> rw [heq]
  · exact hopened.trans (vouches_settle hopened.node hattempt.1
      fun _ _ _ => NegotiationResult.noConfusion)
  · have hclosed : s.Vouches P ((s.openLink attempt.url).2.closeLink peer) :=
      ⟨hopened.node, hopened.keeps.trans (keeps_closeLink _ _)⟩
    exact hclosed.trans (vouches_settle hclosed.node hattempt.1
      fun _ _ _ => NegotiationResult.noConfusion)
  · exact hopened.hold ⟨hfinds s rfl attempt.url peer hpeer, hattempt.1⟩

/-- The request is sent. -/
theorem vouches_submit (h : s.node.Knows P) {negotiation : Negotiation}
    (hpeer : P negotiation.peer) (hpurpose : negotiation.purpose.Knows P) (request : Request) :
    s.Vouches P (s.submit negotiation request) := by
  refine ⟨?_, keeps_submit s fun _ => by simp [Conduct.vouching, Message.named]⟩
  obtain ⟨holder, hnode, hholder⟩ := s.submit_cases negotiation request
  rw [hnode]
  refine ⟨h.self, h.position, fun holder' hslot => ?_, fun response hnone => by cases hnone⟩
  obtain rfl : holder = holder' := Option.some.inj hslot
  rcases hholder with ⟨rfl, -⟩ | ⟨rfl, -⟩ <;> exact ⟨hpeer, hpurpose⟩

/-- A request that did not go out is given up. -/
theorem vouches_retreat (h : s.node.Knows P) {negotiation : Negotiation}
    (hpurpose : negotiation.purpose.Knows P) : s.Vouches P (s.retreat negotiation) := by
  have hgiven : s.Vouches P (s.giveUp negotiation.peer).2 :=
    ⟨{ h with delivered := fun response hnone => by cases hnone },
      (keeps_withNode s _).trans (keeps_closeLink _ _)⟩
  rw [retreat_eq]
  exact hgiven.trans (vouches_settle hgiven.node hpurpose
    fun _ _ _ => NegotiationResult.noConfusion)

/-- A node tells its father that it leaves it. -/
theorem vouches_reroot (h : s.node.Knows P) : s.Vouches P s.reroot := by
  have hstay : s.Vouches P s := ⟨h, .refl s⟩
  unfold reroot
  split
  · exact hstay.hold trivial
  · rename_i father hfather
    have htold : s.Vouches P (s.tell father .noLongerChild) :=
      ⟨h, keeps_tell s fun _ => by simp [Conduct.vouching, Message.named]⟩
    exact htold.hold (h.position.father father hfather)

/-- A father is left. -/
theorem vouches_forsake (h : s.node.Knows P) (father : Peer) :
    s.Vouches P (s.forsake father) := by
  refine ⟨?_, keeps_forsake s father⟩
  rw [node_forsake]
  exact ⟨h.self, h.position.forget father, fun holder hholder => by cases hholder; trivial,
    h.delivered⟩

/-- A new tree is founded, or not. -/
theorem vouches_found (h : s.node.Knows P) (repair : Bool) : s.Vouches P (s.found repair) := by
  refine ⟨?_, keeps_found s repair fun _ _ _ => by simp [Conduct.vouching, Message.named]⟩
  rw [node_found]
  refine ⟨?_, ?_, fun holder hnone => (by cases hnone), ?_⟩
  · split <;> exact h.self
  · dsimp only
    split
    · exact h.position.newTree
    · exact h.position
  · split <;> exact h.delivered

/-- A reconfiguration goes on. -/
theorem vouches_advance (h : s.node.Knows P) (hfinds : Finds P s.outside) :
    s.Vouches P s.advance := by
  match hslot : s.node.slot.holder with
  | none | some .outsider | some (.negotiating _) =>
      rw [advance_of_not_ready (by simp [Node.isReady, hslot, Holder.isReady])]
      exact ⟨h, .refl s⟩
  | some (.searching search) =>
      rw [advance_of_searching hslot]
      exact vouches_draw h (h.holder _ hslot)
  | some (.opening attempt) =>
      rw [advance_of_opening hslot]
      exact vouches_approach h hfinds (h.holder _ hslot)
  | some (.asking negotiation request) =>
      rw [advance_of_asking hslot]
      exact vouches_submit h (h.holder _ hslot).1 (h.holder _ hslot).2 request
  | some (.retreating negotiation) =>
      rw [advance_of_retreating hslot]
      exact vouches_retreat h (h.holder _ hslot).2
  | some (.leaving father) =>
      rw [advance_of_leaving hslot]
      exact vouches_forsake h father
  | some (.founding repair) =>
      rw [advance_of_founding hslot]
      exact vouches_found h repair

omit [Transport σ] in
/-- Everyone that a node is referred to with a refusal it knows of. -/
theorem knows_answered (h : s.node.Knows P) : ∀ p ∈ s.answered, P p := by
  unfold answered
  split
  · rename_i response hcollect
    have hnamed := h.delivered response (Mailbox.delivered_of_collect hcollect)
    unfold Response.named at hnamed
    unfold Response.refusal?
    split <;> simp_all
  · simp

/-- The wait for an answer is over. -/
theorem vouches_resume (h : s.node.Knows P) : s.Vouches P s.resume := by
  by_cases hn : ∃ negotiation, s.node.slot.holder = some (.negotiating negotiation)
  · obtain ⟨negotiation, hslot⟩ := hn
    have hholder := h.holder _ hslot
    have hempty : s.Vouches P (s.withMailbox .empty) :=
      ⟨{ h with delivered := fun response hnone => by cases hnone }, keeps_withNode _ _⟩
    have hdelivered : ∀ response, s.node.mailbox.collect = .ok response →
        ∀ p ∈ response.named, P p := fun response hcollect =>
      h.delivered response (Mailbox.delivered_of_collect hcollect)
    rw [resume_of_negotiating hslot]
    rcases s.conclude_cases negotiation.peer with
      ⟨response, acceptance, hcollect, hanswer, heq⟩ | ⟨result, heq, hother⟩
    · rw [heq]
      have hnamed : ∀ p ∈ acceptance.upstream ++ acceptance.siblings, P p := by
        simpa [Response.named, hanswer] using hdelivered response hcollect
      have hplace := hempty.node.position.attach s.node.self hholder.1 hnamed response.rank s.words
      have hattach : (s.withMailbox .empty).Vouches P
          ((s.withMailbox .empty).attach negotiation.peer response.rank acceptance) := by
        refine vouches_of_place hempty.node ?_ ?_ ?_ ?_ (keeps_attach _ fun _ _ => ?_)
        all_goals rw [node_attach]
        · exact hplace
        · exact hplace.chain _
      exact (hempty.trans hattach).trans
        (vouches_settle hattach.node hholder.2 fun _ _ _ => NegotiationResult.noConfusion)
    · have hclosed : s.Vouches P ((s.withMailbox .empty).closeLink negotiation.peer) :=
        ⟨hempty.node, hempty.keeps.trans (keeps_closeLink _ _)⟩
      have hconclude := fun peer rank refusal (hrefused : result = .refused peer rank refusal) =>
        s.answered_of_conclude (by rw [heq, hrefused])
      rw [heq]
      refine hclosed.trans (vouches_settle hclosed.node hholder.2 ?_)
      intro peer rank refusal hrefused
      obtain ⟨rfl, hnamed⟩ := hconclude peer rank refusal hrefused
      exact ⟨hholder.1, hnamed ▸ knows_answered h⟩
  · rw [resume_of_not_negotiating (by simpa using hn)]
    exact ⟨h, .refl s⟩

/-- An errand begins. -/
theorem vouches_begin (h : s.node.Knows P) (errand : Errand) :
    s.Vouches P (s.begin errand) := by
  cases errand with
  | repair dead => exact vouches_search h _ _ _
  | connect connector => exact vouches_search h _ _ _
  | join url => exact vouches_join h url
  | reroot => exact vouches_reroot h

/-- Something is prepared. -/
theorem vouches_of_prepares (h : s.node.Knows P) {a : Act} (hprepares : a.prepares = true) :
    s.Vouches P (a.run s) := by
  have hstay : s.Vouches P s := ⟨h, .refl s⟩
  rcases s.run_of_prepares hprepares with ⟨_, _, _, _, hrun⟩ | ⟨outcome, hrun⟩ <;> rw [hrun]
  · refine hstay.withNode ?_ ?_ ?_ ?_ <;> rfl
  · exact hstay.finish outcome

/-- **Every act of a node that knows of certain peers only names no others**, and leaves it a
node that knows of such peers only, if it experiences nothing of others and finds no others. -/
theorem vouches_run (h : s.node.Knows P) (hfinds : Finds P s.outside) {a : Act}
    (hevent : ∀ e, a = .event e → P e.source ∧
      ∀ origin message, e = .message origin message → ∀ p ∈ message.named, P p)
    (hgossip : a ≠ .gossip) : s.Vouches P (a.run s) := by
  have hstay : s.Vouches P s := ⟨h, .refl s⟩
  cases a with
  | event e => exact vouches_onEvent h (hevent e rfl).1 (hevent e rfl).2
  | start | stop | requestJoin _ | requestReroot | tick => exact vouches_of_prepares h rfl
  | leave peer => exact vouches_leave h peer
  | gossip => exact absurd rfl hgossip
  | begin errand =>
      have herase : s.Vouches P
          (s.withNode { s.node with errands := s.node.errands.erase errand }) := by
        refine hstay.withNode ?_ ?_ ?_ ?_ <;> rfl
      exact herase.trans (vouches_begin herase.node errand)
  | advance => exact vouches_advance h hfinds
  | resume => exact vouches_resume h

end Session

/-- In a network a link leads to one of its nodes. -/
theorem Berth.finds (b : Berth) : Finds (· ∈ b.atlas.peers) b := by
  rintro s rfl url peer hpeer
  rcases s.openLink_cases url with ⟨error, hresult, -⟩ | ⟨p, hp, hresult, -⟩
  · rw [hresult] at hpeer
    cases hpeer
  · rw [hresult] at hpeer
    obtain rfl : p = peer := Except.ok.inj hpeer
    exact s.outside.atlas.leads url p hp

end BrokerForest
