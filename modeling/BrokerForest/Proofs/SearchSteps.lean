import BrokerForest.Proofs.EventSteps
/-!
# Search steps: how a node of a grove looks for a father

The beginning and the end of a reconfiguration are about everyone in the grove; what comes
between is about the peer that the node has a link to for a negotiation.  What holds between
the node and everyone else holds after each of these steps.

Main statements:

* `Session.Fits.engage`, `Session.Fits.disengage` — a search for a father begins and ends;
* `Session.Fits.approach`, `Session.Fits.submit` — a link is opened to whom is to be asked, and
  the request goes out;
* `Session.Fits.hangUp`, `Session.Fits.attach` — a negotiation ends without an acceptance and
  with one;
* **`Session.Fits.begin`**, **`Session.Fits.advance`**, **`Session.Fits.resume`** — the acts
  that these are parts of.
-/

namespace BrokerForest

namespace Node

variable {n : Node} {u v : NodeId}

/-- What holds of a node by itself while it looks for a father and is linked to nobody for it. -/
theorem Solo.pend (h : n.Solo u) (hstays : n.isParting = false)
    (hroot : n.position.father = none) {holder : Holder} (hlooks : holder.isLooking = true)
    (hnone : holder.negotiation? = none) : Node.Solo u { n with slot := ⟨some holder⟩ } := by
  refine h.seek hstays hroot ?_ ?_ fun negotiation hsome => ?_
  · cases holder with
    | outsider | leaving | founding => cases hlooks
    | _ => rfl
  · cases holder with
    | negotiating | retreating => cases hnone
    | _ => rfl
  · rw [hnone] at hsome
    cases hsome

/-- How a node stands towards others while it looks for a father and is linked to nobody for
it. -/
theorem stance_pend (n : Node) {holder : Holder} (hlooks : holder.isLooking = true)
    (hnone : holder.negotiation? = none) (v : NodeId) :
    { n with slot := ⟨some holder⟩ }.stance v =
      ⟨n.position.has v, n.position.under v, n.position.rank,
        if n.position.under v then n.position.fatherDepth else none, false, false, none, true,
        holder.dead.any fun q => q.id = v⟩ := by
  have hlooks' : { n with slot := ⟨some holder⟩ }.isLooking = true := hlooks
  have hstays := isParting_of_seeking (isSeeking_of_looking hlooks')
  rw [stance_of_pending hstays hnone, hlooks']
  rfl

/-- What holds of a node by itself while nothing holds its slot. -/
theorem Solo.free (h : n.Solo u) (hstands : n.position.Stands fun _ _ => True) :
    Node.Solo u { n with slot := .free } where
  self := h.self
  stands _ := hstands
  clients := h.clients
  apart := h.apart
  root hseeks := by cases hseeks
  waits negotiation hslot := by cases hslot
  linked negotiation hsome := by cases hsome
  sends negotiation hslot := by cases hslot
  leaves father hslot := by cases hslot
  uprooted huprooted := by cases huprooted

/-- How a node stands towards another while nothing holds its slot. -/
theorem stance_free (n : Node) (v : NodeId) :
    { n with slot := .free }.stance v =
      ⟨n.position.has v, n.position.under v, n.position.rank,
        if n.position.under v then n.position.fatherDepth else none, false, false, none, false,
        false⟩ :=
  stance_of_idle rfl v

end Node

namespace Session

variable {g : Grove} {u : NodeId} {inbox inbox' : NodeId → List Event} {s t : Session Berth}

/-- The transport knows a node by its own name, and holds no link of it with itself. -/
theorem Fits.berth (h : s.Fits g inbox u) :
    s.outside.own = s.node.self ∧ s.outside.refs s.outside.own.id = 0 := by
  have hown : s.outside.own = s.node.self := congrArg Post.own h.post
  refine ⟨hown, ?_⟩
  rw [hown, h.solo.self]
  exact h.apart.1

/-! ## The beginning and the end -/

/-- A node begins to look for a father, and nothing of the past is on its way between it and
anyone but the father that it lost. -/
theorem Fits.engage (h : s.Fits g inbox u) (hidle : s.node.isEngaged = false)
    (hroot : s.node.position.father = none) {holder : Holder} (hlooks : holder.isLooking = true)
    (hnone : holder.negotiation? = none)
    (hcalm : ∀ v m, v ≠ u → g.node? v = some m →
      (holder.dead.any fun q => q.id = v) = false →
        carries (inbox v) .loss = false ∧ carries (s.outside.out v) .loss = false ∧
          carries (inbox v) .news = false) :
    (s.hold holder).Fits g inbox u where
  post := h.post
  solo := h.solo.pend (Node.idle_of_not_engaged hidle).2.1 hroot hlooks hnone
  facing v hv := by
    have hbefore := Node.stance_of_idle hidle v
    have hstance : (s.hold holder).node.stance v =
        { s.node.stance v with
          engaged := true
          shuns := holder.dead.any fun q => q.id = v } := by
      rw [node_hold, s.node.stance_pend hlooks hnone, hbefore]
    have hfacing := h.facing v hv
    rw [hstance]
    cases hm : g.node? v with
    | none =>
        have hw := hfacing.widow hm
        exact ⟨hw.beside, hw.told, hw.deaths, hw.links, hw.silent, hw.refs⟩
    | some m =>
        have hunder : (s.node.stance v).under = false := by
          rw [hbefore]
          simp [Position.under, hroot]
        exact (hfacing.pair hm).engage hunder (by rw [hbefore]) (hcalm v m hv hm)
  apart := h.apart

/-- While a node is linked to nobody, how far its search has come no other sees. -/
theorem Fits.rehold (h : s.Fits g inbox u) {holder holder' : Holder}
    (hslot : s.node.slot.holder = some holder) (hlooks : holder.isLooking = true)
    (hnone : holder.negotiation? = none) (hlooks' : holder'.isLooking = true)
    (hnone' : holder'.negotiation? = none) (hdead : holder'.dead = holder.dead) :
    (s.hold holder').Fits g inbox u := by
  have hlooking : s.node.isLooking = true := by simp [Node.isLooking, hslot, hlooks]
  have hseeks := Node.isSeeking_of_looking hlooking
  have hstays := Node.isParting_of_seeking hseeks
  refine h.quiet rfl rfl (h.solo.pend hstays (h.solo.root hseeks) hlooks' hnone') fun v => ?_
  rw [node_hold, s.node.stance_pend hlooks' hnone', hdead,
    Node.stance_of_pending hstays (by simp [Node.negotiation?, hslot, hnone]), hlooking, hslot]
  rfl

/-- A node that is linked to nobody looks for a father no longer, whether it is to found a tree
or not. -/
theorem Fits.disengage (h : s.Fits g inbox u)
    (hids : ∀ v k, g.node? v = some k → k.self.id = v) {holder : Holder}
    (hslot : s.node.slot.holder = some holder) (hlooks : holder.isLooking = true)
    (hnone : holder.negotiation? = none) :
    s.release.Fits g inbox u ∧ (s.hold (.founding true)).Fits g inbox u := by
  have hlooking : s.node.isLooking = true := by simp [Node.isLooking, hslot, hlooks]
  have hseeks := Node.isSeeking_of_looking hlooking
  have hstays := Node.isParting_of_seeking hseeks
  have hbefore := Node.stance_of_pending hstays
    (show s.node.negotiation? = none by simp [Node.negotiation?, hslot, hnone])
  have hend : ∀ t : Session Berth, t.outside = s.outside → t.node.self = s.node.self →
      t.node.position = s.node.position → t.node.Solo u →
        (∀ v, t.node.stance v = { s.node.stance v with engaged := false, shuns := false }) →
          t.Fits g inbox u := by
    intro t houtside hself hposition hsolo hstance
    refine h.spread (fun _ => False) [] true hids (by rw [houtside]) hself hsolo
      (fun v _ => ⟨?_, by rw [houtside], ?_⟩) (fun _ => False.elim) (fun _ _ => rfl) ?_
      (Or.inl ⟨by rw [hposition], by simp⟩) (fun _ _ _ => by rw [hposition]) fun _ v _ => ?_
    · rw [hstance, hposition]
      simp [Stance.turn, Node.stance]
    · rw [houtside]
      simp
    · rw [hposition]
      exact Tidings.none _
    · rw [hbefore]
  constructor
  · refine hend s.release rfl rfl rfl (h.solo.free (h.solo.stands hstays)) fun v => ?_
    rw [node_release, Node.stance_free, hbefore]
  · have hsolo : Node.Solo u { s.node with slot := ⟨some (.founding true)⟩ } :=
      h.solo.seek hstays (h.solo.root hseeks) rfl rfl fun _ hsome => by cases hsome
    refine hend (s.hold (.founding true)) rfl rfl rfl hsolo fun v => ?_
    rw [node_hold, Node.stance_hold, hbefore]
    simp [Holder.leaves, Holder.isParting, Holder.links, Holder.negotiation?, Holder.awaits,
      Holder.isLooking, Holder.dead, Holder.search?]

/-- The end of a search does nothing to the world outside. -/
@[simp]
theorem outside_endSearch (s : Session Berth) (search : Search)
    (found : Option (Peer × PoolKind)) : (s.endSearch search found).outside = s.outside := by
  obtain ⟨connector, heq⟩ := s.endSearch_eq search found
  rw [heq]
  dsimp only
  split <;> simp

/-- A search ends without a father. -/
theorem Fits.endSearch (h : s.Fits g inbox u)
    (hids : ∀ v k, g.node? v = some k → k.self.id = v) {holder : Holder}
    (hslot : s.node.slot.holder = some holder) (hlooks : holder.isLooking = true)
    (hnone : holder.negotiation? = none) (search : Search) :
    (s.endSearch search none).Fits g inbox u := by
  obtain ⟨hfree, hfounding⟩ := h.disengage hids hslot hlooks hnone
  have houtside := s.outside_endSearch search none
  obtain ⟨connector, hnode⟩ := s.node_endSearch search none
  generalize s.endSearch search none = t at houtside hnode
  cases hroot : search.asRoot with
  | false =>
      rw [hroot] at hnode
      exact hfounding.aside houtside hnode
  | true =>
      rw [hroot] at hnode
      exact hfree.aside houtside hnode

/-- What comes of a negotiation does nothing to the world outside. -/
theorem outside_settle (s : Session Berth) (purpose : Purpose) (result : NegotiationResult) :
    (s.settle purpose result).outside = s.outside := by
  cases purpose with
  | ask => rfl
  | join =>
      obtain ⟨global, outcome, hend, -⟩ := s.release.endJoin_eq result
      rw [settle, hend]
      rfl
  | search search source =>
      cases result with
      | accepted father => exact s.outside_endSearch search _
      | selfConnect | failed _ => rfl
      | refused peer rank refusal =>
          obtain ⟨global, hlearn, -⟩ := s.learn_frame peer refusal search
          simp only [settle, hlearn]
          rfl

/-- A negotiation has come to nothing: what is to come of it comes. -/
theorem Fits.settle (h : s.Fits g inbox u)
    (hids : ∀ v k, g.node? v = some k → k.self.id = v) {holder : Holder} {purpose : Purpose}
    {result : NegotiationResult} (hslot : s.node.slot.holder = some holder)
    (hlooks : holder.isLooking = true) (hnone : holder.negotiation? = none)
    (hdead : holder.dead = purpose.search?.bind Search.dead)
    (hresult : ∀ father, result ≠ .accepted father) :
    (s.settle purpose result).Fits g inbox u := by
  have hfree := (h.disengage hids hslot hlooks hnone).1
  cases purpose with
  | ask => exact hfree.aside rfl rfl
  | join =>
      obtain ⟨global, outcome, hend, -⟩ := s.release.endJoin_eq result
      simp only [Session.settle, hend]
      exact hfree.aside rfl rfl
  | search search source =>
      have hheld (search' : Search) (heq : search'.dead = search.dead) :
          (s.hold (.searching search')).Fits g inbox u :=
        h.rehold hslot hlooks hnone rfl rfl (by rw [hdead]; exact heq)
      cases result with
      | accepted father => exact absurd rfl (hresult father)
      | selfConnect | failed _ => exact hheld search rfl
      | refused peer rank refusal =>
          obtain ⟨global, hlearn, -⟩ := s.learn_frame peer refusal search
          simp only [Session.settle, hlearn]
          exact (hheld (search.learn s.node.self peer refusal) rfl).aside rfl rfl

/-! ## Whom to ask -/

/-- A search takes its next candidate, or ends. -/
theorem Fits.draw (h : s.Fits g inbox u) (hids : ∀ v k, g.node? v = some k → k.self.id = v)
    {search : Search} (hslot : s.node.slot.holder = some (.searching search)) :
    (s.draw search).Fits g inbox u := by
  have hdrawn : (s.afterDraw search).Fits g inbox u :=
    h.aside (by simp [afterDraw]) (node_afterDraw ..)
  have hslot' : (s.afterDraw search).node.slot.holder = some (.searching search) := by
    rw [node_afterDraw, hslot]
  rcases s.draw_cases search with ⟨-, heq⟩ | ⟨-, ⟨-, heq⟩ | ⟨c, -, heq⟩⟩ <;> rw [heq]
  · exact h.endSearch hids hslot rfl rfl _
  · exact hdrawn.endSearch hids hslot' rfl rfl _
  · have hdead : (c.holder (search.mark (s.nextCandidate search).pools c)).dead = search.dead := by
      rw [Holder.dead, Candidate.search?_holder]
      rfl
    rcases c.holder_cases (search.mark (s.nextCandidate search).pools c) with
      ⟨-, hholder⟩ | ⟨url, -, hholder⟩ <;> rw [hholder] at hdead ⊢ <;>
      exact hdrawn.rehold hslot' rfl rfl rfl rfl hdead

/-- How a node stands towards others once it has a link to whom it is to ask. -/
theorem stance_asking {n : Node} (negotiation : Negotiation) (request : Request)
    (v : NodeId) :
    { n with slot := ⟨some (.asking negotiation request)⟩ }.stance v =
      ⟨n.position.has v, n.position.under v, n.position.rank,
        if n.position.under v then n.position.fatherDepth else none,
        decide (negotiation.peer.id = v), false, none, true,
        (negotiation.purpose.search?.bind Search.dead).any fun q => q.id = v⟩ := by
  simp [Node.stance_hold, Holder.leaves, Holder.isParting, Holder.links, Holder.negotiation?,
    Holder.awaits, Holder.isLooking, Holder.dead, Holder.search?]

/-- A link is opened to whom is to be asked. -/
theorem Fits.link (h : s.Fits g inbox u) {attempt : Attempt}
    (hslot : s.node.slot.holder = some (.opening attempt)) {peer : Peer} (hne : peer.id ≠ u)
    (halive : s.outside.alive peer.id = true)
    (hshuns : (s.node.stance peer.id).shuns = false) (hnode : t.node = s.node)
    (houtside : t.outside = s.outside.link peer) (request : Request) :
    (t.hold (.asking ⟨peer, attempt.purpose⟩ request)).Fits g inbox u := by
  have hlooking : s.node.isLooking = true := by
    simp [Node.isLooking, hslot, Holder.isLooking]
  have hseeks := Node.isSeeking_of_looking hlooking
  have hstays := Node.isParting_of_seeking hseeks
  have hbefore := Node.stance_of_pending hstays
    (show s.node.negotiation? = none by simp [Node.negotiation?, hslot, Holder.negotiation?])
  have hstance : ∀ v, (t.hold (.asking ⟨peer, attempt.purpose⟩ request)).node.stance v =
      { s.node.stance v with links := decide (peer.id = v) } := by
    intro v
    rw [node_hold, hnode, stance_asking, hbefore, hlooking, hslot]
    rfl
  obtain ⟨m, hm⟩ : ∃ m, g.node? peer.id = some m := by
    rw [show s.outside.alive = _ from congrArg Post.alive h.post] at halive
    exact Option.isSome_iff_exists.1 halive
  have hpair := (h.facing peer.id hne).pair hm
  have hlooks : (s.node.stance peer.id).engaged = true := hlooking
  have hlinks : (s.node.stance peer.id).links = false := by rw [hbefore]
  have hloss := (hpair.here.calm hlooks hshuns).1
  refine h.toward hne (by simp [houtside]) (by rw [node_hold, hnode]) ?_ (fun _ _ => rfl)
    (fun w hw => ?_) (fun w hw => ?_) (fun w hw => ?_) ?_
  · rw [node_hold, hnode]
    refine h.solo.seek hstays (h.solo.root hseeks) rfl rfl fun negotiation hsome => ?_
    obtain rfl : _ = negotiation := Option.some.inj hsome
    exact hne
  · rw [hstance, hbefore, decide_eq_false fun heq => hw heq.symm]
  · rw [outside_hold, houtside, Berth.refs_link, if_neg hw]
  · rw [outside_hold, houtside, Berth.out_link, if_neg fun hand => hw hand.1]
  · rw [hstance, decide_eq_true rfl, hm, outside_hold, houtside, Berth.refs_link, if_pos rfl,
      Berth.out_link]
    by_cases hzero : s.outside.refs peer.id = 0
    · rw [if_pos ⟨rfl, hzero⟩]
      exact (hpair.put rfl).link hlinks hloss hshuns
    · rw [if_neg fun hand => hzero hand.2]
      exact hpair.link hlinks hloss hshuns

/-- A link is opened to whom is to be asked, who is not the father that was lost, or nobody is
to be asked. -/
theorem Fits.approach (h : s.Fits g inbox u)
    (hids : ∀ v k, g.node? v = some k → k.self.id = v) {attempt : Attempt}
    (hslot : s.node.slot.holder = some (.opening attempt))
    (hshuns : ∀ p, g.atlas.resolve attempt.url = some p → (s.node.stance p.id).shuns = false) :
    (s.approach attempt).Fits g inbox u := by
  obtain ⟨hown, hzero⟩ := h.berth
  have hnode := s.node_openLink attempt.url
  have hopened : (s.openLink attempt.url).2.outside = s.outside →
      (s.openLink attempt.url).2.Fits g inbox u := fun houtside => h.aside houtside hnode
  have hslot' : (s.openLink attempt.url).2.node.slot.holder = some (.opening attempt) := by
    rw [hnode, hslot]
  have hresolved := s.openLink_cases attempt.url
  rcases s.approach_cases attempt with
    ⟨error, hopen, heq⟩ | ⟨peer, hopen, ⟨hself, heq⟩ | ⟨hother, heq⟩⟩
  · rw [heq]
    rcases hresolved with ⟨_, -, houtside⟩ | ⟨_, -, hok, -⟩
    · exact (hopened houtside).settle hids hslot' rfl rfl rfl fun _ => NegotiationResult.noConfusion
    · rw [hopen] at hok
      cases hok
  · rw [heq]
    have hid : peer.id = s.outside.own.id := by
      rw [hown]
      exact Peer.same_iff.1 hself
    rcases hresolved with ⟨_, herror, -⟩ | ⟨p, -, hok, hcases⟩
    · rw [hopen] at herror
      cases herror
    · rw [hopen] at hok
      obtain rfl : peer = p := Except.ok.inj hok
      rcases hcases with ⟨-, houtside⟩ | ⟨hne, -⟩
      · have hclosed : ((s.openLink attempt.url).2.closeLink peer).Fits g inbox u := by
          refine h.aside ?_ hnode
          rw [outside_closeLink, houtside]
          exact s.outside.closeLink_of_refs_zero (by rw [hid, hzero])
        exact hclosed.settle hids hslot' rfl rfl rfl fun _ => NegotiationResult.noConfusion
      · exact absurd hid hne
  · rw [heq]
    rcases hresolved with ⟨_, herror, -⟩ | ⟨p, hresolve, hok, hcases⟩
    · rw [hopen] at herror
      cases herror
    · rw [hopen] at hok
      obtain rfl : peer = p := Except.ok.inj hok
      rcases hcases with ⟨hid, -⟩ | ⟨hne, halive, houtside⟩
      · rw [hown] at hid
        rw [Peer.same_iff.2 hid] at hother
        cases hother
      · rw [congrArg Post.atlas h.post] at hresolve
        exact h.link hslot (by rwa [hown, h.solo.self] at hne) halive (hshuns peer hresolve)
          hnode houtside _

/-- Whom a node has opened a link to lives. -/
theorem Fits.asked (h : s.Fits g inbox u) {negotiation : Negotiation}
    (hnegotiation : s.node.negotiation? = some negotiation) :
    negotiation.peer.id ≠ u ∧ ∃ m, g.node? negotiation.peer.id = some m ∧
      PairInvariant s.node.self m.self (s.node.stance negotiation.peer.id) (m.stance s.node.self.id)
        (inbox negotiation.peer.id) (s.outside.out negotiation.peer.id)
        (s.outside.refs negotiation.peer.id) ∧
      (s.node.stance negotiation.peer.id).links = true := by
  have hne := h.solo.linked negotiation hnegotiation
  obtain ⟨holder, hholder, hsome⟩ := Option.bind_eq_some_iff.1 hnegotiation
  have hlinks : (s.node.stance negotiation.peer.id).links = true := by
    simp [Node.stance, hholder, Holder.links, hsome]
  have hfacing := h.facing negotiation.peer.id hne
  refine ⟨hne, ?_⟩
  cases hm : g.node? negotiation.peer.id with
  | some m => exact ⟨m, rfl, hfacing.pair hm, hlinks⟩
  | none =>
      rw [(hfacing.widow hm).links] at hlinks
      cases hlinks

/-- The request goes out over the link that was opened for it. -/
theorem Fits.submit (h : s.Fits g inbox u) {negotiation : Negotiation} {request : Request}
    (hslot : s.node.slot.holder = some (.asking negotiation request)) :
    (s.submit negotiation request).Fits g inbox u := by
  have hnegotiation : s.node.negotiation? = some negotiation := by
    simp [Node.negotiation?, hslot, Holder.negotiation?]
  have hlooking : s.node.isLooking = true := by
    simp [Node.isLooking, hslot, Holder.isLooking]
  have hseeks := Node.isSeeking_of_looking hlooking
  obtain ⟨hne, m, hm, hpair, hlinks⟩ := h.asked hnegotiation
  have hzero : s.outside.refs negotiation.peer.id ≠ 0 := by
    rw [hpair.refs, hlinks, Bool.toNat_true]
    omega
  have hsent : (s.ask negotiation.peer request).1 = true := by
    change ((s.withMailbox (s.node.mailbox.expect negotiation.peer)).send negotiation.peer
      (.request request) .control).1 = true
    rw [sent_send, outside_withMailbox]
    simpa using hzero
  rw [submit_eq, hsent, if_pos rfl]
  have hnode : ((s.ask negotiation.peer request).2.hold (.negotiating negotiation)).node =
      { s.node with
        mailbox := (Wait.waiting negotiation.peer).mailbox
        slot := ⟨some (.negotiating negotiation)⟩ } := rfl
  have houtside : ((s.ask negotiation.peer request).2.hold (.negotiating negotiation)).outside =
      (s.outside.send negotiation.peer (.request request)).2 := rfl
  have hbefore : ∀ v, s.node.stance v = ⟨s.node.position.has v, s.node.position.under v,
      s.node.position.rank,
      if s.node.position.under v then s.node.position.fatherDepth else none,
      decide (negotiation.peer.id = v), false, none, true,
      (negotiation.purpose.search?.bind Search.dead).any fun q => q.id = v⟩ := by
    intro v
    have hself : s.node = { s.node with slot := ⟨some (.asking negotiation request)⟩ } := by
      rw [← hslot]
    rw [hself, stance_asking]
  have hstance : ∀ v,
      ((s.ask negotiation.peer request).2.hold (.negotiating negotiation)).node.stance v =
        { s.node.stance v with awaits := decide (negotiation.peer.id = v) } := by
    intro v
    rw [hnode, Node.stance_of_negotiating rfl, hbefore]
    simp [Wait.mailbox, Mailbox.delivered]
  refine h.toward hne (by rw [houtside]; simp) (by rw [hnode]) ?_ (fun _ _ => rfl)
    (fun w hw => ?_) (fun w _ => ?_) (fun w hw => ?_) ?_
  · have hwaiting : Node.Solo u
        { s.node with mailbox := (Wait.waiting negotiation.peer).mailbox } := by
      refine h.solo.withMailbox fun negotiation' hslot' => ?_
      rw [hslot] at hslot'
      cases hslot'
    rw [hnode]
    refine hwaiting.hold (fun _ => Node.isParting_of_seeking hseeks)
      (fun _ => h.solo.root hseeks) ?_ ?_ ?_ ?_ ?_
    · intro negotiation' heq
      obtain rfl : negotiation = negotiation' := Holder.negotiating.inj heq
      exact Or.inl rfl
    · exact fun negotiation' hsome => h.solo.linked negotiation' (hnegotiation.trans hsome)
    · exact fun _ => Holder.noConfusion
    · exact fun _ => Holder.noConfusion
    · exact Holder.noConfusion
  · rw [hstance, hbefore, decide_eq_false fun heq => hw heq.symm]
  · rw [houtside, Berth.refs_send]
  · rw [houtside, Berth.out_send, if_neg fun hand => hw hand.1]
  · rw [hstance, decide_eq_true rfl, hm, houtside, Berth.refs_send, Berth.out_send,
      if_pos ⟨rfl, hzero⟩]
    exact hpair.ask hlooking hlinks (by rw [hbefore]) rfl

/-! ## The end of a negotiation -/

/-- What comes of a negotiation without an acceptance does not depend on how far it had come. -/
theorem settle_hold (s : Session Berth) (holder : Holder) (purpose : Purpose)
    {result : NegotiationResult} (h : ∀ father, result ≠ .accepted father) :
    (s.hold holder).settle purpose result = s.settle purpose result := by
  cases purpose with
  | ask => rfl
  | join => cases result <;> rfl
  | search search source =>
      cases result with
      | accepted father => exact absurd rfl (h father)
      | selfConnect | failed _ => rfl
      | refused peer rank refusal =>
          cases refusal with
          | maxDegree | minDegree | busy => rfl
          | depthOrColor hint =>
              cases hint with
              | none => rfl
              | some hint =>
                  cases hself : hint.same s.node.self <;> simp [settle, learn, hself] <;> rfl

/-- A negotiation ends without an acceptance. -/
theorem Fits.hangUp (h : s.Fits g inbox u) {negotiation : Negotiation}
    (hslot : s.node.slot.holder = some (.negotiating negotiation)) {m : Node}
    (hm : g.node? negotiation.peer.id = some m) (hidle : m.isEngaged = false)
    (hgrant : grant s.node.mailbox.delivered (inbox negotiation.peer.id) = none)
    (hresponse : carries (inbox negotiation.peer.id) .response = false)
    (hrequest : carries (s.outside.out negotiation.peer.id) .request = false) :
    (((s.withMailbox .empty).closeLink negotiation.peer).hold
      (.opening ⟨"", .none, negotiation.purpose⟩)).Fits g inbox u := by
  have hbefore := fun v => Node.stance_of_negotiating hslot v
  have hlooking : s.node.isLooking = true := by
    simp [Node.isLooking, hslot, Holder.isLooking]
  have hseeks := Node.isSeeking_of_looking hlooking
  have hnegotiation : s.node.negotiation? = some negotiation := by
    simp [Node.negotiation?, hslot, Holder.negotiation?]
  have hne := h.solo.linked negotiation hnegotiation
  have hpair := (h.facing negotiation.peer.id hne).pair hm
  have hover := hpair.giveUp (by simpa [hbefore] using hgrant) hresponse hrequest
  have hunlinked := hover.unlink (by simp [hbefore]) rfl
  have hlooks : (m.stance s.node.self.id).engaged = false := by
    rw [Node.stance_of_idle hidle]
  let t := ((s.withMailbox .empty).closeLink negotiation.peer).hold
    (.opening ⟨"", .none, negotiation.purpose⟩)
  have hstance : ∀ v, t.node.stance v =
      { s.node.stance v with links := false, awaits := false, taken := none } := by
    intro v
    have hplace := Node.stance_pend { s.node with mailbox := .empty }
      (show (Holder.opening ⟨"", .none, negotiation.purpose⟩).isLooking = true from rfl) rfl v
    rw [hbefore]
    exact hplace
  have houtside : t.outside = s.outside.closeLink negotiation.peer := rfl
  change t.Fits g inbox u
  refine h.toward hne (by simp [houtside]) rfl ?_ (fun _ _ => rfl) (fun w hw => ?_)
    (fun w hw => ?_) (fun w hw => ?_) ?_
  · have hempty : Node.Solo u { s.node with
        mailbox := .empty
        slot := ⟨some (.opening ⟨"", .none, negotiation.purpose⟩)⟩ } :=
      { h.solo.pend (Node.isParting_of_seeking hseeks) (h.solo.root hseeks)
          (show (Holder.opening ⟨"", .none, negotiation.purpose⟩).isLooking = true from rfl)
          rfl with
        waits := fun _ hnone => by cases hnone }
    exact hempty
  · have hw' : ¬negotiation.peer.id = w := fun heq => hw heq.symm
    rw [hstance, hbefore]
    simp [hw']
  · rw [houtside, Berth.refs_closeLink, if_neg hw]
  · rw [houtside, Berth.out_closeLink, if_neg fun hand => hw hand.1]
  · rw [hm, hstance, houtside, Berth.refs_closeLink, Berth.out_closeLink, if_pos rfl]
    by_cases hlast : s.outside.refs negotiation.peer.id = 1
    · rw [if_pos ⟨rfl, hlast⟩]
      rw [hlast] at hunlinked ⊢
      exact hunlinked.close rfl fun hengaged => by
        rw [hlooks] at hengaged
        cases hengaged
    · rw [if_neg fun hand => hlast hand.2]
      exact hunlinked

end Session

/-- A node that attaches has a father, whose depth it remembers, beside it and above it. -/
theorem Position.attach_place (p : Position) (self father : Peer) (rank : Rank)
    (acceptance : Acceptance) (ws : Words) :
    (p.attach self father rank acceptance ws).1.father = some father ∧
      (p.attach self father rank acceptance ws).1.fatherDepth = some rank.depth ∧
        (p.attach self father rank acceptance ws).1.neighbors = p.neighbors.add father ∧
          (p.attach self father rank acceptance ws).1.rank.color = rank.color := by
  obtain ⟨hfather, hdepth, hneighbors, -, -⟩ := Position.settle_frame
    { p with
      father := some father
      neighbors := p.neighbors.add father
      global := p.global.remove father } rank ws
  exact ⟨hfather, hdepth, hneighbors, Position.color_settle ..⟩

namespace Position

variable (p : Position) (self : Peer) {father : Peer} (rank : Rank) (acceptance : Acceptance)
  (ws : Words)

theorem has_attach (hbroker : father.broker = true) (v : NodeId) :
    (p.attach self father rank acceptance ws).1.has v = (p.has v || decide (v = father.id)) := by
  rw [← has_add hbroker, has, (p.attach_place self father rank acceptance ws).2.2.1]
  rfl

theorem under_attach (v : NodeId) :
    (p.attach self father rank acceptance ws).1.under v = decide (v = father.id) := by
  rw [under, (p.attach_place self father rank acceptance ws).1]
  simp [eq_comm]

end Position

namespace Session

variable {g : Grove} {u : NodeId} {inbox inbox' : NodeId → List Event} {s t : Session Berth}

/-- The children of a node that takes its place beneath a father are told of it. -/
theorem outside_attach (s : Session Berth) {father : Peer} (rank : Rank) (acceptance : Acceptance)
    (hbroker : father.broker = true) (hnew : s.node.position.has father.id = false) (v : NodeId) :
    (s.attach father rank acceptance).outside.toPost = s.outside.toPost ∧
      (s.attach father rank acceptance).outside.refs = s.outside.refs ∧
        (s.attach father rank acceptance).outside.out v =
          if s.node.position.has v && decide (s.outside.refs v ≠ 0) then
            s.outside.out v ++ [.message s.outside.own
              ((s.attach father rank acceptance).node.update
                (s.attach father rank acceptance).node.chain)]
          else s.outside.out v := by
  have hhas := s.node.position.has_attach s.node.self rank acceptance s.words hbroker v
  have hunder : (s.node.position.attach s.node.self father rank acceptance s.words).1.under v =
      decide (v = father.id) := s.node.position.under_attach s.node.self rank acceptance s.words v
  rw [node_attach, attach_eq]
  dsimp only
  refine ⟨by simp, by simp, ?_⟩
  rw [outside_dropConnector, out_sendAll_children, hhas, hunder]
  by_cases hv : v = father.id
  · subst hv
    simp [hnew]
  · simp [hv, Node.update, Node.chain]

/-- Whom a node waits for lives. -/
theorem Fits.paired (h : s.Fits g inbox u) {negotiation : Negotiation}
    (hslot : s.node.slot.holder = some (.negotiating negotiation)) :
    ∃ m, g.node? negotiation.peer.id = some m ∧
      PairInvariant s.node.self m.self (s.node.stance negotiation.peer.id) (m.stance s.node.self.id)
        (inbox negotiation.peer.id) (s.outside.out negotiation.peer.id)
        (s.outside.refs negotiation.peer.id) ∧
      (s.node.stance negotiation.peer.id).awaits = true ∧
        (s.node.stance negotiation.peer.id).taken = s.node.mailbox.delivered := by
  have hnegotiation : s.node.negotiation? = some negotiation := by
    simp [Node.negotiation?, hslot, Holder.negotiation?]
  obtain ⟨-, m, hm, hpair, -⟩ := h.asked hnegotiation
  exact ⟨m, hm, hpair, by simp [Node.stance_of_negotiating hslot],
    by simp [Node.stance_of_negotiating hslot]⟩

/-- Whom a node holds an acceptance of is a live stranger to it, and holds it for a child. -/
theorem Fits.accepted (h : s.Fits g inbox u) {negotiation : Negotiation}
    (hslot : s.node.slot.holder = some (.negotiating negotiation)) {response : Response}
    {acceptance : Acceptance} (hdelivered : s.node.mailbox.delivered = some response)
    (haccepted : response.answer = .accepted acceptance) :
    s.node.position.has negotiation.peer.id = false ∧
      ∀ rank : Rank, rank.color = response.rank.color →
        Facing (g.node? negotiation.peer.id) s.node.self
          ⟨true, true, rank, some response.rank.depth, false, false, none, false, false⟩
          (inbox negotiation.peer.id) (s.outside.out negotiation.peer.id)
          (s.outside.refs negotiation.peer.id) := by
  obtain ⟨m, hm, hpair, hawaits, htaken⟩ := h.paired hslot
  rw [hdelivered] at htaken
  have hgrant : (s.node.stance negotiation.peer.id).taken.bind Response.grant? =
      some response.rank := by
    rw [htaken]
    simp [Response.grant?, haccepted]
  have hresponse : carries (inbox negotiation.peer.id) .response = false := by
    by_contra hcarries
    have hnone := (hpair.here.answered (by simpa using hcarries)).2
    rw [htaken] at hnone
    cases hnone
  have hapart := hpair.here.granted response.rank
    ((grant_of_not_response _ hresponse).trans hgrant)
  refine ⟨?_, fun rank hcolor => ?_⟩
  · rw [Node.stance_of_negotiating hslot] at hapart
    exact hapart.1
  · rw [hm]
    exact hpair.attach hawaits hgrant hcolor

/-- A node that has taken its place beneath a father is in order, and looks for none. -/
theorem Fits.solo_attach (h : s.Fits g inbox u) {father : Peer} {rank : Rank}
    {acceptance : Acceptance} {ws : Words} (hbroker : father.broker = true) (hne : father.id ≠ u)
    (room : rank.depth.Roomy ws) {connector : Option Connector} {mailbox : Mailbox} :
    Node.Solo u { s.node with
      position := (s.node.position.attach s.node.self father rank acceptance ws).1
      slot := .free
      mailbox := mailbox
      connector := connector } := by
  have hneighbors := (s.node.position.attach_place s.node.self father rank acceptance ws).2.2.1
  refine ⟨h.solo.self, fun _ => ?_, ?_, ?_, ?_, ?_, ?_, ?_, ?_, ?_⟩
  · exact (Position.stands_settle (p := { s.node.position with
      father := some father
      neighbors := s.node.position.neighbors.add father
      global := s.node.position.global.remove father }) rfl trivial room).congr rfl rfl rfl
  · rw [hneighbors]
    simpa [Neighbors.add, hbroker] using h.solo.clients
  · rw [Position.has_attach _ _ _ _ _ hbroker, Position.under_attach, h.solo.apart.1]
    simpa using hne.symm
  · exact Bool.noConfusion
  · exact fun _ hnone => by cases hnone
  · exact fun _ hnone => by cases hnone
  · exact fun _ hnone => by cases hnone
  · exact fun _ hnone => by cases hnone
  · exact Bool.noConfusion

/-- How a node that has attached stands to another. -/
theorem stance_attach {n : Node} {p : Position} {self father : Peer} {rank : Rank}
    {acceptance : Acceptance} {ws : Words} (hbroker : father.broker = true)
    (hposition : n.position = (p.attach self father rank acceptance ws).1)
    (hfree : n.slot.holder = none) (v : NodeId) :
    n.stance v = ⟨p.has v || decide (v = father.id), decide (v = father.id), n.position.rank,
      if decide (v = father.id) then some rank.depth else none, false, false, none, false,
      false⟩ := by
  obtain ⟨-, hdepth, -⟩ := p.attach_place self father rank acceptance ws
  have hidle : n.isEngaged = false := by simp [Node.isEngaged, hfree]
  rw [Node.stance_of_idle hidle, hposition, hdepth,
    p.has_attach self rank acceptance ws hbroker, p.under_attach self rank acceptance ws]

/-- A node takes its place beneath whoever has accepted it, and its reconfiguration ends. -/
theorem Fits.attach (h : s.Fits g inbox u)
    (hids : ∀ v k, g.node? v = some k → k.self.id = v) {negotiation : Negotiation}
    (hslot : s.node.slot.holder = some (.negotiating negotiation))
    (hknown : negotiation.peer ∈ g.atlas.peers)
    (hothers : ∀ v k, v ≠ u → g.node? v = some k → k.isEngaged = false) {response : Response}
    {acceptance : Acceptance} (hdelivered : s.node.mailbox.delivered = some response)
    (haccepted : response.answer = .accepted acceptance)
    (room : response.rank.depth.Roomy s.words) :
    (((s.withMailbox .empty).attach negotiation.peer response.rank
      acceptance).settle negotiation.purpose (.accepted negotiation.peer)).Fits g inbox u := by
  have hlooking : s.node.isLooking = true := by simp [Node.isLooking, hslot, Holder.isLooking]
  have hne := h.solo.linked negotiation (by simp [Node.negotiation?, hslot, Holder.negotiation?])
  have hbroker := g.atlas.brokers _ hknown
  have hunder : ∀ v, s.node.position.under v = false := fun v => by
    simp [Position.under, h.solo.root (Node.isSeeking_of_looking hlooking)]
  have hbefore := fun v => Node.stance_of_negotiating hslot v
  obtain ⟨hnew, hfacing⟩ := h.accepted hslot hdelivered haccepted
  let r := s.withMailbox .empty
  let p := (s.node.position.attach s.node.self negotiation.peer response.rank acceptance s.words).1
  obtain ⟨-, -, -, hcolor⟩ := s.node.position.attach_place s.node.self
    negotiation.peer response.rank acceptance s.words
  have hout := r.outside_attach response.rank acceptance hbroker hnew
  obtain ⟨connector, hnode⟩ := (r.attach negotiation.peer response.rank
    acceptance).node_settle_accepted negotiation.purpose negotiation.peer
  have houtside := (r.attach negotiation.peer response.rank
    acceptance).outside_settle negotiation.purpose (.accepted negotiation.peer)
  change ((r.attach negotiation.peer response.rank acceptance).settle
    negotiation.purpose (.accepted negotiation.peer)).Fits g inbox u
  generalize (r.attach negotiation.peer response.rank acceptance).settle
    negotiation.purpose (.accepted negotiation.peer) = t at hnode houtside ⊢
  have hposition : t.node.position = p := by
    rw [hnode, node_attach]
    rfl
  have hself : t.node.self = s.node.self := by
    rw [hnode, node_attach]
    rfl
  have hfree : t.node.slot.holder = none := by
    rw [hnode]
    rfl
  have hsolo : t.node.Solo u := by
    rw [hnode, node_attach]
    exact h.solo_attach hbroker hne room
  have hstance := stance_attach hbroker hposition hfree
  refine h.spread (· = negotiation.peer.id) [(r.attach negotiation.peer response.rank
    acceptance).node.update (r.attach negotiation.peer response.rank acceptance).node.chain] true
    hids (by rw [houtside, (hout u).1]; rfl) hself hsolo (fun v hv => ⟨?_, ?_, ?_⟩) ?_
    (fun _ _ => rfl) ?_ (Or.inr fun v m _ hv hm => h.ungranted hv hm (hothers v m hv hm)) ?_ ?_
  · have hv' : ¬negotiation.peer.id = v := fun heq => hv heq.symm
    rw [hstance, hbefore]
    simp [Stance.turn, hunder, hv, hv']
  · rw [houtside, (hout v).2.1]
    rfl
  · rw [houtside, (hout v).2.2, hunder, Bool.not_false, Bool.and_true]
    rfl
  · rintro v rfl
    refine ⟨hne, ?_⟩
    rw [hstance, decide_eq_true rfl, if_pos rfl, Bool.or_true, houtside,
      (hout negotiation.peer.id).2.1, (hout negotiation.peer.id).2.2,
      show r.node.position.has negotiation.peer.id = false from hnew, Bool.false_and,
      if_neg Bool.false_ne_true]
    rw [hposition]
    exact hfacing p.rank hcolor
  · rw [hposition, node_attach]
    exact Tidings.update ⟨p.rank, _, _⟩
  · intro v _ hv
    simp [hbefore, hunder] at hv
  · intro _ v hv
    have hv' : ¬negotiation.peer.id = v := fun heq => hv heq.symm
    rw [hbefore, decide_eq_false hv']

/-- The wait for an answer ends: with one, or while nothing is on its way. -/
theorem Fits.resume (h : s.Fits g inbox u)
    (hids : ∀ v k, g.node? v = some k → k.self.id = v) {negotiation : Negotiation}
    (hslot : s.node.slot.holder = some (.negotiating negotiation))
    (hknown : negotiation.peer ∈ g.atlas.peers)
    (hothers : ∀ v k, v ≠ u → g.node? v = some k → k.isEngaged = false)
    (hready : s.node.mailbox.awaited = none ∨
      inbox negotiation.peer.id = [] ∧ s.outside.out negotiation.peer.id = [])
    (room : Act.resume.Roomy s.node s.words) : s.resume.Fits g inbox u := by
  have hne := h.solo.linked negotiation (by simp [Node.negotiation?, hslot, Holder.negotiation?])
  obtain ⟨m, hm, hpair, -, htaken⟩ := h.paired hslot
  rw [resume_of_negotiating hslot]
  rcases s.conclude_cases negotiation.peer with
    ⟨response, acceptance, hcollect, hanswer, heq⟩ | ⟨result, heq, hother⟩
  · rw [heq]
    exact h.attach hids hslot hknown hothers (Mailbox.delivered_of_collect hcollect) hanswer
      (room (negotiation.peer, response) (heard_of_collect hslot hcollect))
  rw [heq]
  have hquiet : grant s.node.mailbox.delivered (inbox negotiation.peer.id) = none ∧
      carries (inbox negotiation.peer.id) .response = false ∧
        carries (s.outside.out negotiation.peer.id) .request = false := by
    rcases h.solo.waits _ hslot with hmailbox | ⟨response, hmailbox⟩
    · obtain ⟨hin, hout⟩ := hready.resolve_left (by simp [hmailbox, Wait.mailbox])
      rw [hin, hout, hmailbox]
      exact ⟨rfl, rfl, rfl⟩
    · have hdelivered : s.node.mailbox.delivered = some response := by rw [hmailbox]; rfl
      have hanswered : carries (inbox negotiation.peer.id) .response = false := by
        by_contra hcarries
        have hnone := (hpair.here.answered (by simpa using hcarries)).2
        rw [htaken, hdelivered] at hnone
        cases hnone
      refine ⟨?_, hanswered, ?_⟩
      · rw [grant_of_not_response _ hanswered, hdelivered]
        change response.grant? = none
        unfold Response.grant?
        cases hanswer : response.answer with
        | refused refusal => rfl
        | accepted acceptance =>
            have hcollect : s.node.mailbox.collect = .ok response := by rw [hmailbox]; rfl
            have haccepted : (s.conclude negotiation.peer).1 = .accepted negotiation.peer := by
              simp [conclude, hcollect, hanswer]
            rw [heq] at haccepted
            exact absurd haccepted (hother negotiation.peer)
      · by_contra hcarries
        have hnone := (hpair.there.asked (by simpa using hcarries)).2.1
        rw [htaken, hdelivered] at hnone
        cases hnone
  obtain ⟨hgrant, hresponse, hrequest⟩ := hquiet
  have hover := h.hangUp hslot hm (hothers _ m hne hm) hgrant hresponse hrequest
  rw [← settle_hold _ (.opening ⟨"", .none, negotiation.purpose⟩) _ hother]
  exact hover.settle hids rfl rfl rfl rfl hother

/-! ## The acts -/

/-- What becomes of its root connector no other sees of a node. -/
theorem Fits.settleConnector (h : s.Fits g inbox u) (serial : Option Nat) (outcome : TickOutcome)
    (notice : Outcome) :
    ((s.withNode (s.node.settleConnector serial outcome)).finish notice).Fits g inbox u := by
  obtain ⟨connector, hc⟩ := s.node.settleConnector_cases serial outcome
  exact h.aside rfl hc

/-- A search is to begin. -/
theorem Fits.search (h : s.Fits g inbox u) (hidle : s.node.isEngaged = false)
    {dead : Option Peer}
    (hcalm : ∀ v m, v ≠ u → g.node? v = some m → (dead.any fun q => q.id = v) = false →
      carries (inbox v) .loss = false ∧ carries (s.outside.out v) .loss = false ∧
        carries (inbox v) .news = false) (asRoot : Bool) (connector : Option Nat) :
    (s.search dead asRoot connector).Fits g inbox u := by
  unfold Session.search
  split
  · exact h.settleConnector _ _ _
  · dsimp only
    split
    · exact h.settleConnector _ _ _
    · rename_i hroot
      have hfork : ((s.withPosition { s.node.position with
          global := s.node.position.global.withoutHint }).note
            (.startSearch (dead.map Peer.id) asRoot)).Fits g inbox u :=
        h.aside (by simp) (node_note ..)
      refine hfork.engage (by rw [node_note]; exact hidle) (by rw [node_note]; exact hroot) rfl
        rfl fun v m hv hm hdead => ?_
      simpa using hcalm v m hv hm hdead

/-- The node is to ask the peer at a URL. -/
theorem Fits.join (h : s.Fits g inbox u) (hidle : s.node.isEngaged = false)
    (hcalm : ∀ v, carries (inbox v) .loss = false ∧ carries (s.outside.out v) .loss = false ∧
      carries (inbox v) .news = false) (url : String) :
    (s.join url).Fits g inbox u := by
  unfold Session.join
  split
  · exact h.aside rfl rfl
  · rename_i hroot
    exact h.engage hidle hroot rfl rfl fun v _ _ _ _ => hcalm v

/-- How a node that is to found a tree stands towards others. -/
theorem stance_founding {n : Node} {repair : Bool}
    (hslot : n.slot.holder = some (.founding repair)) (v : NodeId) :
    n.stance v = ⟨n.position.has v, n.position.under v && repair, n.position.rank,
      if n.position.under v && repair then n.position.fatherDepth else none, false, false, none,
      false, false⟩ := by
  cases repair <;>
    simp [Node.stance, Node.isParting, Node.isLooking, hslot, Holder.isParting, Holder.leaves,
      Holder.links, Holder.negotiation?, Holder.awaits, Holder.isLooking, Holder.dead,
      Holder.search?]

/-- A root that was to found a tree lets go of its slot. -/
theorem Fits.settled (h : s.Fits g inbox u) {repair : Bool}
    (hslot : s.node.slot.holder = some (.founding repair)) (hroot : s.node.position.father = none)
    (hstands : s.node.position.Stands fun _ _ => True) : s.release.Fits g inbox u := by
  have hunder : ∀ v, s.node.position.under v = false := fun v => by simp [Position.under, hroot]
  refine h.quiet rfl rfl (h.solo.free hstands) fun v => ?_
  rw [node_release, Node.stance_free, stance_founding hslot, hunder]
  simp

/-- A node that has no father, or has forgotten it, founds a new tree, unless it is to do so for
want of a father and has stopped. -/
theorem Fits.found (h : s.Fits g inbox u) (hids : ∀ v k, g.node? v = some k → k.self.id = v)
    {repair : Bool} (hslot : s.node.slot.holder = some (.founding repair))
    (hothers : ∀ v k, v ≠ u → g.node? v = some k → k.isEngaged = false) :
    (s.found repair).Fits g inbox u := by
  have hroot : repair = true → s.node.position.father = none := by
    rintro rfl
    exact h.solo.root (by simp [Node.isSeeking, hslot, Holder.isSeeking])
  have hunder : ∀ v, (s.node.stance v).under = false := by
    intro v
    rw [stance_founding hslot]
    cases repair with
    | true => simp [Position.under, hroot rfl]
    | false => simp
  have hnew : s.newTree.Fits g inbox u :=
    h.newTree hids hunder (fun v => by simp [hslot, Holder.leaves]) fun v m hv hm =>
      h.ungranted hv hm (hothers v m hv hm)
  have hslot' : s.newTree.node.slot.holder = some (.founding repair) := by
    rw [node_newTree, hslot]
  have hfree : s.newTree.release.Fits g inbox u := by
    refine hnew.settled hslot' ?_ ?_ <;> rw [node_newTree]
    · rfl
    · exact Position.stands_of_root rfl rfl
  cases repair with
  | true =>
      have hstays : s.node.isParting = false := by simp [Node.isParting, hslot, Holder.isParting]
      unfold Session.found
      split
      · cases hstopped : s.node.stopped with
        | true => exact (h.settled hslot (hroot rfl) (h.solo.stands hstays)).aside rfl rfl
        | false => exact hfree.aside rfl rfl
      · contradiction
  | false =>
      unfold Session.found
      split
      · contradiction
      · dsimp only
        split
        · exact hfree
        · exact hfree.aside rfl rfl

/-- A reconfiguration goes on by one step. -/
theorem Fits.advance (h : s.Fits g inbox u)
    (hids : ∀ v k, g.node? v = some k → k.self.id = v)
    (hshuns : ∀ attempt, s.node.slot.holder = some (.opening attempt) →
      ∀ p, g.atlas.resolve attempt.url = some p → (s.node.stance p.id).shuns = false)
    (hothers : ∀ v k, v ≠ u → g.node? v = some k → k.isEngaged = false) :
    s.advance.Fits g inbox u := by
  match hslot : s.node.slot.holder with
  | none | some .outsider | some (.negotiating _) =>
      rw [advance_of_not_ready (by simp [Node.isReady, hslot, Holder.isReady])]
      exact h
  | some (.searching search) =>
      rw [advance_of_searching hslot]
      exact h.draw hids hslot
  | some (.opening attempt) =>
      rw [advance_of_opening hslot]
      exact h.approach hids hslot (hshuns attempt hslot)
  | some (.asking negotiation request) =>
      rw [advance_of_asking hslot]
      exact h.submit hslot
  | some (.retreating negotiation) => exact absurd hslot (h.solo.sends negotiation)
  | some (.leaving father) =>
      rw [advance_of_leaving hslot]
      exact h.forsake hslot hothers
  | some (.founding repair) =>
      rw [advance_of_founding hslot]
      exact h.found hids hslot hothers

/-- What waited for the slot begins. -/
theorem Fits.begin (h : s.Fits g inbox u)
    (hidle : s.node.isEngaged = false)
    (hothers : ∀ v k, g.node? v = some k → k.isEngaged = false) (errand : Errand)
    (hsilent : (∀ lost, errand ≠ .repair lost) →
      ∀ v, inbox v = [] ∧ s.outside.out v = [])
    (hcalm : ∀ lost, errand = .repair lost → ∀ v m, v ≠ u → g.node? v = some m →
      lost.id ≠ v → carries (inbox v) .loss = false ∧ carries (s.outside.out v) .loss = false ∧
        carries (inbox v) .news = false) :
    (s.begin errand).Fits g inbox u := by
  have hquiet : (∀ lost, errand ≠ .repair lost) → ∀ v,
      carries (inbox v) .loss = false ∧ carries (s.outside.out v) .loss = false ∧
        carries (inbox v) .news = false := by
    intro hother v
    obtain ⟨hin, hout⟩ := hsilent hother v
    simp [hin, hout]
  cases errand with
  | repair lost =>
      refine h.search hidle (fun v m hv hm hlost => hcalm lost rfl v m hv hm ?_) _ _
      simpa using hlost
  | connect connector =>
      exact h.search hidle (fun v _ _ _ _ => hquiet (fun _ => Errand.noConfusion) v) _ _
  | join url => exact h.join hidle (hquiet fun _ => Errand.noConfusion) url
  | reroot =>
      exact h.reroot (fun v => (hsilent (fun _ => Errand.noConfusion) v).1)
        (fun v => (hsilent (fun _ => Errand.noConfusion) v).2) hidle hothers

end Session

end BrokerForest
