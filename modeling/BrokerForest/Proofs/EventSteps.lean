import BrokerForest.Proofs.ActInvariant
/-!
# Event steps: what a node experiences of others, and what parts it from them

What holds between a node at work and everyone else in its grove holds after each of its
deeds.  Most deeds are about one other: whoever it hears from, the father whose news it
heeds, the neighbor that it leaves.

Main statements:

* `Node.Alike` — states of a node that no other can tell apart;
* `Session.Fits.onMessage`, **`Session.Fits.onEvent`** — what a node experiences;
* `Session.Fits.leave`, `Session.Fits.newTree`, `Session.Fits.reroot` — what parts it from
  others.
-/

namespace BrokerForest

/-- Two places of a node that no other can tell apart. -/
structure Position.Alike (p q : Position) : Prop where
  rank : q.rank = p.rank
  father : q.father = p.father
  fatherDepth : q.fatherDepth = p.fatherDepth
  neighbors : q.neighbors = p.neighbors

namespace Position

variable {p q : Position}

theorem Alike.has (h : p.Alike q) (v : NodeId) : q.has v = p.has v := by
  rw [Position.has, h.neighbors]
  rfl

theorem Alike.under (h : p.Alike q) (v : NodeId) : q.under v = p.under v := by
  rw [Position.under, h.father]
  rfl

end Position

/-- Two states of a node that no other can tell apart. -/
structure Node.Alike (n n' : Node) : Prop where
  self : n'.self = n.self
  slot : n'.slot = n.slot
  mailbox : n'.mailbox = n.mailbox
  position : n.position.Alike n'.position

namespace Node

variable {n n' : Node} {u v : NodeId}

theorem Alike.stance (h : n.Alike n') (v : NodeId) : n'.stance v = n.stance v := by
  unfold Node.stance isLooking isParting
  rw [h.position.has, h.position.under, h.position.rank, h.position.fatherDepth, h.slot,
    h.mailbox]

/-- What holds of a node by itself depends on its name, its place, its slot and its mailbox. -/
theorem Alike.solo (h : n.Alike n') (hn : n.Solo u) : n'.Solo u := by
  refine hn.of_place h.self h.slot h.mailbox (fun hstays => ?_) ?_ ?_ (fun _ => h.position.father)
    fun _ v => ?_
  · exact (hn.stands hstays).congr h.position.rank h.position.father h.position.fatherDepth
  · rw [h.position.neighbors]
    exact hn.clients
  · rw [h.position.has, h.position.under]
    exact hn.apart
  · rw [h.position.has]
    exact id

/-- A node that waits for an answer negotiates with one peer. -/
theorem Solo.negotiates (h : n.Solo u) (hawaits : (n.stance v).awaits = true) :
    ∃ negotiation, n.slot.holder = some (.negotiating negotiation) ∧ negotiation.peer.id = v ∧
      n.mailbox.WaitsFor negotiation.peer := by
  obtain ⟨holder, hholder, hv⟩ := (Option.any_eq_true ..).1 hawaits
  cases holder with
  | negotiating negotiation =>
      exact ⟨negotiation, hholder, by simpa [Holder.awaits] using hv, h.waits _ hholder⟩
  | _ => cases hv

/-- What holds of a node by itself with another mailbox. -/
theorem Solo.withMailbox (h : n.Solo u) {mailbox : Mailbox}
    (waits : ∀ negotiation, n.slot.holder = some (.negotiating negotiation) →
      mailbox.WaitsFor negotiation.peer) : Node.Solo u { n with mailbox := mailbox } :=
  { h with waits := waits }

/-- How a node stands towards another with another mailbox. -/
theorem stance_withMailbox (n : Node) (mailbox : Mailbox) (v : NodeId) :
    { n with mailbox := mailbox }.stance v =
      { n.stance v with
        taken := if n.slot.holder.any (Holder.awaits v) then mailbox.delivered else none } := rfl

/-- What holds of a node by itself while something holds its slot. -/
theorem Solo.hold (h : n.Solo u) {holder : Holder}
    (stays : holder.isParting = false → n.isParting = false)
    (root : holder.isSeeking = true → n.position.father = none)
    (waits : ∀ negotiation, holder = .negotiating negotiation →
      n.mailbox.WaitsFor negotiation.peer)
    (linked : ∀ negotiation, holder.negotiation? = some negotiation → negotiation.peer.id ≠ u)
    (sends : ∀ negotiation, holder ≠ .retreating negotiation)
    (leaves : ∀ father, holder = .leaving father → n.position.father = some father)
    (uprooted : holder = .founding false → ∀ v, n.position.under v = true →
      n.position.has v = false) : Node.Solo u { n with slot := ⟨some holder⟩ } where
  self := h.self
  stands hstays := h.stands (stays hstays)
  clients := h.clients
  apart := h.apart
  root := root
  waits negotiation hslot := waits negotiation (Option.some.inj hslot)
  linked := linked
  sends negotiation hslot := sends negotiation (Option.some.inj hslot)
  leaves father hslot := leaves father (Option.some.inj hslot)
  uprooted huprooted := uprooted (Option.some.inj (isUprooted_iff.1 huprooted))

/-- What holds of a node by itself once it is to found a tree: its father, if it has one still,
is beside it no longer. -/
theorem Solo.found (h : n.Solo u) (hlost : ∀ v, n.position.under v = true →
    n.position.has v = false) : Node.Solo u { n with slot := ⟨some (.founding false)⟩ } := by
  refine h.hold Bool.noConfusion Bool.noConfusion ?_ ?_ ?_ ?_ fun _ => hlost
  · exact fun _ => Holder.noConfusion
  · exact fun _ hnone => by cases hnone
  · exact fun _ => Holder.noConfusion
  · exact fun _ => Holder.noConfusion

/-- What holds of a node by itself while it looks for a father, or did, and no response is
awaited. -/
theorem Solo.seek (h : n.Solo u) (hstays : n.isParting = false)
    (hroot : n.position.father = none) {holder : Holder} (hseeks : holder.isSeeking = true)
    (hwaits : holder.isWaiting = false)
    (hlinked : ∀ negotiation, holder.negotiation? = some negotiation →
      negotiation.peer.id ≠ u) : Node.Solo u { n with slot := ⟨some holder⟩ } := by
  refine h.hold (fun _ => hstays) (fun _ => hroot) ?_ hlinked ?_ ?_ ?_
  · rintro negotiation rfl
    cases hwaits
  · rintro negotiation rfl
    cases hwaits
  · rintro father rfl
    cases hseeks
  · rintro rfl
    cases hseeks

/-- How a node stands towards another while something holds its slot. -/
theorem stance_hold (n : Node) (holder : Holder) (v : NodeId) :
    { n with slot := ⟨some holder⟩ }.stance v =
      ⟨n.position.has v && !holder.leaves v, n.position.under v && !holder.isParting,
        n.position.rank,
        if n.position.under v && !holder.isParting then n.position.fatherDepth else none,
        holder.links v, holder.awaits v,
        if holder.awaits v then n.mailbox.delivered else none, holder.isLooking,
        holder.dead.any fun q => q.id = v⟩ := rfl

/-- How a node in which nothing goes on stands towards another. -/
theorem stance_of_idle (h : n.isEngaged = false) (v : NodeId) :
    n.stance v = ⟨n.position.has v, n.position.under v, n.position.rank,
      if n.position.under v then n.position.fatherDepth else none, false, false, none, false,
      false⟩ := by
  obtain ⟨hlooks, hstays, hnone⟩ := idle_of_not_engaged h
  rw [stance_of_pending hstays hnone, hlooks]
  unfold isEngaged at h
  cases hholder : n.slot.holder with
  | none => rfl
  | some holder =>
      rw [hholder] at h
      cases holder with
      | outsider => rfl
      | _ => cases h

/-- A node that waits for an answer is linked for it to one peer, and stands towards others as
its place says. -/
theorem stance_of_negotiating {negotiation : Negotiation}
    (h : n.slot.holder = some (.negotiating negotiation)) (v : NodeId) :
    n.stance v = ⟨n.position.has v, n.position.under v, n.position.rank,
      if n.position.under v then n.position.fatherDepth else none,
      decide (negotiation.peer.id = v), decide (negotiation.peer.id = v),
      if negotiation.peer.id = v then n.mailbox.delivered else none, true,
      (negotiation.purpose.search?.bind Search.dead).any fun q => q.id = v⟩ := by
  have hstays : n.isParting = false := by simp [isParting, h, Holder.isParting]
  have hlooks : n.isLooking = true := by simp [isLooking, h, Holder.isLooking]
  simp [stance, hstays, hlooks, h, Holder.awaits, Holder.links, Holder.negotiation?,
    Holder.leaves, Holder.dead, Holder.search?]

end Node

namespace Session

variable {g : Grove} {u : NodeId} {inbox inbox' : NodeId → List Event} {s t : Session Berth}

/-- What no other can tell from where a node was, holds between the same. -/
theorem Fits.alike (h : s.Fits g inbox u) (houtside : t.outside = s.outside)
    (hnode : s.node.Alike t.node) : t.Fits g inbox u :=
  h.quiet houtside hnode.self (hnode.solo h.solo) hnode.stance

/-- What a node has heard of, and what it has put off, no other sees. -/
theorem Fits.aside (h : s.Fits g inbox u) (houtside : t.outside = s.outside)
    {settings : Settings} {regional : Regional} {global : Global} {errands : List Errand}
    {connector : Option Connector} {connectors : Nat} {stopped : Bool}
    (hnode : t.node =
      { s.node with
        settings := settings
        position := { s.node.position with regional := regional, global := global }
        errands := errands
        connector := connector
        connectors := connectors
        stopped := stopped }) : t.Fits g inbox u := by
  apply h.alike houtside
  rw [hnode]
  exact ⟨rfl, rfl, rfl, ⟨rfl, rfl, rfl, rfl⟩⟩

/-! ## What a node experiences -/

/-- A response is delivered. -/
theorem Fits.onResponse (h : s.Fits g inbox u) {origin : Peer} {response : Response}
    {later : List Event} (hne : origin.id ≠ u)
    (hin : inbox origin.id = .message origin (.response response) :: later) :
    (s.onResponse origin response).Fits g (Function.update inbox origin.id later) u := by
  obtain ⟨m, hm⟩ := h.live hne hin rfl
  have hpair := (h.facing origin.id hne).pair hm
  rw [hin] at hpair
  obtain ⟨hawaits, htaken⟩ := hpair.here.answered (by simp [Event.matter])
  obtain ⟨negotiation, hslot, hid, hwaits⟩ := h.solo.negotiates hawaits
  have hdelivered : s.node.mailbox.delivered = none := by
    simpa [Node.stance_of_negotiating hslot, hid] using htaken
  have hmailbox : s.node.mailbox = (Wait.waiting negotiation.peer).mailbox := by
    refine hwaits.resolve_right ?_
    rintro ⟨response', hdone⟩
    rw [hdone] at hdelivered
    cases hdelivered
  have hsame : origin.same negotiation.peer = true := Peer.same_iff.2 hid.symm
  have ht : s.onResponse origin response =
      s.withMailbox (Wait.delivered negotiation.peer response).mailbox := by
    simp [Session.onResponse, Mailbox.deliver, hmailbox, Wait.mailbox, Mailbox.shut, hsame,
      withMailbox]
  rw [ht]
  refine h.toward hne rfl rfl (h.solo.withMailbox fun negotiation' hslot' => ?_)
    (fun w hw => Function.update_of_ne hw _ _) ?_ (fun _ _ => rfl) (fun _ _ => rfl) ?_
  · obtain rfl : negotiation = negotiation' := by simpa [hslot] using hslot'
    exact Or.inr ⟨response, rfl⟩
  · intro w hw
    have hw' : s.node.slot.holder.any (Holder.awaits w) = false := by
      simp only [hslot, Option.any_some, Holder.awaits, decide_eq_false_iff_not]
      rintro rfl
      exact hw hid
    rw [node_withMailbox, Node.stance_withMailbox]
    simp [Node.stance, hw']
  · have hv : s.node.slot.holder.any (Holder.awaits origin.id) = true := by
      simpa [hslot, Holder.awaits] using hid
    rw [node_withMailbox, Node.stance_withMailbox, if_pos hv, hm, Function.update_self]
    exact hpair.hear

/-! ### News of the father

A node on its way out of its tree still heeds the father that it is about to leave, although
nothing depends on it any more. -/

/-- What a node on its way out of its tree takes its father for no other sees. -/
theorem Fits.note_of_parting (h : s.Fits g inbox u) (hparting : s.node.isParting = true)
    {p : Position} (hrank : p.rank = s.node.position.rank)
    (hfather : p.father = s.node.position.father)
    (hneighbors : p.neighbors = s.node.position.neighbors) :
    (s.withPosition p).Fits g inbox u := by
  have hhas : ∀ v, p.has v = s.node.position.has v := fun v => by
    simp [Position.has, hneighbors]
  have hunder : ∀ v, p.under v = s.node.position.under v := fun v => by
    simp [Position.under, hfather]
  refine h.quiet rfl rfl ?_ fun v => ?_
  · refine h.solo.of_place rfl rfl rfl (fun hstays => ?_) ?_ ?_ (fun _ => hfather) fun _ v => ?_
    · rw [hparting] at hstays
      cases hstays
    · exact hneighbors ▸ h.solo.clients
    · rw [node_withPosition, hhas, hunder]
      exact h.solo.apart
    · rw [node_withPosition, hhas]
      exact id
  · rw [node_withPosition, Node.stance_withPosition, hhas, hunder, hrank]
    simp [Node.stance, hparting]

/-- What a node takes its father for, and what is to become of it. -/
theorem Fits.told (h : s.Fits g inbox u) {v : NodeId} {m : Node} (hv : v ≠ u)
    (hm : g.node? v = some m) (hstays : s.node.isParting = false)
    (hunder : s.node.position.under v = true) :
    ∃ floor, s.node.position.fatherDepth = some floor ∧ floor < s.node.position.rank.depth ∧
      News s.node.self (· = (m.stance u).rank) (inbox v)
        ⟨s.node.position.rank.color, floor⟩ := by
  have hpair := (h.facing v hv).pair hm
  rw [h.solo.self] at hpair
  obtain ⟨-, hunder', hfloor'⟩ := Node.stance_of_not_parting hstays v
  obtain ⟨floor, hfloor, hnews⟩ := hpair.here.told (hunder'.trans hunder)
  have hdepth : s.node.position.fatherDepth = some floor := by
    rwa [hfloor', if_pos hunder] at hfloor
  obtain ⟨father, hfather, _⟩ := (Option.any_eq_true ..).1 hunder
  obtain ⟨floor', hfloor', hlt, _⟩ := (h.solo.stands hstays).beneath father hfather
  rw [hdepth] at hfloor'
  cases hfloor'
  exact ⟨floor, hdepth, hlt, hnews⟩

/-- Whose news the node experiences, its father, lives and has told it of a rank above its own. -/
theorem Fits.from_father (h : s.Fits g inbox u) {origin : Peer} {e : Event} {later : List Event}
    (hne : origin.id ≠ u) (hstays : s.node.isParting = false)
    (hf : s.node.position.isFather origin = true)
    (hin : inbox origin.id = e :: later) (he : e.isDeath = false) :
    ∃ m floor, g.node? origin.id = some m ∧ (s.node.stance origin.id).under = true ∧
      floor < s.node.position.rank.depth ∧
        News s.node.self (· = (m.stance u).rank) (e :: later)
          ⟨s.node.position.rank.color, floor⟩ ∧
        PairInvariant s.node.self m.self (s.node.stance origin.id) (m.stance s.node.self.id)
          (e :: later)
          (s.outside.out origin.id) (s.outside.refs origin.id) := by
  obtain ⟨m, hm⟩ := h.live hne hin he
  have hunder : s.node.position.under origin.id = true := by rwa [Position.under_id]
  obtain ⟨floor, _, hlt, hnews⟩ := h.told hne hm hstays hunder
  have hpair := (h.facing origin.id hne).pair hm
  rw [hin] at hnews hpair
  rw [← (Node.stance_of_not_parting hstays origin.id).2.1] at hunder
  exact ⟨m, floor, hm, hunder, hlt, hnews, hpair⟩

/-- A node takes note of another depth of its father's. -/
theorem Fits.note_depth (h : s.Fits g inbox u) {p : Position} {origin : Peer} {depth : Depth}
    {later : List Event} (hne : origin.id ≠ u) (hstays : s.node.isParting = false)
    (hf : s.node.position.isFather origin = true)
    (hrank : p.rank = s.node.position.rank) (hfather : p.father = s.node.position.father)
    (hneighbors : p.neighbors = s.node.position.neighbors) (hdepth : p.fatherDepth = some depth)
    (hlt : depth < s.node.position.rank.depth)
    (hfacing : Facing (g.node? origin.id) s.node.self
      { s.node.stance origin.id with floor := some depth } later (s.outside.out origin.id)
      (s.outside.refs origin.id)) :
    (s.withPosition p).Fits g (Function.update inbox origin.id later) u := by
  have hhas : ∀ v, p.has v = s.node.position.has v := fun v => by
    simp [Position.has, hneighbors]
  have hunder : ∀ v, p.under v = s.node.position.under v := fun v => by
    simp [Position.under, hfather]
  have hup : s.node.position.under origin.id = true := by rwa [Position.under_id]
  have hnode : (s.withPosition p).node = { s.node with position := p } := rfl
  have hstance : ∀ v, (s.withPosition p).node.stance v =
      { s.node.stance v with
        floor := if s.node.position.under v then some depth else none } := by
    intro v
    rw [hnode, Node.stance_withPosition, hhas, hunder, hrank, hdepth]
    simp [Node.stance, hstays]
  refine h.toward hne rfl rfl ?_ (fun w hw => Function.update_of_ne hw _ _) ?_
    (fun _ _ => rfl) (fun _ _ => rfl) ?_
  · obtain ⟨father, hsome, _⟩ := Peer.isThe_iff.1 hf
    refine h.solo.of_place rfl rfl rfl
      (fun _ => Position.stands_of_told (hfather.trans hsome) hrank hdepth hlt trivial) ?_ ?_
      (fun _ => hfather) fun hparting => by simp [hstays] at hparting
    · exact hneighbors ▸ h.solo.clients
    · rw [hnode, hhas, hunder]
      exact h.solo.apart
  · intro w hw
    have hnot : s.node.position.under w = false := by
      rw [Position.under_of_under hup]
      simpa using hw
    rw [hstance, hnot]
    simp [Node.stance, hnot]
  · rw [hstance, hup, if_pos rfl, Function.update_self]
    exact hfacing

/-- The father tells of a sibling that is gone. -/
theorem Fits.onSiblingDead (h : s.Fits g inbox u) {origin : Peer} {news : SiblingDead}
    {later : List Event} (hne : origin.id ≠ u) (hstays : s.node.isParting = false)
    (hf : s.node.position.isFather origin = true)
    (hin : inbox origin.id = .message origin (.siblingDead news) :: later) :
    (s.withPosition (s.node.position.onSiblingDead s.node.self news)).Fits g
      (Function.update inbox origin.id later) u := by
  obtain ⟨m, floor, hm, hup, hlt, hnews, hpair⟩ := h.from_father hne hstays hf hin rfl
  simp only [News, Event.matter, reduceCtorEq, false_or] at hnews
  refine h.note_depth hne hstays hf rfl rfl rfl rfl ?_ (hm ▸ hpair.heedSiblingDead hup)
  rcases hnews.1 with heq | hless
  · rwa [heq]
  · exact Depth.lt_trans hless hlt

/-- The father tells of a new sibling. -/
theorem Fits.onNewSibling (h : s.Fits g inbox u) {origin : Peer} {news : NewSibling}
    {later : List Event} (hne : origin.id ≠ u) (hstays : s.node.isParting = false)
    (hf : s.node.position.isFather origin = true)
    (hin : inbox origin.id = .message origin (.newSibling news) :: later) :
    news.sibling.same s.node.self = false ∧
      (s.withPosition (s.node.position.onNewSibling s.node.self news)).Fits g
        (Function.update inbox origin.id later) u := by
  obtain ⟨m, floor, hm, hup, hlt, hnews, hpair⟩ := h.from_father hne hstays hf hin rfl
  simp only [News, Event.matter, reduceCtorEq, false_or] at hnews
  refine ⟨hnews.1, h.note_depth hne hstays hf rfl rfl rfl rfl ?_ (hm ▸ hpair.heedNewSibling hup)⟩
  rcases hnews.2.1 with heq | hless
  · rwa [heq]
  · exact Depth.lt_trans hless hlt

end Session

/-- A node whose color and depth have not changed has the rank that it had. -/
theorem Position.rank_settle_of_unchanged {p : Position} {rank : Rank} {ws : Words}
    (hcolor : (p.settle rank ws).1.color = false) (hdepth : (p.settle rank ws).1.depth = false) :
    (p.settle rank ws).2.1.rank = p.rank := by
  unfold settle at hcolor hdepth ⊢
  dsimp only at hcolor hdepth ⊢
  split at hcolor
  · rename_i hkin
    rw [if_pos hkin] at hdepth ⊢
    split at hdepth
    · cases hdepth
    · simp
  · cases hcolor

namespace Session

variable {g : Grove} {u : NodeId} {inbox inbox' : NodeId → List Event} {s t : Session Berth}

/-- What a node tells its children when it heeds its father's news. -/
def tidings (s : Session Berth) (news : Update) : List Message :=
  let settled := s.node.position.heed news s.words
  if settled.1.color || settled.1.depth || 0 < news.hops then
    [.update ⟨settled.2.1.rank,
      { s.node with position := settled.2.1 }.chain, news.hopsLeft⟩]
  else []

/-- The children are told of what the father told. -/
theorem outside_onUpdate (s : Session Berth) {origin : Peer} (news : Update)
    (hf : s.node.position.isFather origin = true) (v : NodeId) :
    (s.onUpdate origin news).outside.toPost = s.outside.toPost ∧
      (s.onUpdate origin news).outside.refs = s.outside.refs ∧
        (s.onUpdate origin news).outside.out v =
          if s.node.position.has v && !s.node.position.under v &&
              decide (s.outside.refs v ≠ 0) then
            s.outside.out v ++ (s.tidings news).map (.message s.outside.own)
          else s.outside.out v := by
  rw [onUpdate_eq, if_pos hf]
  dsimp only
  unfold tidings
  dsimp only
  split
  · refine ⟨by simp, by simp, ?_⟩
    rw [out_sendAll_children, Position.has_heed, Position.under_heed]
    rfl
  · refine ⟨rfl, rfl, ?_⟩
    simp

theorem tidings_tidings (s : Session Berth) (news : Update) (sibling : Peer → Prop) :
    Tidings sibling s.node.position.rank (s.tidings news)
      (s.node.position.heed news s.words).2.1.rank := by
  unfold tidings
  dsimp only
  split
  · exact Tidings.update ⟨(s.node.position.heed news s.words).2.1.rank, _, _⟩
  · rename_i hquiet
    simp only [Bool.or_eq_true, not_or, Bool.not_eq_true] at hquiet
    have hsame := Position.rank_settle_of_unchanged hquiet.1.1 hquiet.1.2
    rw [Position.heed, hsame]
    exact Tidings.none _

/-- How a node that heeds its father stands towards another. -/
theorem stance_onUpdate {origin : Peer} {news : Update}
    (hf : s.node.position.isFather origin = true) (v : NodeId) :
    (s.onUpdate origin news).node.stance v =
      { s.node.stance v with
        rank := (s.onUpdate origin news).node.position.rank
        floor := if (s.node.stance v).under then some news.rank.depth else none } := by
  rw [node_onUpdate_of_father hf, Node.stance_withPosition, Position.has_heed,
    Position.under_heed, Position.fatherDepth_heed]
  rfl

/-- A node that heeds its father holds by itself what held. -/
theorem solo_onUpdate (h : s.node.Solo u) {origin : Peer} {news : Update}
    (hf : s.node.position.isFather origin = true) (room : news.rank.depth.Roomy s.words) :
    (s.onUpdate origin news).node.Solo u := by
  obtain ⟨father, hsome, _⟩ := Peer.isThe_iff.1 hf
  obtain ⟨hfather, hneighbors, -, -⟩ := s.node.position.heed_frame news s.words
  have hhas := fun v => s.node.position.has_heed news s.words v
  rw [node_onUpdate_of_father hf]
  refine h.of_place rfl rfl rfl (fun _ => Position.stands_settle hsome trivial room) ?_ ?_
    (fun _ => hfather) fun _ v => ?_
  · exact hneighbors ▸ h.clients
  · rw [hhas, Position.under_heed]
    exact h.apart
  · rw [hhas]
    exact id

/-- The father tells of its rank and its chain. -/
theorem Fits.onUpdate (h : s.Fits g inbox u)
    (hids : ∀ v m, g.node? v = some m → m.self.id = v) {origin : Peer} {news : Update}
    {later : List Event} (hne : origin.id ≠ u) (hf : s.node.position.isFather origin = true)
    (hin : inbox origin.id = .message origin (.update news) :: later)
    (room : news.rank.depth.Roomy s.words)
    (hgrants : ∀ v m, v ≠ u → g.node? v = some m →
      grant (m.stance u).taken (s.outside.out v) = none) :
    (s.onUpdate origin news).Fits g (Function.update inbox origin.id later) u := by
  have hout := s.outside_onUpdate news hf
  have hstance (v : NodeId) : (s.onUpdate origin news).node.stance v = _ := stance_onUpdate hf v
  have hsolo := solo_onUpdate h.solo hf room
  have hself : (s.onUpdate origin news).node.self = s.node.self := by
    rw [node_onUpdate_of_father hf]
  have htidings (sibling : Peer → Prop) : Tidings sibling s.node.position.rank (s.tidings news)
      (s.onUpdate origin news).node.position.rank := by
    rw [node_onUpdate_of_father hf]
    exact s.tidings_tidings news _
  -- Whoever is not the father hears at most what is told to the children.
  have hspreads : ∀ v, (s.node.stance v).under = false →
      s.Spreads (s.onUpdate origin news) (s.tidings news) false v := by
    intro v hunder
    refine ⟨?_, congrFun (hout v).2.1 v, (hout v).2.2⟩
    have hfloor : (s.node.stance v).floor = none := by
      simp only [Node.stance] at hunder
      simp [Node.stance, hunder]
    rw [hstance, hunder, if_neg Bool.false_ne_true]
    simp [Stance.turn, hfloor]
  cases hparting : s.node.isParting with
  | true =>
      have hnobody : ∀ v, (s.node.stance v).under = false := fun v => by
        simp [Node.stance, hparting]
      have hpop := h.pop hne hin (by simp [Event.matter]) (by simp [Event.matter])
        fun _ => hnobody _
      refine hpop.spread (fun _ => False) (s.tidings news) false hids (hout u).1 hself hsolo
        (fun v _ => hspreads v (hnobody v)) (fun _ => False.elim) (fun _ _ => rfl) (htidings _)
        (Or.inr fun v k _ => hgrants v k) (fun v _ hunder => ?_) (by simp)
      rw [hnobody] at hunder
      cases hunder
  | false =>
      obtain ⟨m, floor, hm, hup, -, -, hpair⟩ := h.from_father hne hparting hf hin rfl
      have hup' : s.node.position.under origin.id = true := by rwa [Position.under_id]
      have hunder : ∀ v, v ≠ origin.id → (s.node.stance v).under = false := by
        intro v hv
        rw [(Node.stance_of_not_parting hparting v).2.1, Position.under_of_under hup']
        simpa using hv
      refine h.spread (· = origin.id) (s.tidings news) false hids (hout u).1 hself hsolo
        (fun v hv => hspreads v (hunder v hv)) ?_ (fun w hw => Function.update_of_ne hw _ _)
        (htidings _) (Or.inr fun v k _ => hgrants v k) (fun v hv hunder' => ?_) (by simp)
      · rintro v rfl
        refine ⟨hne, ?_⟩
        have hcolor : (s.onUpdate origin news).node.position.rank.color = news.rank.color := by
          rw [node_onUpdate_of_father hf]
          exact Position.color_settle ..
        rw [hstance, hup, if_pos rfl, (hout origin.id).2.1, (hout origin.id).2.2, hup',
          if_neg (by simp), hm, Function.update_self]
        exact hpair.heed hup hcolor
      · rw [hunder v hv] at hunder'
        cases hunder'

/-- A wait for another peer is not given up. -/
theorem Fits.cancel (h : s.Fits g inbox u) {peer : Peer} {e : Event} {later : List Event}
    (hne : peer.id ≠ u) (hin : inbox peer.id = e :: later) (he : e.matter = .loss) :
    (s.withMailbox (s.node.mailbox.cancel peer)).Fits g inbox u := by
  have hlinks : (s.node.stance peer.id).links = false := by
    have hfacing := h.facing peer.id hne
    rw [hin] at hfacing
    exact hfacing.links_eq_false he
  refine h.quiet rfl rfl (h.solo.withMailbox fun negotiation hslot => ?_) fun v => ?_
  · have hother : ¬negotiation.peer.id = peer.id := by
      simpa [Node.stance_of_negotiating hslot] using hlinks
    have hexpects : s.node.mailbox.expects peer = false := by
      have hother' : ¬peer.id = negotiation.peer.id := fun heq => hother heq.symm
      rcases h.solo.waits negotiation hslot with hmailbox | ⟨response, hmailbox⟩ <;>
        simp [Mailbox.expects, Peer.isThe, Peer.same, hmailbox, Wait.mailbox, hother']
    rw [Mailbox.cancel, hexpects]
    exact h.solo.waits negotiation hslot
  · rw [node_withMailbox, Node.stance_withMailbox, (s.node.mailbox.cancel_frame peer).2]
    rfl

/-- A message that is neither a farewell nor an answer nor news of the father may be passed
over. -/
theorem Fits.passOver (h : s.Fits g inbox u) {origin : Peer} {message : Message}
    {later : List Event} (hne : origin.id ≠ u)
    (hin : inbox origin.id = .message origin message :: later)
    (hloss : (Event.message origin message).matter ≠ .loss)
    (hresponse : (Event.message origin message).matter ≠ .response)
    (hnews : (Event.message origin message).matter = .news →
      s.node.position.isFather origin = false) :
    s.Fits g (Function.update inbox origin.id later) u := by
  refine h.pop hne hin hloss hresponse fun he => ?_
  have hunder : s.node.position.under origin.id = false := by
    rw [Position.under_id]
    exact hnews he
  simp [Node.stance, hunder]

/-- A message is experienced.  An update finds nobody who was accepted and does not know it,
if the node has a father. -/
theorem Fits.onMessage (h : s.Fits g inbox u)
    (hids : ∀ v k, g.node? v = some k → k.self.id = v) (hone : g.OneAtATime)
    (hu : ∃ n, g.node? u = some n ∧ n.isEngaged = s.node.isEngaged) {origin : Peer}
    {message : Message} {later : List Event} (hne : origin.id ≠ u)
    (hknown : origin ∈ g.atlas.peers) (hin : inbox origin.id = .message origin message :: later)
    (room : (Act.event (.message origin message)).Roomy s.node s.words)
    (hgrants : ∀ news, message = .update news → s.node.position.father ≠ none →
      ∀ v m, v ≠ u → g.node? v = some m → grant (m.stance u).taken (s.outside.out v) = none) :
    (s.onMessage origin message).Fits g (Function.update inbox origin.id later) u := by
  cases message with
  | request request => exact h.examine hids hone hu hne hknown hin room.1 room.2
  | response response => exact h.onResponse hne hin
  | siblingDead news =>
      simp only [Session.onMessage]
      cases hf : s.node.position.isFather origin with
      | true =>
          cases hparting : s.node.isParting with
          | true =>
              refine Fits.note_of_parting (h.pop hne hin ?_ ?_ fun _ => ?_) hparting rfl rfl rfl
              · simp [Event.matter]
              · simp [Event.matter]
              · simp [Node.stance, hparting]
          | false => exact h.onSiblingDead hne hparting hf hin
      | false =>
          exact h.passOver hne hin (by simp [Event.matter]) (by simp [Event.matter]) fun _ => hf
  | update news =>
      change (s.onUpdate origin news).Fits _ _ _
      cases hf : s.node.position.isFather origin with
      | true =>
          refine h.onUpdate hids hne hf hin room (hgrants news rfl ?_)
          obtain ⟨father, hfather, _⟩ := Peer.isThe_iff.1 hf
          simp [hfather]
      | false =>
          rw [onUpdate_of_not_father hf]
          exact h.passOver hne hin (by simp [Event.matter]) (by simp [Event.matter]) fun _ => hf
  | newSibling news =>
      simp only [Session.onMessage]
      cases hf : s.node.position.isFather origin with
      | true =>
          cases hparting : s.node.isParting with
          | true =>
              have hpop : s.Fits g (Function.update inbox origin.id later) u := by
                refine h.pop hne hin ?_ ?_ fun _ => ?_
                · simp [Event.matter]
                · simp [Event.matter]
                · simp [Node.stance, hparting]
              split
              · exact hpop.note_of_parting hparting rfl rfl rfl
              · exact hpop
          | false =>
              obtain ⟨hother, hfits⟩ := h.onNewSibling hne hparting hf hin
              simpa [hother] using hfits
      | false =>
          exact h.passOver hne hin (by simp [Event.matter]) (by simp [Event.matter]) fun _ => hf
  | candidates peers =>
      have hpassed := h.passOver hne hin (by simp [Event.matter]) (by simp [Event.matter])
        (by simp [Event.matter])
      exact hpassed.aside rfl rfl
  | goodCandidate peer =>
      have hpassed := h.passOver hne hin (by simp [Event.matter]) (by simp [Event.matter])
        (by simp [Event.matter])
      simp only [Session.onMessage, Position.onGoodCandidate]
      split <;> exact hpassed.aside rfl rfl
  | noLongerChild => exact h.depart hids hne hin rfl

end Session

/-- Whom an event comes from. -/
def Event.source : Event → Peer
  | .message origin _ => origin
  | .opened peer | .closed peer | .dead peer => peer

namespace Session

variable {g : Grove} {u : NodeId} {inbox inbox' : NodeId → List Event} {s t : Session Berth}

/-- Anything is experienced. -/
theorem Fits.onEvent (h : s.Fits g inbox u)
    (hids : ∀ v k, g.node? v = some k → k.self.id = v) (hone : g.OneAtATime)
    (hu : ∃ n, g.node? u = some n ∧ n.isEngaged = s.node.isEngaged) {e : Event}
    {later : List Event} (hne : e.source.id ≠ u) (hknown : e.source ∈ g.atlas.peers)
    (hin : inbox e.source.id = e :: later) (room : (Act.event e).Roomy s.node s.words)
    (hgrants : ∀ origin news, e = .message origin (.update news) →
      s.node.position.father ≠ none → ∀ v m, v ≠ u → g.node? v = some m →
        grant (m.stance u).taken (s.outside.out v) = none) :
    (s.onEvent e).Fits g (Function.update inbox e.source.id later) u := by
  cases e with
  | message origin message =>
      exact h.onMessage hids hone hu hne hknown hin room fun news hnews =>
        hgrants origin news (by rw [hnews])
  | opened peer =>
      have hbroker : peer.broker = true := g.atlas.brokers peer hknown
      simp only [Session.onEvent, hbroker, if_true]
      exact h.pop hne hin (by simp [Event.matter]) (by simp [Event.matter])
        (by simp [Event.matter])
  | closed peer => exact (h.cancel hne hin rfl).depart hids hne hin rfl
  | dead peer => exact (h.cancel hne hin rfl).depart hids hne hin rfl

/-! ## What parts a node from others -/

/-- While nothing is on its way and nobody looks for a father, a neighbor lives, and both ends
refer to the link with it. -/
theorem Fits.neighbor (h : s.Fits g inbox u) (hin : ∀ v, inbox v = [])
    (hout : ∀ v, s.outside.out v = []) (hothers : ∀ v k, g.node? v = some k → k.isEngaged = false)
    {v : NodeId} (hv : v ≠ u) (hhas : (s.node.stance v).has = true) :
    ∃ m, g.node? v = some m ∧
      PairInvariant s.node.self m.self (s.node.stance v) (m.stance s.node.self.id) [] []
        (s.outside.refs v) ∧
      (m.stance s.node.self.id).engaged = false ∧ (m.stance s.node.self.id).links = false ∧
        s.outside.refs v ≠ 0 ∧ s.outside.refs v ≠ 1 := by
  have hfacing := h.facing v hv
  rw [hin, hout] at hfacing
  cases hm : g.node? v with
  | none =>
      have hw := hfacing.widow hm
      exact absurd rfl (hw.told hhas)
  | some m =>
      have hpair := hfacing.pair hm
      have hidle := Node.stance_of_idle (hothers v m hm) s.node.self.id
      have hlooks : (m.stance s.node.self.id).engaged = false := by rw [hidle]
      refine ⟨m, rfl, hpair, hlooks, by rw [hidle], ?_, hpair.refs_of_rest hhas hlooks⟩
      rw [hpair.refs, hhas, Bool.toNat_true]
      omega

/-- A neighbor is left, while nothing is on its way and nobody looks for a father. -/
theorem Fits.leave (h : s.Fits g inbox u) (hids : ∀ v k, g.node? v = some k → k.self.id = v)
    (hin : ∀ v, inbox v = []) (hout : ∀ v, s.outside.out v = [])
    (hidle : s.node.isEngaged = false) (hothers : ∀ v k, g.node? v = some k → k.isEngaged = false)
    {peer : Peer} (hhas : s.node.position.has peer.id = true) :
    ((s.tell peer .noLongerChild).depart peer).Fits g inbox u := by
  have hne : peer.id ≠ u := by
    intro heq
    rw [heq, h.solo.apart.1] at hhas
    cases hhas
  obtain ⟨hlooks, hstays, -⟩ := Node.idle_of_not_engaged hidle
  have hhas' : (s.node.stance peer.id).has = true := by
    rw [(Node.stance_of_not_parting hstays peer.id).1, hhas]
  obtain ⟨m, hm, hpair, hlooks', hlinks', hzero, hone⟩ :=
    h.neighbor hin hout hothers hne hhas'
  refine h.parted hids hne (Node.leaves_of_not_parting hstays _) rfl (by simp) (by simp)
    (fun v hv => ?_) (fun _ _ => rfl) ?_
  · simp [Berth.out_send, hv]
  · have hsent : (s.tell peer .noLongerChild).outside.out peer.id =
        [.message s.outside.own .noLongerChild] := by
      simp [Berth.out_send, hzero, hout]
    rw [hm, hhas, if_neg (by simpa using hone), hsent, hin]
    exact hpair.leave hhas' hlooks hlooks' hlinks'

/-- A node stands alike towards all but the father that it leaves, which it counts as gone. -/
theorem stance_leaving {n : Node} (hidle : n.isEngaged = false) {father : Peer}
    (hfather : n.position.father = some father) (v : NodeId) :
    { n with slot := ⟨some (.leaving father)⟩ }.stance v =
      if v = father.id then
        { n.stance v with has := false, under := false, floor := none, links := true }
      else n.stance v := by
  have hunder : n.position.under v = decide (father.id = v) := by simp [Position.under, hfather]
  rw [Node.stance_hold, Node.stance_of_idle hidle, hunder]
  by_cases hv : father.id = v
  · simp [Holder.leaves, Holder.links, Holder.negotiation?, Holder.awaits, Holder.isLooking,
      Holder.isParting, Holder.dead, Holder.search?, hv]
  · simp [Holder.leaves, Holder.links, Holder.negotiation?, Holder.awaits, Holder.isLooking,
      Holder.isParting, Holder.dead, Holder.search?, hv, Ne.symm hv]

/-- A node tells its father that it leaves it, while nothing is on its way and nobody looks for
a father. -/
theorem Fits.takeLeave (h : s.Fits g inbox u) (hin : ∀ v, inbox v = [])
    (hout : ∀ v, s.outside.out v = []) (hidle : s.node.isEngaged = false)
    (hothers : ∀ v k, g.node? v = some k → k.isEngaged = false) {father : Peer}
    (hfather : s.node.position.father = some father) :
    ((s.tell father .noLongerChild).hold (.leaving father)).Fits g inbox u := by
  have hstance := fun v => Node.stance_of_idle hidle v
  obtain ⟨-, hstays, -⟩ := Node.idle_of_not_engaged hidle
  have hunder : ∀ v, s.node.position.under v = decide (father.id = v) := fun v => by
    simp [Position.under, hfather]
  have hne : father.id ≠ u := by
    intro heq
    have hself := h.solo.apart.2
    rw [hunder, heq, decide_eq_true rfl] at hself
    cases hself
  have hhas : (s.node.stance father.id).has = true := by
    apply h.beside hne
    rw [hstance, hunder, decide_eq_true rfl]
  obtain ⟨m, hm, hpair, hlooks', hlinks', hzero, -⟩ := h.neighbor hin hout hothers hne hhas
  refine h.toward hne (by simp) (by simp) ?_ (fun _ _ => rfl) (fun w hw => ?_) ?_ ?_ ?_
  · rw [node_hold, node_tell]
    refine h.solo.hold (fun _ => hstays) Bool.noConfusion ?_ ?_ ?_ ?_ Holder.noConfusion
    · exact fun _ => Holder.noConfusion
    · exact fun _ hnone => by cases hnone
    · exact fun _ => Holder.noConfusion
    · intro father' heq
      rwa [Holder.leaving.inj heq] at hfather
  · rw [node_hold, node_tell, stance_leaving hidle hfather, if_neg hw]
  · simp
  · intro w hw
    simp [Berth.out_send, hw]
  · have hsent : ((s.tell father .noLongerChild).hold (.leaving father)).outside.out
        father.id = [.message s.outside.own .noLongerChild] := by
      simp [Berth.out_send, hzero, hout]
    rw [hm, hsent, hin, node_hold, node_tell, stance_leaving hidle hfather, if_pos rfl]
    simp only [outside_hold, outside_tell, Berth.refs_send]
    exact hpair.farewell hhas (by rw [hstance]) (by rw [hstance]) (by rw [hstance]) hlooks' hlinks'

/-- A node that is to become the root of a new tree tells its father so, if it has one. -/
theorem Fits.reroot (h : s.Fits g inbox u) (hin : ∀ v, inbox v = [])
    (hout : ∀ v, s.outside.out v = []) (hidle : s.node.isEngaged = false)
    (hothers : ∀ v k, g.node? v = some k → k.isEngaged = false) :
    s.reroot.Fits g inbox u := by
  unfold Session.reroot
  cases hfather : s.node.position.father with
  | none =>
      have hunder : ∀ v, s.node.position.under v = false := fun v => by
        simp [Position.under, hfather]
      have hsolo : Node.Solo u { s.node with slot := ⟨some (.founding false)⟩ } := by
        refine h.solo.found fun v hv => ?_
        rw [hunder] at hv
        cases hv
      refine h.quiet rfl rfl hsolo fun v => ?_
      rw [node_hold, Node.stance_hold, Node.stance_of_idle hidle, hunder]
      simp [Holder.leaves, Holder.links, Holder.negotiation?, Holder.awaits, Holder.isLooking,
        Holder.dead, Holder.search?]
  | some father => exact h.takeLeave hin hout hidle hothers hfather

/-- How a node stands towards others once it has let go of the father that it has left. -/
theorem stance_forsake {father : Peer} (hslot : s.node.slot.holder = some (.leaving father))
    (v : NodeId) :
    (s.forsake father).node.stance v = { s.node.stance v with links := false } := by
  have hplace : (s.forsake father).node =
      { (s.withPosition (s.node.position.forget father)).node with
        slot := ⟨some (.founding false)⟩ } := rfl
  have hrank : (s.node.position.forget father).rank = s.node.position.rank := rfl
  rw [hplace, Node.stance_hold, node_withPosition, Position.has_forget, hrank]
  by_cases hv : v = father.id
  · simp [Node.stance, Node.isParting, Node.isLooking, hslot, Holder.leaves, Holder.links,
      Holder.negotiation?, Holder.awaits, Holder.isLooking, Holder.isParting, Holder.dead,
      Holder.search?, hv]
  · have hv' : ¬father.id = v := fun heq => hv heq.symm
    simp [Node.stance, Node.isParting, Node.isLooking, hslot, Holder.leaves, Holder.links,
      Holder.negotiation?, Holder.awaits, Holder.isLooking, Holder.isParting, Holder.dead,
      Holder.search?, hv, hv']

/-- A node that has let go of the father that it has left is in order. -/
theorem solo_forsake (h : s.node.Solo u) {father : Peer}
    (hslot : s.node.slot.holder = some (.leaving father)) : (s.forsake father).node.Solo u := by
  refine (solo_forget h father).found fun v hv => ?_
  have hlost : father.id = v := by
    simpa [Position.under, Position.forget, h.leaves father hslot] using hv
  rw [Position.has_forget]
  simp [hlost]

/-- A node lets go of the link with the father that it has left. -/
theorem Fits.forsake (h : s.Fits g inbox u) {father : Peer}
    (hslot : s.node.slot.holder = some (.leaving father))
    (hothers : ∀ v k, v ≠ u → g.node? v = some k → k.isEngaged = false) :
    (s.forsake father).Fits g inbox u := by
  have hstance := stance_forsake hslot
  have hne : father.id ≠ u := by
    intro heq
    have hself := h.solo.apart.2
    simp [Position.under, h.solo.leaves father hslot, heq] at hself
  have hfacing := h.facing father.id hne
  have hlinks : (s.node.stance father.id).links = true := by
    simp [Node.stance, hslot, Holder.links, Holder.leaves]
  have hawaits : (s.node.stance father.id).awaits = false := by
    simp [Node.stance, hslot, Holder.awaits]
  obtain ⟨m, hm⟩ : ∃ m, g.node? father.id = some m := by
    cases hm : g.node? father.id with
    | some m => exact ⟨m, rfl⟩
    | none =>
        rw [(hfacing.widow hm).links] at hlinks
        cases hlinks
  have hunlinked := (hfacing.pair hm).unlink hlinks hawaits
  have hidle : (m.stance s.node.self.id).engaged = false := by
    rw [Node.stance_of_idle (hothers _ m hne hm)]
  have houtside : (s.forsake father).outside = s.outside.closeLink father := rfl
  refine h.toward hne (by simp [houtside]) rfl (solo_forsake h.solo hslot) (fun _ _ => rfl)
    (fun w hw => ?_) (fun w hw => ?_) (fun w hw => ?_) ?_
  · have hother : (s.node.stance w).links = false := by
      simpa [Node.stance, hslot, Holder.links, Holder.negotiation?, Holder.leaves] using
        fun heq : father.id = w => hw heq.symm
    rw [hstance, ← hother]
  · rw [houtside, Berth.refs_closeLink, if_neg hw]
  · rw [houtside, Berth.out_closeLink, if_neg fun hand => hw hand.1]
  · rw [hm, hstance, houtside, Berth.refs_closeLink, Berth.out_closeLink, if_pos rfl]
    by_cases hlast : s.outside.refs father.id = 1
    · rw [if_pos ⟨rfl, hlast⟩]
      rw [hlast] at hunlinked ⊢
      exact hunlinked.close rfl fun hlooks => by
        rw [hidle] at hlooks
        cases hlooks
    · rw [if_neg fun hand => hlast hand.2]
      exact hunlinked

/-- The children of the root of a new tree are told of it. -/
theorem outside_newTree (s : Session Berth) (v : NodeId) :
    s.newTree.outside.toPost = s.outside.toPost ∧
      s.newTree.outside.refs = s.outside.refs ∧
        s.newTree.outside.out v =
          if s.node.position.has v && decide (s.outside.refs v ≠ 0) then
            s.outside.out v ++ [.message s.outside.own (s.newTree.node.update [])]
          else s.outside.out v := by
  have hunder : (s.node.position.newTree s.node.self s.words).1.under v = false := rfl
  have hhas : (s.node.position.newTree s.node.self s.words).1.has v =
      s.node.position.has v := rfl
  rw [newTree_eq]
  dsimp only
  refine ⟨by simp, by simp, ?_⟩
  rw [out_sendAll_children, hhas, hunder]
  simp [Node.update]

/-- A node without a father, or one that has forgotten it, becomes the root of a new tree, if
nobody was accepted and does not know it. -/
theorem Fits.newTree (h : s.Fits g inbox u)
    (hids : ∀ v k, g.node? v = some k → k.self.id = v)
    (hunder : ∀ v, (s.node.stance v).under = false)
    (hleaves : ∀ v, s.node.slot.holder.any (Holder.leaves v) = false)
    (hgrants : ∀ v m, v ≠ u → g.node? v = some m →
      grant (m.stance u).taken (s.outside.out v) = none) :
    s.newTree.Fits g inbox u := by
  have hout := s.outside_newTree
  have hchild : ∀ v, (s.node.position.has v && !s.node.position.under v) =
      s.node.position.has v := by
    intro v
    rw [← h.solo.child_iff v, hunder]
    simp [Node.stance, hleaves]
  have hsolo : s.newTree.node.Solo u := by
    rw [node_newTree]
    exact { h.solo with
      stands := fun _ => Position.stands_of_root rfl rfl
      clients := h.solo.clients
      apart := ⟨h.solo.apart.1, rfl⟩
      root := fun _ => rfl
      leaves := fun father hslot => by
        have hnot := hleaves father.id
        rw [show s.node.slot.holder = _ from hslot] at hnot
        simp [Holder.leaves] at hnot
      uprooted := fun _ v hv => by cases hv }
  refine h.spread (fun _ => False) [s.newTree.node.update []] false hids (hout u).1 (by simp) hsolo
    (fun v _ => ⟨?_, congrFun (hout v).2.1 v, ?_⟩) (fun _ => False.elim) (fun _ _ => rfl) ?_
    (Or.inr fun v m _ => hgrants v m) (fun v _ hv => ?_) (by simp)
  · have hfloor : (s.node.stance v).floor = none := by
      have hnot := hunder v
      simp only [Node.stance] at hnot
      simp [Node.stance, hnot]
    have hplace : s.newTree.node.stance v = { s.node.stance v with
        under := false
        rank := s.newTree.node.position.rank
        floor := none } := by
      simp only [node_newTree]
      rfl
    rw [hplace]
    simp [Stance.turn, hunder v, hfloor]
  · rw [(hout v).2.2, hchild]
    simp
  · exact Tidings.update ⟨s.newTree.node.position.rank, [], s.newTree.node.settings.hops⟩
  · rw [hunder] at hv
    cases hv

/-- Something is prepared. -/
theorem Fits.prepare (h : s.Fits g inbox u) {a : Act} (hprepares : a.prepares = true) :
    (a.run s).Fits g inbox u := by
  rcases s.run_of_prepares hprepares with ⟨_, _, _, _, hrun⟩ | ⟨outcome, hrun⟩ <;> rw [hrun]
  · exact h.aside rfl rfl
  · exact h.aside rfl rfl

/-- An operation starts, while nothing is on its way and nobody looks for a father. -/
theorem Fits.order (h : s.Fits g inbox u) (hids : ∀ v k, g.node? v = some k → k.self.id = v)
    (hin : ∀ v, inbox v = []) (hout : ∀ v, s.outside.out v = [])
    (hidle : s.node.isEngaged = false)
    (hothers : ∀ v k, g.node? v = some k → k.isEngaged = false) {a : Act}
    (horder : a.isOrder = true) : (a.run s).Fits g inbox u := by
  cases a with
  | requestJoin _ | requestReroot | tick => exact h.prepare rfl
  | leave peer =>
      simp only [Act.run, leave_eq]
      split
      · rename_i hcontains
        refine h.leave hids hin hout hidle hothers ?_
        rw [Position.has_id]
        simpa [Neighbors.isBroker, Neighbors.contains, h.solo.clients, Peer.among] using hcontains
      · exact h
  | event _ | start | stop | gossip | begin _ | advance | resume => cases horder

end Session

end BrokerForest
