import BrokerForest.Proofs.Mailbox
import BrokerForest.Proofs.NodeInvariant
import BrokerForest.Proofs.RankInvariant
/-!
# The act invariant: one act of a node and everyone else

A node of a grove acts while all others stand still.  Whatever it does, what holds between it
and each of them holds afterwards.

Main statements:

* `Node.Solo` — what holds of a node by itself;
* `Session.Fits` — what holds between a node at work and everyone else in its grove;
* `Session.Spreads` — what everyone sees of an act that is not about them;
* `Session.Fits.spread` — an act is in order with everyone if it is so with those that it is
  about.
-/

namespace BrokerForest

/-- The wait for a peer's response, before it or after. -/
def Mailbox.WaitsFor (m : Mailbox) (p : Peer) : Prop :=
  m = (Wait.waiting p).mailbox ∨ ∃ response, m = (Wait.delivered p response).mailbox

/-- What holds of a node by itself. -/
structure Node.Solo (u : NodeId) (n : Node) : Prop where
  self : n.self.id = u
  stands : n.isParting = false → n.position.Stands fun _ _ => True
  clients : n.position.neighbors.clients = []
  apart : n.position.has u = false ∧ n.position.under u = false
  root : n.isSeeking = true → n.position.father = none
  waits : ∀ negotiation, n.slot.holder = some (.negotiating negotiation) →
    n.mailbox.WaitsFor negotiation.peer
  linked : ∀ negotiation, n.negotiation? = some negotiation → negotiation.peer.id ≠ u
  -- Over the link that it has opened a node can send its request.
  sends : ∀ negotiation, n.slot.holder ≠ some (.retreating negotiation)
  leaves : ∀ father, n.slot.holder = some (.leaving father) → n.position.father = some father
  uprooted : n.isUprooted = true → ∀ v, n.position.under v = true → n.position.has v = false

/-- What holds of a node by itself at another place. -/
theorem Node.Solo.of_place {n n' : Node} {u : NodeId} (h : n.Solo u) (hself : n'.self = n.self)
    (hslot : n'.slot = n.slot) (hmailbox : n'.mailbox = n.mailbox)
    (stands : n.isParting = false → n'.position.Stands fun _ _ => True)
    (clients : n'.position.neighbors.clients = [])
    (apart : n'.position.has u = false ∧ n'.position.under u = false)
    (father : n.isEngaged = true → n'.position.father = n.position.father)
    (has : n.isParting = true → ∀ v, n'.position.has v = true → n.position.has v = true) :
    n'.Solo u := by
  have hengaged {holder : Holder} (hholder : n.slot.holder = some holder)
      (hbusy : holder.isEngaged = true) : n'.position.father = n.position.father :=
    father (by simpa [isEngaged, hholder] using hbusy)
  refine ⟨hself ▸ h.self, ?_, clients, apart, ?_, ?_, ?_, ?_, ?_, ?_⟩
  · simpa only [isParting, hslot] using stands
  · intro hseeks
    rw [isSeeking_congr hslot] at hseeks
    exact (father (isEngaged_of_seeking hseeks)).trans (h.root hseeks)
  · rw [hslot, hmailbox]
    exact h.waits
  · rw [negotiation?_congr hslot]
    exact h.linked
  · rw [hslot]
    exact h.sends
  · intro lost hleaving
    rw [hslot] at hleaving
    exact (hengaged hleaving rfl).trans (h.leaves lost hleaving)
  · intro huprooted v hunder
    rw [isUprooted_congr hslot] at huprooted
    have hholder := isUprooted_iff.1 huprooted
    rw [Position.under, hengaged hholder rfl] at hunder
    by_contra hhas
    have hparting : n.isParting = true := by simp [isParting, hholder, Holder.isParting]
    have hold := h.uprooted huprooted v hunder
    rw [has hparting v (by simpa using hhas)] at hold
    cases hold

/-- Whoever a node has for a child it has beside it, and the father that it is about to leave is
none. -/
theorem Node.Solo.child_iff {n : Node} {u : NodeId} (h : n.Solo u) (v : NodeId) :
    ((n.stance v).has && !(n.stance v).under) = (n.position.has v && !n.position.under v) := by
  cases hparting : n.isParting with
  | false =>
      obtain ⟨hhas, hunder, -⟩ := stance_of_not_parting hparting v
      rw [hhas, hunder]
  | true =>
      obtain ⟨holder, hholder, hparts⟩ := (Option.any_eq_true ..).1 hparting
      cases holder with
      | leaving father =>
          by_cases hv : father.id = v
          · simp [stance, hparting, hholder, Holder.leaves, hv, Position.under,
              h.leaves father hholder]
          · simp [stance, hparting, hholder, Holder.leaves, hv, Position.under,
              h.leaves father hholder]
      | founding repair =>
          cases repair with
          | true => cases hparts
          | false =>
              have huprooted := h.uprooted (isUprooted_iff.2 hholder) v
              cases hunder : n.position.under v with
              | false => simp [stance, hparting, hholder, Holder.leaves, hunder]
              | true => simp [stance, hparting, hholder, Holder.leaves, hunder, huprooted hunder]
      | _ => cases hparts

/-- A root leaves nobody. -/
theorem Node.Solo.leaves_of_root {n : Node} {u : NodeId} (h : n.Solo u)
    (hroot : n.position.father = none) (v : NodeId) :
    n.slot.holder.any (Holder.leaves v) = false := by
  by_contra hleaves
  obtain ⟨holder, hholder, hleaves⟩ := (Option.any_eq_true ..).1 (by simpa using hleaves)
  cases holder with
  | leaving father =>
      rw [h.leaves father hholder] at hroot
      cases hroot
  | _ => cases hleaves

/-- A node on its way out of its tree keeps beside it no father but the one it is to leave. -/
theorem Node.Solo.has_of_parting {n : Node} {u v : NodeId} (h : n.Solo u)
    (hparting : n.isParting = true) (hleaves : n.slot.holder.any (Holder.leaves v) = false)
    (hunder : n.position.under v = true) : n.position.has v = false := by
  obtain ⟨holder, hholder, hparts⟩ := (Option.any_eq_true ..).1 hparting
  cases holder with
  | leaving father =>
      have hother : father.id ≠ v := by simpa [hholder, Holder.leaves] using hleaves
      simp [Position.under, h.leaves father hholder, hother] at hunder
  | founding repair =>
      cases repair with
      | true => cases hparts
      | false => exact h.uprooted (isUprooted_iff.2 hholder) v hunder
  | _ => cases hparts

/-- What holds between a node at work and everyone else in its grove, if each has something on
its way to it. -/
structure Session.Fits (g : Grove) (inbox : NodeId → List Event) (u : NodeId)
    (s : Session Berth) : Prop where
  post : s.outside.toPost = ⟨g.atlas, s.node.self, fun v => (g.node? v).isSome⟩
  solo : s.node.Solo u
  facing : ∀ v, v ≠ u → Facing (g.node? v) s.node.self (s.node.stance v) (inbox v)
    (s.outside.out v) (s.outside.refs v)
  apart : s.outside.refs u = 0 ∧ s.outside.out u = []

/-- What a node sees of an act of another that is not about it: the news for the other's
children, if it is one of them, and that the other may have ended a reconfiguration. -/
structure Session.Spreads (s t : Session Berth) (messages : List Message) (ended : Bool)
    (v : NodeId) : Prop where
  stance : t.node.stance v = (s.node.stance v).turn t.node.position.rank ended
  refs : t.outside.refs v = s.outside.refs v
  out : t.outside.out v =
    if s.node.position.has v && !s.node.position.under v && decide (s.outside.refs v ≠ 0) then
      s.outside.out v ++ messages.map (.message s.outside.own)
    else s.outside.out v

/-- Of all nodes of a grove one looks for a father at most. -/
def Grove.OneAtATime (g : Grove) : Prop :=
  ∀ v m w k, g.node? v = some m → g.node? w = some k → m.isEngaged = true →
    k.isEngaged = true → v = w

namespace Session

variable {g : Grove} {u : NodeId} {inbox inbox' : NodeId → List Event} {s t : Session Berth}

/-- An act is in order with everyone if it is so with those that it is about. -/
theorem Fits.spread (about : NodeId → Prop) (messages : List Message) (ended : Bool)
    (h : s.Fits g inbox u) (hids : ∀ v m, g.node? v = some m → m.self.id = v)
    (hpost : t.outside.toPost = s.outside.toPost) (hself : t.node.self = s.node.self)
    (hsolo : t.node.Solo u) (hspreads : ∀ v, ¬about v → s.Spreads t messages ended v)
    (habout : ∀ v, about v → v ≠ u ∧ Facing (g.node? v) s.node.self (t.node.stance v) (inbox' v)
      (t.outside.out v) (t.outside.refs v))
    (hinbox : ∀ v, ¬about v → inbox' v = inbox v)
    (ht : Tidings (fun p => about p.id) s.node.position.rank messages t.node.position.rank)
    (hgrant : t.node.position.rank = s.node.position.rank ∧
        (∀ m ∈ messages, ∃ news, m = .siblingDead news) ∨
      ∀ v m, ¬about v → v ≠ u → g.node? v = some m →
        grant (m.stance u).taken (s.outside.out v) = none)
    (hcolor : ∀ v, ¬about v → (s.node.stance v).under = true →
      t.node.position.rank.color = s.node.position.rank.color)
    (hended : ended = true → ∀ v, ¬about v → (s.node.stance v).awaits = false) :
    t.Fits g inbox' u where
  post := by rw [hpost, hself, h.post]
  solo := hsolo
  facing := by
    intro v hv
    rw [hself]
    by_cases hspecial : about v
    · exact (habout v hspecial).2
    · have hspread := hspreads v hspecial
      rw [hspread.stance, hspread.refs, hspread.out, hinbox v hspecial, ← h.solo.child_iff v]
      refine (h.facing v hv).spread ht ?_ ?_ (hcolor v hspecial) fun hend => hended hend v hspecial
      · intro p m hp hm
        have hid := hids v m hm
        have hne : p.id ≠ m.self.id := by
          intro heq
          exact hspecial (hid ▸ heq ▸ hp)
        simpa [Peer.same] using hne
      · refine hgrant.imp_right fun hgrant m hm => ?_
        rw [h.solo.self]
        exact hgrant v m hspecial hv hm
  apart := by
    have hnot : ¬about u := fun hu => (habout u hu).1 rfl
    have hspread := hspreads u hnot
    rw [hspread.refs, hspread.out, h.solo.apart.1]
    simpa using h.apart

/-- Work that is about one other and that nobody else sees anything of. -/
theorem Fits.toward (h : s.Fits g inbox u) {v : NodeId} (hv : v ≠ u)
    (hpost : t.outside.toPost = s.outside.toPost) (hself : t.node.self = s.node.self)
    (hsolo : t.node.Solo u) (hinbox : ∀ w, w ≠ v → inbox' w = inbox w)
    (hstance : ∀ w, w ≠ v → t.node.stance w = s.node.stance w)
    (hrefs : ∀ w, w ≠ v → t.outside.refs w = s.outside.refs w)
    (hout : ∀ w, w ≠ v → t.outside.out w = s.outside.out w)
    (hfacing : Facing (g.node? v) s.node.self (t.node.stance v) (inbox' v)
      (t.outside.out v) (t.outside.refs v)) :
    t.Fits g inbox' u where
  post := by rw [hpost, hself, h.post]
  solo := hsolo
  facing w hw := by
    rw [hself]
    by_cases hwv : w = v
    · subst hwv
      exact hfacing
    · rw [hinbox w hwv, hstance w hwv, hrefs w hwv, hout w hwv]
      exact h.facing w hw
  apart := by
    rw [hrefs u hv.symm, hout u hv.symm]
    exact h.apart

/-! ## What changes nothing -/

/-- Work that changes nothing that others see. -/
theorem Fits.quiet (h : s.Fits g inbox u) (houtside : t.outside = s.outside)
    (hself : t.node.self = s.node.self) (hsolo : t.node.Solo u)
    (hstance : ∀ v, t.node.stance v = s.node.stance v) :
    t.Fits g inbox u where
  post := by rw [houtside, hself, h.post]
  solo := hsolo
  facing v hv := by
    rw [houtside, hself, hstance]
    exact h.facing v hv
  apart := by
    rw [houtside]
    exact h.apart

/-- Only of the dead there is nothing on its way but their death. -/
theorem Fits.live (h : s.Fits g inbox u) {v : NodeId} (hv : v ≠ u) {e : Event} {later : List Event}
    (hin : inbox v = e :: later) (he : e.isDeath = false) :
    ∃ m, g.node? v = some m := by
  have hfacing := h.facing v hv
  cases hm : g.node? v with
  | some m => exact ⟨m, rfl⟩
  | none =>
      have hw := hfacing.widow hm
      have hdeath := hw.deaths e (by simp [hin])
      rw [he] at hdeath
      cases hdeath

/-- What was put on its way by another is experienced without being about anything. -/
theorem Fits.pop (h : s.Fits g inbox u) {v : NodeId} (hv : v ≠ u) {e : Event} {later : List Event}
    (hin : inbox v = e :: later) (hloss : e.matter ≠ .loss) (hresponse : e.matter ≠ .response)
    (hnews : e.matter = .news → (s.node.stance v).under = false) :
    s.Fits g (Function.update inbox v later) u where
  post := h.post
  solo := h.solo
  facing w hw := by
    by_cases hvw : w = v
    · subst hvw
      have hdeath : e.isDeath = false := by
        cases e with
        | dead peer => exact absurd rfl hloss
        | message origin message => rfl
        | opened peer => rfl
        | closed peer => rfl
      obtain ⟨m, hm⟩ := h.live hv hin hdeath
      have hfacing := h.facing w hw
      rw [hm, hin] at hfacing
      rw [hm, Function.update_self]
      exact PairInvariant.pop hfacing hloss hresponse hnews
    · rw [Function.update_of_ne hvw]
      exact h.facing w hw
  apart := h.apart

/-- A message that does not matter goes over a link of its own. -/
theorem Fits.transient (h : s.Fits g inbox u) {message : Message}
    (hidle : (Event.message s.outside.own message).matter = .idle)
    (hcalm : ∀ v m, g.node? v = some m → s.outside.refs v = 0 → m.isLooking = true →
      (m.stance u).shuns = true)
    (p : Peer) (traffic : TrafficClass) :
    (s.sendTransient p message traffic).Fits g inbox u := by
  have hown : s.outside.own = s.node.self := congrArg Post.own h.post
  have hzero : s.outside.refs s.outside.own.id = 0 := by
    rw [hown, h.solo.self]
    exact h.apart.1
  have hsolo : (s.sendTransient p message traffic).node.Solo u := by
    rw [node_sendTransient]
    exact h.solo
  rcases transient_cases hzero p message traffic with hout | ⟨q, hne, halive, hout⟩
  · exact h.quiet hout (by simp) hsolo (by simp)
  · have hq : q.id ≠ u := by rwa [hown, h.solo.self] at hne
    have hlive : ∃ m, g.node? q.id = some m := by
      rw [congrArg Post.alive h.post] at halive
      exact Option.isSome_iff_exists.1 halive
    obtain ⟨m, hm⟩ := hlive
    refine h.toward hq ?_ (by simp) hsolo (fun _ _ => rfl) (by simp) ?_ ?_ ?_
    · rw [hout]
      simp
    · intro w _
      rw [hout, Berth.refs_transient]
    · intro w hw
      rw [hout, Berth.out_transient, if_pos hw]
    · have hfacing := h.facing q.id hq
      rw [hm] at hfacing ⊢
      rw [hout, Berth.refs_transient, Berth.out_transient, if_neg (by simp), node_sendTransient]
      by_cases hrefs : s.outside.refs q.id = 0
      · rw [if_pos hrefs]
        have hput := ((hfacing.put (e := .opened s.outside.own) rfl).put hidle)
        rw [hrefs] at hput ⊢
        exact hput.close rfl fun hengaged => h.solo.self ▸ hcalm q.id m hm hrefs hengaged
      · rw [if_neg hrefs]
        exact PairInvariant.put hfacing hidle

/-- A message to the children is on its way to each of them that is linked. -/
theorem out_sendAll_children (s : Session Berth) (p : Position) (message : Message) (v : NodeId) :
    (s.sendAll p.children message).outside.out v =
      if p.has v && !p.under v && decide (s.outside.refs v ≠ 0) then
        s.outside.out v ++ [.message s.outside.own message]
      else s.outside.out v := by
  rw [s.out_sendAll p.nodup_children]
  refine if_congr ?_ rfl rfl
  rw [Position.mem_children_iff]
  simp

/-! ## Answering requests -/

/-- A requester that waits is refused. -/
theorem Fits.refuse (h : s.Fits g inbox u) {requester : Peer} {m : Node}
    (hne : requester.id ≠ u) (hm : g.node? requester.id = some m)
    (howed : Owed (m.stance u) (inbox requester.id) (s.outside.out requester.id))
    (refusal : Refusal) :
    (s.refuse requester refusal).Fits g inbox u := by
  have hsolo : (s.refuse requester refusal).node.Solo u := by
    rw [node_refuse]
    exact h.solo
  have hpair := (h.facing requester.id hne).pair hm
  have hrefs : s.outside.refs requester.id ≠ 0 := hpair.refs_ne_zero (h.solo.self ▸ howed.awaits)
  refine h.toward hne ?_ (by simp) hsolo (fun _ _ => rfl) (by simp) ?_ ?_ ?_
  · simp [Session.refuse]
  · simp [Session.refuse]
  · intro w hw
    simp [Session.refuse, Berth.out_send, hw]
  · have hout : (s.refuse requester refusal).outside.out requester.id =
        s.outside.out requester.id ++ [.message s.outside.own
          (.response ⟨s.node.position.rank, .refused refusal⟩)] := by
      simp [Session.refuse, Berth.out_send, hrefs]
    have hkeep : (s.refuse requester refusal).outside.refs = s.outside.refs := by
      simp [Session.refuse]
    rw [hm, node_refuse, hout, hkeep]
    exact hpair.refuse (h.solo.self ▸ howed) rfl

/-- What a node tells its children of a new child. -/
def births (n : Node) (child : Peer) (admission : Admission) : List Message :=
  let rank := admission.rank n.position.rank
  .newSibling ⟨rank, n.chain, n.position.children, n.position.global.snapshot, child⟩ ::
    if admission.adopts then [.update ⟨rank, n.chain, n.settings.hops⟩] else []

/-- A child that is welcomed is linked once more, and its siblings learn of it. -/
theorem outside_welcome (s : Session Berth) {child : Peer} (admission : Admission)
    (hnew : s.node.position.has child.id = false) (hrefs : s.outside.refs child.id ≠ 0)
    (hknown : child ∈ s.outside.atlas.peers) (hne : child.id ≠ s.outside.own.id)
    (halive : s.outside.alive child.id = true) (v : NodeId) :
    (s.welcome child admission).outside.refs v =
        (if v = child.id then s.outside.refs v + 1 else s.outside.refs v) ∧
      (s.welcome child admission).outside.out v =
        if s.node.position.has v && !s.node.position.under v &&
            decide (s.outside.refs v ≠ 0) then
          s.outside.out v ++ (births s.node child admission).map (.message s.outside.own)
        else s.outside.out v := by
  obtain ⟨url, hurl, hresolve⟩ := s.outside.atlas.resolves child hknown
  have hopen : (s.openLink url).2.outside = s.outside.link child := by
    rw [outside_openLink, (s.outside.openLink_of_resolve hresolve hne halive).2]
  have hnode := s.node_openLink url
  have hout : (s.outside.link child).out v = s.outside.out v := by
    rw [Berth.out_link, if_neg]
    rintro ⟨rfl, hzero⟩
    exact hrefs hzero
  have hown : (s.outside.link child).own = s.outside.own :=
    congrArg Post.own (s.outside.toPost_link child)
  have hchild : ∀ b : Bool,
      (s.node.position.has v && b && decide ((s.outside.link child).refs v ≠ 0)) =
      (s.node.position.has v && b && decide (s.outside.refs v ≠ 0)) := by
    intro b
    rw [Berth.refs_link]
    by_cases hv : v = child.id
    · subst hv
      simp [hnew]
    · simp [hv]
  unfold welcome
  simp only [hurl]
  generalize s.openLink url = opened at hopen hnode ⊢
  obtain ⟨result, t⟩ := opened
  dsimp only at hopen hnode ⊢
  cases hadopts : admission.adopts with
  | false =>
      simp only [Bool.false_eq_true, if_false, refs_sendAll, outside_note,
        outside_withPosition, out_sendAll_children, hopen, hout, hown, births, hadopts]
      exact ⟨Berth.refs_link _ _ _, if_congr (by rw [hchild]) rfl rfl⟩
  | true =>
      simp only [if_true, refs_sendAll, own_sendAll, outside_note, outside_withPosition,
        out_sendAll_children, hopen, hout, hown, births, hadopts]
      refine ⟨Berth.refs_link _ _ _, ?_⟩
      rw [hchild]
      split
      · simp [Node.update, Position.welcome, hnode]
      · rfl

/-- Nobody is granted anything who looks for nothing. -/
theorem Fits.ungranted (h : s.Fits g inbox u) {v : NodeId} {m : Node} (hv : v ≠ u)
    (hm : g.node? v = some m) (hengaged : m.isEngaged = false) :
    grant (m.stance u).taken (s.outside.out v) = none := by
  have hpair := (h.facing v hv).pair hm
  have hnone := hpair.there.grant_eq_none (Node.idle_of_not_engaged hengaged).1
  rwa [h.solo.self] at hnone

/-- What a node tells its children of a new child agrees with its rank then. -/
theorem tidings_births {n : Node} {child : Peer} {admission : Admission} {requester : Rank}
    {ws ws' : Words} (hbelow : n.position.BelowFather) (own : n.position.rank.depth.isNaN = false)
    (room : requester.depth.Roomy ws)
    (ha : n.position.admission requester ws = (some admission, ws')) :
    Tidings (fun p => p.id = child.id) n.position.rank (births n child admission)
      (admission.rank n.position.rank) := by
  have hkin : admission.adopts = false →
      (admission.rank n.position.rank).color = n.position.rank.color ∧
        ((admission.rank n.position.rank).depth = n.position.rank.depth ∨
          (admission.rank n.position.rank).depth < n.position.rank.depth) := by
    intro hadopts
    have hcolor : (admission.rank n.position.rank).color = n.position.rank.color := by
      cases admission with
      | adopt color depth => cases hadopts
      | move depth => rfl
      | keep => rfl
    refine ⟨hcolor, ?_⟩
    rcases Position.upTo_admission hbelow own room ha with heq | hjoin | ⟨_, hlt⟩
    · exact Or.inl (congrArg Rank.depth heq).symm
    · rw [hcolor, Color.canJoin_irrefl] at hjoin
      cases hjoin
    · exact Or.inr hlt
  unfold births
  cases hadopts : admission.adopts with
  | false =>
      obtain ⟨hcolor, hdepth⟩ := hkin hadopts
      exact Tidings.birth _ rfl hcolor hdepth
  | true =>
      rcases Position.admission_cases ha with ⟨_, _, rfl⟩ | ⟨_, hkin'⟩ | ⟨_, rfl⟩
      · exact Tidings.adoption _ ⟨_, n.chain, n.settings.hops⟩ rfl
          (Depth.rise_eq_or_lt room own)
      · rcases Position.admissionOfKin_cases hkin' with ⟨rfl, _⟩ | ⟨d, rfl, _⟩ <;> cases hadopts
      · cases hadopts

/-- A node with a father keeps its color for a new child. -/
theorem color_admission {p : Position} {requester : Rank} {ws ws' : Words}
    {admission : Admission} (room : requester.depth.Roomy ws)
    (ha : p.admission requester ws = (some admission, ws')) {v : NodeId}
    (hunder : p.under v = true) : (admission.rank p.rank).color = p.rank.color := by
  rcases Position.admission_cases ha with ⟨hroot, _, _⟩ | ⟨_, hkin⟩ | ⟨_, rfl⟩
  · have hfather : p.father = none := by simpa [Position.isRoot] using hroot
    simp [Position.under, hfather] at hunder
  · exact (Position.admissionOfKin_between room hkin).1
  · rfl

/-- A node that welcomes a child holds by itself what held. -/
theorem solo_welcome {n : Node} (h : n.Solo u) (hidle : n.isEngaged = false) {child : Peer}
    {admission : Admission} {requester : Rank} {ws ws' : Words} (hbroker : child.broker = true)
    (hne : child.id ≠ u) (room : requester.depth.Roomy ws)
    (ha : n.position.admission requester ws = (some admission, ws')) :
    Node.Solo u { n with position := n.position.welcome child admission } := by
  obtain ⟨-, hstays, -⟩ := Node.idle_of_not_engaged hidle
  refine h.of_place rfl rfl rfl (fun _ => (h.stands hstays).welcome room ha) ?_ ?_ (fun _ => rfl)
    fun hparting => by simp [hstays] at hparting
  · simpa [Position.welcome, Neighbors.add, hbroker] using h.clients
  · have hhas : (n.position.welcome child admission).has u =
        (n.position.has u || decide (u = child.id)) := Position.has_add hbroker u
    change (n.position.welcome child admission).has u = false ∧ n.position.under u = false
    rw [hhas, h.apart.1]
    exact ⟨by simpa using hne.symm, h.apart.2⟩

/-- A requester to which there is a link is told that it is accepted, the link counts once
more, and its siblings learn of it. -/
theorem outside_accept (s : Session Berth) {child : Peer} (admission : Admission)
    (hnew : s.node.position.has child.id = false) (hrefs : s.outside.refs child.id ≠ 0)
    (hknown : child ∈ s.outside.atlas.peers) (hne : child.id ≠ s.outside.own.id)
    (halive : s.outside.alive child.id = true) :
    (s.accept child admission).node =
        { s.node with position := s.node.position.welcome child admission } ∧
      (s.accept child admission).outside.toPost = s.outside.toPost ∧
        ∀ v, (s.accept child admission).outside.refs v =
            (if v = child.id then s.outside.refs v + 1 else s.outside.refs v) ∧
          (s.accept child admission).outside.out v =
            if v = child.id then
              s.outside.out v ++ [.message s.outside.own (s.node.offer admission)]
            else if s.node.position.has v && !s.node.position.under v &&
                decide (s.outside.refs v ≠ 0) then
              s.outside.out v ++ (births s.node child admission).map (.message s.outside.own)
            else s.outside.out v := by
  let t := (s.send child (s.node.offer admission) .control).2
  have ht : s.accept child admission = t.welcome child admission :=
    accept_of_sent (by rw [sent_send]; simpa using hrefs)
  have htpost : t.outside.toPost = s.outside.toPost := s.outside.toPost_send _ _
  have htown : t.outside.own = s.outside.own := congrArg Post.own htpost
  have htrefs : t.outside.refs = s.outside.refs := s.outside.refs_send _ _
  have hkeeps : t.Keeps .free (t.welcome child admission) :=
    keeps_welcome t (fun _ _ => trivial) (fun _ _ _ => trivial) fun _ _ _ _ => trivial
  rw [ht]
  refine ⟨node_welcome .., (post_of_keeps hkeeps).trans htpost, fun v => ?_⟩
  obtain ⟨hrefs', hout⟩ := t.outside_welcome admission hnew (by rwa [htrefs])
    (by rwa [htpost]) (by rwa [htown]) (by rwa [htpost]) v
  have htout : t.outside.out v = _ := s.outside.out_send _ _ v
  rw [hrefs', hout, htrefs, htown, htout]
  refine ⟨rfl, ?_⟩
  by_cases hv : v = child.id
  · subst hv
    rw [if_neg (by simp [show t.node.position.has child.id = false from hnew]),
      if_pos ⟨rfl, hrefs⟩, if_pos rfl]
  · rw [if_neg fun hand : v = child.id ∧ _ => hv hand.1, if_neg hv]
    rfl

/-- A requester that waits is accepted. -/
theorem Fits.accept (h : s.Fits g inbox u) (hids : ∀ v k, g.node? v = some k → k.self.id = v)
    {child : Peer} {m : Node} {admission : Admission} {requester : Rank} {ws ws' : Words}
    (hne : child.id ≠ u) (hm : g.node? child.id = some m) (hknown : child ∈ g.atlas.peers)
    (howed : Owed (m.stance u) (inbox child.id) (s.outside.out child.id))
    (hnew : s.node.position.has child.id = false)
    (own : s.node.position.rank.depth.isNaN = false) (room : requester.depth.Roomy ws)
    (ha : s.node.position.admission requester ws = (some admission, ws'))
    (hengaged : s.node.isEngaged = false)
    (hothers : ∀ v k, v ≠ child.id → v ≠ u → g.node? v = some k → k.isEngaged = false) :
    (s.accept child admission).Fits g inbox u := by
  have hown : s.outside.own = s.node.self := congrArg Post.own h.post
  have hbroker := g.atlas.brokers child hknown
  obtain ⟨hlooks, hstays, -⟩ := Node.idle_of_not_engaged hengaged
  have hleaves := Node.leaves_of_not_parting hstays
  have hpair := (h.facing child.id hne).pair hm
  have hrefs : s.outside.refs child.id ≠ 0 := hpair.refs_ne_zero (h.solo.self ▸ howed.awaits)
  obtain ⟨hnode, hpost, hberth⟩ := s.outside_accept admission hnew hrefs
    (by rwa [h.post]) (by rwa [hown, h.solo.self]) (by rw [h.post]; simp [hm])
  have hhas : ∀ v, (s.node.position.welcome child admission).has v =
      (s.node.position.has v || decide (v = child.id)) := Position.has_add hbroker
  have hunder : ∀ v, (s.node.position.welcome child admission).under v =
      s.node.position.under v := fun _ => rfl
  have hsolo : (s.accept child admission).node.Solo u := by
    rw [hnode]
    exact solo_welcome h.solo hengaged hbroker hne room ha
  refine h.spread (· = child.id) (births s.node child admission) false hids hpost
    (by rw [hnode]) hsolo ?_ ?_ (fun _ _ => rfl) ?_ (Or.inr fun v k hv hvu hk => ?_) ?_ (by simp)
  · intro v hv
    refine ⟨?_, ?_, ?_⟩
    · rw [hnode, Node.stance_withPosition, hhas, hunder]
      simp [Stance.turn, Node.stance, hv, Position.welcome]
    · rw [(hberth v).1, if_neg hv]
    · rw [(hberth v).2, if_neg hv]
  · rintro v rfl
    have hstance : (s.accept child admission).node.stance child.id =
        { s.node.stance child.id with
          has := true
          rank := admission.rank s.node.position.rank } := by
      rw [hnode, Node.stance_withPosition, hhas, hunder]
      simp [Node.stance, Position.welcome, hleaves]
    have hnone : (s.node.stance child.id).has = false := by
      rw [(Node.stance_of_not_parting hstays child.id).1, hnew]
    rw [hm, (hberth child.id).1, (hberth child.id).2, hstance, if_pos rfl, if_pos rfl]
    exact ⟨hne, hpair.accept (h.solo.self ▸ howed) rfl hnone hlooks⟩
  · rw [hnode]
    exact tidings_births (h.solo.stands hstays).belowFather own room ha
  · exact h.ungranted hvu hk (hothers v k hv hvu hk)
  · intro v _ hunder
    rw [hnode]
    rw [(Node.stance_of_not_parting hstays v).2.1] at hunder
    exact color_admission room ha hunder

/-- A request is answered. -/
theorem Fits.examine (h : s.Fits g inbox u) (hids : ∀ v k, g.node? v = some k → k.self.id = v)
    (hone : g.OneAtATime) (hu : ∃ n, g.node? u = some n ∧ n.isEngaged = s.node.isEngaged)
    {requester : Peer} {request : Request} {later : List Event} (hne : requester.id ≠ u)
    (hknown : requester ∈ g.atlas.peers)
    (hin : inbox requester.id = .message requester (.request request) :: later)
    (own : s.node.position.rank.depth.Roomy s.words)
    (room : request.rank.depth.Roomy s.words) :
    (s.examine requester request).Fits g (Function.update inbox requester.id later) u := by
  obtain ⟨m, hm⟩ := h.live hne hin rfl
  have hpair := (h.facing requester.id hne).pair hm
  rw [hin, h.solo.self] at hpair
  have howed := hpair.owed rfl
  have hm' : m.isEngaged = true := Node.isEngaged_of_seeking
    (Node.isSeeking_of_looking (hpair.there.seeks howed.awaits).1)
  have hothers : ∀ v k, v ≠ requester.id → g.node? v = some k → k.isEngaged = false := by
    intro v k hv hk
    by_contra hengaged
    exact hv (hone v k requester.id m hk hm (by simpa using hengaged) hm')
  have hengaged : s.node.isEngaged = false := by
    obtain ⟨n, hn, heq⟩ := hu
    rw [← heq]
    exact hothers u n hne.symm hn
  have hpop := h.pop hne hin (by simp [Event.matter]) (by simp [Event.matter])
    (by simp [Event.matter])
  rw [examine_eq]
  generalize hjudge : s.node.judge requester request s.words = judged
  obtain ⟨verdict, ws⟩ := judged
  have hstart : (s.withWords ws).Fits g (Function.update inbox requester.id later) u :=
    hpop.quiet rfl rfl h.solo fun _ => rfl
  have hrefuse : ∀ (t : Session Berth) refusal,
      t.Fits g (Function.update inbox requester.id later) u → t.outside = s.outside →
        (t.refuse requester refusal).Fits g (Function.update inbox requester.id later) u := by
    intro t refusal ht hout
    refine ht.refuse hne hm ?_ refusal
    rw [Function.update_self, hout]
    exact howed
  rcases verdict with _ | ⟨refusal, _ | _ | root⟩ | admission
  · exact hstart
  · exact hrefuse _ refusal hstart rfl
  · refine hrefuse _ refusal (hstart.quiet rfl rfl ?_ fun _ => rfl) rfl
    exact h.solo.of_place rfl rfl rfl (fun hstays => (h.solo.stands hstays).congr rfl rfl rfl)
      h.solo.clients h.solo.apart (fun _ => rfl) fun _ _ hhas => hhas
  · refine (hrefuse _ refusal hstart rfl).transient rfl ?_ root .control
    intro v k hk hrefs hengaged'
    have hv : v = requester.id := by
      by_contra hv
      rw [(Node.idle_of_not_engaged (hothers v k hv hk)).1] at hengaged'
      cases hengaged'
    subst hv
    exact absurd (by simpa [Session.refuse] using hrefs) (hpair.refs_ne_zero howed.awaits)
  · obtain ⟨hnew, hadmission, _⟩ := Node.admission_of_judge hjudge
    refine hstart.accept hids hne hm hknown ?_ ?_ own.isNaN room hadmission hengaged
      fun v k hv _ hk => hothers v k hv hk
    · rw [Function.update_self]
      exact howed
    · rw [Position.has_id]
      simp only [Neighbors.contains, Bool.or_eq_false_iff] at hnew
      exact hnew.1

/-! ## Parting -/

/-- A node that has parted from another has nothing to do with it, and stands towards all
others as it did. -/
theorem stance_depart {s : Session Berth} {peer : Peer} (hsolo : s.node.Solo u)
    (hleaves : s.node.slot.holder.any (Holder.leaves peer.id) = false)
    (hbeside : (s.node.stance peer.id).under = true → (s.node.stance peer.id).has = true)
    (v : NodeId) :
    (s.depart peer).node.stance v =
      if v = peer.id then (s.node.stance v).part else s.node.stance v := by
  have hforget := s.node.position.has_forget peer v
  by_cases hfather : (s.node.stance peer.id).under = true
  · have hstays : s.node.isParting = false := by
      simp only [Node.stance, Bool.and_eq_true, Bool.not_eq_true'] at hfather
      exact hfather.2
    have hbroker := hbeside hfather
    rw [(Node.stance_of_not_parting hstays _).2.1] at hfather
    rw [(Node.stance_of_not_parting hstays _).1, Position.has_id] at hbroker
    have hunder := Position.under_of_under hfather v
    rw [node_depart_of_father hbroker (by rwa [← Position.under_id])]
    have hstance : ∀ connector errands, { s.node with
        position := (s.node.position.forget peer).orphan
        connector := connector
        errands := errands }.stance v =
          { s.node.stance v with
            has := (s.node.position.forget peer).has v && !s.node.slot.holder.any (Holder.leaves v)
            under := false
            floor := none } := fun _ _ => rfl
    rw [hstance, hforget]
    by_cases hv : v = peer.id
    · simp [hv, Stance.part]
    · simp [hv, Node.stance, hunder]
  · have hunlinked : s.node.position.neighbors.isBroker peer = false ∨
        s.node.position.isFather peer = false := by
      rw [← Position.has_id, ← Position.under_id]
      cases hunder : s.node.position.under peer.id with
      | false => exact Or.inr rfl
      | true =>
          cases hparting : s.node.isParting with
          | true => exact Or.inl (hsolo.has_of_parting hparting hleaves hunder)
          | false => simp [Node.stance, hunder, hparting] at hfather
    rw [node_depart_of_not_father hunlinked]
    have hstance : { s.node with position := s.node.position.forget peer }.stance v =
        { s.node.stance v with
          has := (s.node.position.forget peer).has v &&
            !s.node.slot.holder.any (Holder.leaves v) } := rfl
    rw [hstance, hforget]
    by_cases hv : v = peer.id
    · subst hv
      have hnot : (s.node.stance peer.id).under = false := by simpa using hfather
      have hfloor : (s.node.stance peer.id).floor = none := by
        simp only [Node.stance] at hnot
        simp [Node.stance, hnot]
      simp [Stance.part, hnot, hfloor]
    · simp [hv, Node.stance]

/-- What a node tells its children when it has parted from another. -/
def obituaries (n : Node) (peer : Peer) : List Message :=
  if n.position.has peer.id && !n.position.under peer.id then
    [.siblingDead ⟨n.position.rank, n.position.global.snapshot, peer⟩]
  else []

theorem tidings_obituaries (n : Node) (peer : Peer) (sibling : Peer → Prop) :
    Tidings sibling n.position.rank (obituaries n peer) n.position.rank := by
  unfold obituaries
  split
  · exact Tidings.obituary _ rfl
  · exact Tidings.none _

/-- The link with a father that is gone is released. -/
theorem outside_depart_of_father {s : Session Berth} {peer : Peer}
    (hbroker : s.node.position.neighbors.isBroker peer = true)
    (hfather : s.node.position.isFather peer = true) :
    (s.depart peer).outside = s.outside.closeLink peer := by
  cases hs : s.node.stopped <;> simp [depart, hbroker, hfather, hs]

/-- The link with whom a node parts from is released, and its children learn of it if that
was one of them. -/
theorem outside_depart (s : Session Berth) (peer : Peer) (v : NodeId) :
    (s.depart peer).outside.refs v =
        (if v = peer.id then s.outside.refs v - (s.node.position.has v).toNat
          else s.outside.refs v) ∧
      (s.depart peer).outside.out v =
        if v = peer.id then
          if s.node.position.has v && decide (s.outside.refs v = 1) then
            s.outside.out v ++ [.closed s.outside.own]
          else s.outside.out v
        else if s.node.position.has v && !s.node.position.under v &&
            decide (s.outside.refs v ≠ 0) then
          s.outside.out v ++ (obituaries s.node peer).map (.message s.outside.own)
        else s.outside.out v := by
  have hhas : s.node.position.has peer.id = s.node.position.neighbors.isBroker peer :=
    Position.has_id _ _
  have hunder : s.node.position.under peer.id = s.node.position.isFather peer :=
    Position.under_id _ _
  have hforget := s.node.position.has_forget peer v
  cases hbroker : s.node.position.neighbors.isBroker peer with
  | false =>
      have hout : (s.depart peer).outside = s.outside := by
        simp [depart, hbroker]
      rw [hout]
      by_cases hv : v = peer.id
      · subst hv
        simp [hhas, hbroker]
      · simp [hv, obituaries, hhas, hbroker]
  | true =>
      cases hfather : s.node.position.isFather peer with
      | true =>
          rw [outside_depart_of_father hbroker hfather, Berth.refs_closeLink, Berth.out_closeLink]
          by_cases hv : v = peer.id
          · subst hv
            simp [hhas, hbroker]
          · simp [hv, obituaries, hunder, hfather]
      | false =>
          have hdepart : s.depart peer =
              (((s.withPosition (s.node.position.forget peer)).closeLink peer).note
                (.siblingGone peer.id)).sendAll (s.node.position.forget peer).children
                  (.siblingDead ⟨s.node.position.rank, s.node.position.global.snapshot,
                    peer⟩) := by
            unfold depart
            simp only [hbroker, hfather, Bool.not_true, Bool.false_eq_true, if_false,
              node_closeLink, node_withPosition]
            rfl
          have hown : (s.outside.closeLink peer).own = s.outside.own :=
            congrArg Post.own (s.outside.toPost_closeLink peer)
          have hkeep : (s.node.position.forget peer).under v = s.node.position.under v := rfl
          rw [hdepart, refs_sendAll, out_sendAll_children _ _ _ v, hforget, hkeep]
          simp only [outside_note, outside_closeLink, outside_withPosition, hown,
            Berth.refs_closeLink, Berth.out_closeLink]
          by_cases hv : v = peer.id
          · subst hv
            simp [hhas, hbroker]
          · simp [hv, obituaries, hhas, hbroker, hunder, hfather]

/-- A father is a neighbor. -/
theorem Fits.beside (h : s.Fits g inbox u) {v : NodeId} (hv : v ≠ u)
    (hunder : (s.node.stance v).under = true) : (s.node.stance v).has = true := by
  have hfacing := h.facing v hv
  cases hm : g.node? v with
  | none => exact (hfacing.widow hm).beside hunder
  | some m => exact (hfacing.pair hm).here.beside hunder

/-- Nothing goes on in a node whose father is beside it, unless it is to leave it. -/
theorem idle_of_beside {n : Node} {v : NodeId} (h : n.Solo u)
    (hleaves : n.slot.holder.any (Holder.leaves v) = false) (hhas : n.position.has v = true)
    (hunder : n.position.under v = true) : n.isEngaged = false := by
  by_contra hengaged
  rcases Node.seeks_or_parts (by simpa using hengaged) with hseeks | hparts
  · simp [Position.under, h.root hseeks] at hunder
  · rw [h.has_of_parting hparts hleaves hunder] at hhas
    cases hhas

/-- A node that forgets a neighbor is still in order with its father. -/
theorem solo_forget {n : Node} (h : n.Solo u) (peer : Peer) :
    Node.Solo u { n with position := n.position.forget peer } := by
  refine h.of_place rfl rfl rfl (fun hstays => (h.stands hstays).congr rfl rfl rfl) ?_ ?_
    (fun _ => rfl) fun _ v hv => ?_
  · simp only [Position.forget, Neighbors.remove]
    split <;> simp [h.clients]
  · rw [Position.has_forget, h.apart.1]
    exact ⟨rfl, h.apart.2⟩
  · rw [Position.has_forget, Bool.and_eq_true] at hv
    exact hv.1

/-- A node that parts from another holds by itself what held. -/
theorem solo_depart (h : s.node.Solo u) {peer : Peer}
    (hleaves : s.node.slot.holder.any (Holder.leaves peer.id) = false) :
    (s.depart peer).node.Solo u := by
  have hforgot := solo_forget h peer
  by_cases hfather : s.node.position.neighbors.isBroker peer = true ∧
      s.node.position.isFather peer = true
  · have hidle := idle_of_beside h hleaves (by rw [Position.has_id]; exact hfather.1)
      (by rw [Position.under_id]; exact hfather.2)
    rw [node_depart_of_father hfather.1 hfather.2]
    exact hforgot.of_place rfl rfl rfl (fun _ => Position.stands_of_root rfl rfl) hforgot.clients
      ⟨hforgot.apart.1, rfl⟩ (fun hengaged => absurd (hengaged.symm.trans hidle) (by simp))
      fun _ _ => id
  · have hother : s.node.position.neighbors.isBroker peer = false ∨
        s.node.position.isFather peer = false := by
      simpa [-not_and, not_and_or] using hfather
    rw [node_depart_of_not_father hother]
    exact hforgot

/-- A neighbor is parted from, after something was put on its way to it. -/
theorem Fits.parted {r : Session Berth} (h : s.Fits g inbox u)
    (hids : ∀ v k, g.node? v = some k → k.self.id = v) {peer : Peer} (hne : peer.id ≠ u)
    (hleaves : s.node.slot.holder.any (Holder.leaves peer.id) = false)
    (hnode : r.node = s.node) (hpost : r.outside.toPost = s.outside.toPost)
    (hrefs : r.outside.refs = s.outside.refs)
    (hout : ∀ v, v ≠ peer.id → r.outside.out v = s.outside.out v)
    (hinbox : ∀ v, v ≠ peer.id → inbox' v = inbox v)
    (hfacing : Facing (g.node? peer.id) s.node.self (s.node.stance peer.id).part (inbox' peer.id)
      (if s.node.position.has peer.id && decide (s.outside.refs peer.id = 1) then
        r.outside.out peer.id ++ [.closed s.outside.own] else r.outside.out peer.id)
      (s.outside.refs peer.id - (s.node.position.has peer.id).toNat)) :
    (r.depart peer).Fits g inbox' u := by
  have hown : r.outside.own = s.outside.own := congrArg Post.own hpost
  have hstance (v : NodeId) : (r.depart peer).node.stance v = _ :=
    stance_depart (u := u) (by rw [hnode]; exact h.solo) (by rw [hnode]; exact hleaves)
      (by rw [hnode]; exact h.beside hne) v
  have houtside := r.outside_depart peer
  rw [hnode] at hstance
  rw [hnode, hrefs, hown] at houtside
  have hrank : (r.depart peer).node.position.rank = s.node.position.rank := by
    rcases depart_cases r peer with hcase | hcase <;> rw [hcase, hnode] <;> rfl
  have hself : (r.depart peer).node.self = s.node.self := by
    rcases depart_cases r peer with hcase | hcase <;> rw [hcase, hnode]
  have hkeeps : r.Keeps .free (r.depart peer) := keeps_depart r fun _ _ => trivial
  refine h.spread (· = peer.id) (obituaries s.node peer) false hids
    ((post_of_keeps hkeeps).trans hpost) hself
    (solo_depart (by rw [hnode]; exact h.solo) (by rw [hnode]; exact hleaves)) ?_ ?_ hinbox ?_
    (Or.inl ⟨hrank, ?_⟩) ?_
    (by simp)
  · intro v hv
    refine ⟨?_, ?_, ?_⟩
    · rw [hstance, if_neg hv, hrank]
      simp [Stance.turn, Node.stance]
    · rw [(houtside v).1, if_neg hv]
    · rw [(houtside v).2, if_neg hv, hout v hv]
  · rintro v rfl
    rw [hstance, if_pos rfl, (houtside peer.id).1, if_pos rfl, (houtside peer.id).2, if_pos rfl]
    exact ⟨hne, hfacing⟩
  · rw [hrank]
    exact tidings_obituaries _ _ _
  · intro m hm
    unfold obituaries at hm
    split at hm
    · exact ⟨_, by simpa using hm⟩
    · cases hm
  · intro v _ _
    rw [hrank]

/-- A neighbor is gone. -/
theorem Fits.depart (h : s.Fits g inbox u) (hids : ∀ v k, g.node? v = some k → k.self.id = v)
    {peer : Peer} {e : Event} {later : List Event} (hne : peer.id ≠ u)
    (hin : inbox peer.id = e :: later) (he : e.matter = .loss) :
    (s.depart peer).Fits g (Function.update inbox peer.id later) u := by
  have hfacing := h.facing peer.id hne
  rw [hin] at hfacing
  have hleaves := Node.leaves_of_not_linked (hfacing.links_eq_false he)
  refine h.parted hids hne hleaves rfl rfl rfl (fun _ _ => rfl)
    (fun v hv => Function.update_of_ne hv _ _) ?_
  have hhas : (s.node.stance peer.id).has = s.node.position.has peer.id := by
    simp [Node.stance, hleaves]
  have hparted := hfacing.part (o := s.outside.own) he
  rw [hhas] at hparted
  rw [Function.update_self]
  exact hparted

end Session

end BrokerForest
