import BrokerForest.Proofs.Consent
import BrokerForest.Proofs.LinkBalance
import BrokerForest.Proofs.Mailbox
/-!
# Negotiations: one that fails leaves no trace

A negotiation may end at once, as nobody is found at the URL, or only the node itself.  Or
someone is asked, and the negotiation ends with an answer, or without, or is given up because the
request does not go out.  However it ends, nobody is waited for any more; and unless it is an
acceptance that was delivered the node is what it was, and each link that was opened is closed
again.

The wait begins before the request is sent.  So an answer may be there already when the request
turns out not to go out, and this answer is lost, even if it is an acceptance.

Main statements:

* `Node.Negotiates` — a negotiation from its beginning to its end, while responses come and
  waits are given up;
* `Node.Untraced` — what a negotiation leaves of the node and of its links if it fails;
* `Node.Negotiates.accepted_iff` — which negotiations do not fail;
* **`Node.Negotiates.leaves_no_trace`** — whatever is asked, and whatever comes of it;
* `Node.Negotiates.exists_dropped` — an acceptance that is lost.
-/

namespace BrokerForest

open Mailbox (Deed)

/-- The peer of a link that is closed. -/
def Effect.closed? : Effect → Option Peer
  | .closed peer => some peer
  | _ => none

/-- The session some time after: responses have come, waits were given up, and the world outside
may have become another. -/
def Session.later {σ τ : Type} (s : Session σ) (deeds : List Deed) (outside : τ) (ws : Words) :
    Session τ :=
  ⟨{ s.node with mailbox := Mailbox.leftBy Mailbox.perform s.node.mailbox deeds }, outside, ws,
    s.trace⟩

/-- A negotiation with whom a URL leads to: whom it asks, and whether the request goes out; what
is done to the mailbox between the wait's beginning and its end; the result, what becomes of the
node, and what is seen of it.  Responses may come for the peer that is asked, or for nobody, and
waits be given up; nothing else changes the node. -/
inductive Node.Negotiates (n : Node) (url : String) (force : Force) :
    Option (Peer × Bool) → List Deed → NegotiationResult → Node → List Effect → Prop where
  /-- There is nobody to be asked. -/
  | alone {σ : Type} [Transport σ] {outside : σ} {ws : Words} {result : NegotiationResult}
      {s : Session σ}
      (contacts : Session.contact ⟨n, outside, ws, []⟩ url force = (.error result, s)) :
      Negotiates n url force none [] result s.node s.trace
  /-- The request goes out, and the wait comes to its end. -/
  | answered {σ τ υ : Type} [Transport σ] [Transport τ] [Transport υ] {outside : σ} {outside' : τ}
      {outside'' : υ} {ws ws' ws'' : Words} {peer : Peer} {request : Request} {s : Session σ}
      {t : Session τ} {u : Session υ} {result : NegotiationResult} {early deeds : List Deed}
      (contacts : Session.contact ⟨n, outside, ws, []⟩ url force = (.ok (peer, request), s))
      (asks : (s.later early outside' ws').ask peer request = (true, t))
      (aside : ∀ d ∈ deeds, d.isAside = true)
      (concludes : (t.later deeds outside'' ws'').conclude peer = (result, u)) :
      Negotiates n url force (some (peer, true)) deeds result u.node u.trace
  /-- The request does not go out, and is given up. -/
  | unsent {σ τ υ : Type} [Transport σ] [Transport τ] [Transport υ] {outside : σ} {outside' : τ}
      {outside'' : υ} {ws ws' ws'' : Words} {peer : Peer} {request : Request} {s : Session σ}
      {t : Session τ} {u : Session υ} {result : NegotiationResult} {early deeds : List Deed}
      (contacts : Session.contact ⟨n, outside, ws, []⟩ url force = (.ok (peer, request), s))
      (asks : (s.later early outside' ws').ask peer request = (false, t))
      (aside : ∀ d ∈ deeds, d.isAside = true)
      (givesUp : (t.later deeds outside'' ws'').giveUp peer = (result, u)) :
      Negotiates n url force (some (peer, false)) deeds result u.node u.trace

/-- A node is what it was but for its mailbox, and each link that was seen to be opened was seen
to be closed again, once, and then only. -/
structure Node.Untraced (n m : Node) (seen : List Effect) : Prop where
  node : m = { n with mailbox := m.mailbox }
  closed : seen.flatMap Effect.resolved = seen.filterMap Effect.closed?
  account : ∀ v, seen.foldlM (Effect.account v) 0 = some 0

namespace Mailbox

/-- A wait has come to a response if and only if it was delivered. -/
theorem collect_mailbox {w : Wait} {response : Response} :
    w.mailbox.collect = .ok response ↔ ∃ peer, w = .delivered peer response := by
  cases w <;> simp [Wait.mailbox, collect]

/-- A wait for a peer comes to what was taken from this peer, whatever else arrives and whatever
else is given up. -/
theorem collect_iff_taken (m : Mailbox) (peer : Peer) {deeds : List Deed} {response : Response}
    (h : ∀ d ∈ deeds, d.isAside = true) :
    (leftBy perform (m.expect peer) deeds).collect = .ok response ↔
      ∃ origin, origin.id = peer.id ∧ (.deliver origin response, .delivered (.ok ())) ∈
        logOf perform (m.expect peer) deeds := by
  obtain ⟨hlog, hleft⟩ := log_mailbox (.waiting peer) deeds
  change logOf perform (m.expect peer) deeds = _ at hlog
  change leftBy perform (m.expect peer) deeds = _ at hleft
  rw [hlog, hleft, collect_mailbox]
  exact Wait.delivered_iff_taken h

end Mailbox

namespace Session

variable {σ : Type} [Transport σ]

/-- A negotiation is over with an acceptance if and only if one was collected. -/
theorem conclude_accepted_iff (s : Session σ) (peer father : Peer) :
    (s.conclude peer).1 = .accepted father ↔ peer = father ∧
      ∃ response, s.node.mailbox.collect = .ok response ∧ response.isAcceptance = true := by
  unfold conclude
  cases hcollect : s.node.mailbox.collect with
  | error error => simp
  | ok response => cases hanswer : response.answer <;> simp [Response.isAcceptance, hanswer]

/-- Where nobody is to be asked the node is what it was, and its link is closed. -/
theorem contact_error {s t : Session σ} {url : String} {force : Force} {result : NegotiationResult}
    (h : s.contact url force = (.error result, t)) :
    t.node = s.node ∧ (∀ father, result ≠ .accepted father) ∧
      ∃ seen, t.trace = s.trace ++ seen ∧
        seen.flatMap Effect.resolved = seen.filterMap Effect.closed? ∧
          ∀ v, seen.foldlM (Effect.account v) 0 = some 0 := by
  obtain ⟨opened, htrace, hleads⟩ := s.trace_openLink url
  rcases s.contact_cases url force with ⟨error, hopen, heq⟩ | ⟨peer, hopen, ⟨-, heq⟩ | ⟨-, heq⟩⟩
  · rw [heq] at h
    cases h
    obtain ⟨htrace, hnobody⟩ := trace_openLink_of_error (Prod.ext hopen rfl)
    refine ⟨by simp, by simp, [.opened url (.error error)], htrace, ?_, fun v => ?_⟩
    · simp [hnobody, Effect.closed?]
    · simp [Effect.account_of_nobody rfl hnobody]
  · rw [heq] at h
    cases h
    have hpeer := (hleads peer).2 hopen
    refine ⟨by simp, by simp, [.opened url opened, .closed peer], ?_, ?_, fun v => ?_⟩
    · change (s.openLink url).2.trace ++ [_] = _
      rw [htrace, List.append_assoc]
      rfl
    · rw [List.flatMap_cons, Effect.resolved_of_mem hpeer]
      rfl
    · have hclosed : (Effect.closed peer).account v (0 + peer.tally v) = some 0 :=
        Effect.account_closed
      simpa [Effect.account_of_resolved hpeer] using hclosed
  · rw [heq] at h
    cases h

/-- Whoever is to be asked is at the end of a link that was opened. -/
theorem contact_ok {s t : Session σ} {url : String} {force : Force} {peer : Peer}
    {request : Request} (h : s.contact url force = (.ok (peer, request), t)) :
    t.node = s.node ∧ ∃ opened, t.trace = s.trace ++ [.opened url opened] ∧
      peer ∈ (Effect.opened url opened).resolved := by
  obtain ⟨opened, htrace, hleads⟩ := s.trace_openLink url
  rcases s.contact_cases url force with ⟨error, -, heq⟩ | ⟨found, hopen, ⟨-, heq⟩ | ⟨-, heq⟩⟩ <;>
    rw [heq] at h <;> cases h
  exact ⟨by simp, opened, htrace, (hleads peer).2 hopen⟩

/-- What a node is that waits for the answer of whom it has asked, and what was seen of it. -/
theorem ask_of_contact {τ : Type} [Transport τ] {n : Node} {outside : σ} {ws : Words} {url : String}
    {force : Force} {peer : Peer} {request : Request} {s : Session σ} {early : List Deed}
    {outside' : τ} {ws' : Words} {sent : Bool} {t : Session τ}
    (contacts : contact ⟨n, outside, ws, []⟩ url force = (.ok (peer, request), s))
    (asks : (s.later early outside' ws').ask peer request = (sent, t)) :
    t.node = { n with mailbox := n.mailbox.expect peer } ∧ ∃ opened,
      peer ∈ (Effect.opened url opened).resolved ∧
        t.trace = [.opened url opened, .sent peer (.request request) .control sent] := by
  obtain ⟨hnode, opened, htrace, hpeer⟩ := contact_ok contacts
  obtain ⟨hasked, hseen⟩ := (s.later early outside' ws').ask_frame peer request
  rw [asks] at hasked hseen
  obtain rfl : s.node = n := hnode
  refine ⟨hasked, opened, hpeer, hseen.trans ?_⟩
  change s.trace ++ _ = _
  rw [htrace]
  rfl

end Session

/-- The link over which a peer was asked is returned once it is closed. -/
theorem Effect.returned_of_asked {url : String} {opened : Except LinkError Peer} {peer : Peer}
    {request : Request} {sent : Bool} (h : peer ∈ (Effect.opened url opened).resolved) :
    let seen : List Effect :=
      [.opened url opened, .sent peer (.request request) .control sent] ++ [.closed peer]
    seen.flatMap resolved = seen.filterMap closed? ∧
      ∀ v, seen.foldlM (account v) 0 = some 0 := by
  constructor
  · simp only [List.cons_append, List.flatMap_cons, resolved_of_mem h]
    rfl
  · intro v
    have hsent : ∀ held, (Effect.sent peer (.request request) .control sent).account v held =
        some held := fun held => account_of_nobody rfl rfl
    have hclosed : (closed peer).account v (0 + peer.tally v) = some 0 := account_closed
    simpa [account_of_resolved h, hsent] using hclosed

namespace Node.Negotiates

variable {n m : Node} {url : String} {force : Force} {asked : Option (Peer × Bool)}
  {deeds : List Deed} {result : NegotiationResult} {seen : List Effect}

/-- **A negotiation is over with an acceptance if and only if the request went out, and an
acceptance was taken from the peer that was asked.** -/
theorem accepted_iff (h : n.Negotiates url force asked deeds result m seen) (father : Peer) :
    result = .accepted father ↔ asked = some (father, true) ∧
      ∃ origin response, origin.id = father.id ∧ response.isAcceptance = true ∧
        (.deliver origin response, .delivered (.ok ())) ∈
          Mailbox.logOf Mailbox.perform (n.mailbox.expect father) deeds := by
  cases h with
  | alone contacts => simp [(Session.contact_error contacts).2.1 father]
  | unsent _ _ _ givesUp =>
      cases givesUp
      simp
  | @answered σ τ υ _ _ _ outside outside' outside'' ws ws' ws'' peer request s t u result early
      deeds contacts asks aside concludes =>
      have hmailbox : t.node.mailbox = n.mailbox.expect peer := by
        rw [(Session.ask_of_contact contacts asks).1]
      have hiff := (t.later deeds outside'' ws'').conclude_accepted_iff peer father
      rw [concludes] at hiff
      rw [hiff, Option.some.injEq, Prod.mk.injEq]
      simp only [and_true]
      refine and_congr_right fun hpeer => ?_
      subst hpeer
      change (∃ response, (Mailbox.leftBy Mailbox.perform t.node.mailbox deeds).collect =
        .ok response ∧ response.isAcceptance = true) ↔ _
      rw [hmailbox]
      constructor
      · rintro ⟨response, hcollect, haccepts⟩
        obtain ⟨origin, hid, htaken⟩ := (Mailbox.collect_iff_taken _ _ aside).1 hcollect
        exact ⟨origin, response, hid, haccepts, htaken⟩
      · rintro ⟨origin, response, hid, haccepts, htaken⟩
        exact ⟨response, (Mailbox.collect_iff_taken _ _ aside).2 ⟨origin, hid, htaken⟩, haccepts⟩

/-- A negotiation ends with an acceptance, and the node attaches; or without one, and the node is
what it was but for its mailbox, which nobody is waited for in, and whose links are returned. -/
theorem ways (h : n.Negotiates url force asked deeds result m seen) :
    (∃ father rank acceptance ws, result = .accepted father ∧ m = { n with
        position := (n.position.attach n.self father rank acceptance ws).1
        mailbox := .empty
        connector := none }) ∨
      (∀ father, result ≠ .accepted father) ∧ n.Untraced m seen ∧
        (m.mailbox = .empty ∨ m.mailbox = n.mailbox) := by
  cases h with
  | alone contacts =>
      obtain ⟨hnode, hfailed, effects, htrace, hclosed, haccount⟩ :=
        Session.contact_error contacts
      obtain rfl : _ = effects := htrace
      exact Or.inr ⟨hfailed, ⟨by rw [hnode], hclosed, haccount⟩, Or.inr (by rw [hnode])⟩
  | @unsent σ τ υ _ _ _ outside outside' outside'' ws ws' ws'' peer request s t u result early
      deeds contacts asks aside givesUp =>
      obtain ⟨hnode, opened, hpeer, htrace⟩ := Session.ask_of_contact contacts asks
      obtain ⟨hclosed, haccount⟩ := Effect.returned_of_asked hpeer
      rw [← htrace] at hclosed haccount
      cases givesUp
      refine Or.inr ⟨by simp, ⟨?_, hclosed, haccount⟩, Or.inl rfl⟩
      change { t.node with mailbox := Mailbox.empty } = _
      rw [hnode]
      rfl
  | @answered σ τ υ _ _ _ outside outside' outside'' ws ws' ws'' peer request s t u result early
      deeds contacts asks aside concludes =>
      obtain ⟨hnode, opened, hpeer, htrace⟩ := Session.ask_of_contact contacts asks
      obtain ⟨hclosed, haccount⟩ := Effect.returned_of_asked hpeer
      rw [← htrace] at hclosed haccount
      rcases (t.later deeds outside'' ws'').conclude_cases peer with
        ⟨response, acceptance, -, -, heq⟩ | ⟨result', heq, hfailed⟩
      · rw [concludes] at heq
        cases heq
        refine Or.inl ⟨peer, response.rank, acceptance, ws'', rfl, ?_⟩
        rw [Session.node_attach]
        change { t.node with
          position := (t.node.position.attach t.node.self peer response.rank acceptance ws'').1
          mailbox := Mailbox.empty
          connector := none } = _
        rw [hnode]
      · rw [concludes] at heq
        cases heq
        refine Or.inr ⟨hfailed, ⟨?_, hclosed, haccount⟩, Or.inl rfl⟩
        change { t.node with mailbox := Mailbox.empty } = _
        rw [hnode]
        rfl

/-- Nobody is waited for after a negotiation if nobody was before. -/
theorem awaited_eq_none (h : n.Negotiates url force asked deeds result m seen)
    (hidle : n.mailbox.awaited = none) : m.mailbox.awaited = none := by
  rcases h.ways with ⟨_, _, _, _, -, rfl⟩ | ⟨-, -, hmailbox | hmailbox⟩
  · rfl
  · rw [hmailbox]
    rfl
  · rw [hmailbox, hidle]

/-- The peer that accepts the node is its father, and a neighbor. -/
theorem father_of_accepted {father : Peer}
    (h : n.Negotiates url force asked deeds (.accepted father) m seen) :
    m.position.father = some father ∧ m.position.neighbors.contains father = true := by
  rcases h.ways with ⟨peer, rank, acceptance, ws, heq, rfl⟩ | ⟨hfailed, -⟩
  · cases heq
    obtain ⟨own, hplace⟩ := Position.attach_eq n.position n.self father rank acceptance ws
    rw [hplace]
    exact ⟨rfl, Position.contains_add_self _ _⟩
  · exact absurd rfl (hfailed father)

/-- A request that does not go out is reported as such, whatever was delivered meanwhile. -/
theorem result_of_unsent {peer : Peer}
    (h : n.Negotiates url force (some (peer, false)) deeds result m seen) :
    result = .failed (.notConnected peer) := by
  cases h with
  | unsent _ _ _ givesUp =>
      cases givesUp
      rfl

/-- **A negotiation that fails leaves no trace.**  Whoever is asked, with whatever force, and
whatever the transport and the peers make of it: afterwards no response is taken from anyone.
The negotiation is over with an acceptance if and only if the request went out and one was taken
from the peer that was asked; then this peer is the father and a neighbor.  A request that did
not go out is reported as such.  Without an acceptance the node is what it was, and each link
that was opened was closed again, once. -/
theorem leaves_no_trace (h : n.Negotiates url force asked deeds result m seen)
    (hidle : n.mailbox.awaited = none) :
    (∀ origin response, m.mailbox.deliver origin response = .error .notWaiting) ∧
    (∀ father, result = .accepted father ↔ asked = some (father, true) ∧
      ∃ origin response, origin.id = father.id ∧ response.isAcceptance = true ∧
        (.deliver origin response, .delivered (.ok ())) ∈
          Mailbox.logOf Mailbox.perform (n.mailbox.expect father) deeds) ∧
    (∀ father, result = .accepted father →
      m.position.father = some father ∧ m.position.neighbors.contains father = true) ∧
    (∀ peer, asked = some (peer, false) → result = .failed (.notConnected peer)) ∧
    ((∀ father, result ≠ .accepted father) → m.position = n.position ∧ n.Untraced m seen) := by
  refine ⟨fun origin response => ?_, h.accepted_iff, ?_, ?_, fun hfailed => ?_⟩
  · simp [Mailbox.deliver, h.awaited_eq_none hidle]
  · rintro father rfl
    exact h.father_of_accepted
  · rintro peer rfl
    exact h.result_of_unsent
  · rcases h.ways with ⟨father, _, _, _, heq, -⟩ | ⟨-, huntraced, -⟩
    · exact absurd heq (hfailed father)
    · exact ⟨by rw [huntraced.node], huntraced⟩

end Node.Negotiates

namespace Rehearsal

/-- A broker asks a second, and a response that is delivered for it ends the negotiation. -/
theorem negotiates_of_response {result : NegotiationResult} (response : Response)
    (hconcludes : (Session.conclude
      ⟨{ newborn with
          mailbox := (Wait.delivered (broker 2 "y") response).mailbox }, trio, still,
        (Session.ask (Session.contact ⟨newborn, trio, still, []⟩ "y" .none).2 (broker 2 "y")
          ⟨newborn.position.rank, .none⟩).2.trace⟩ (broker 2 "y")).1 = result) :
    ∃ m seen, newborn.Negotiates "y" .none (some (broker 2 "y", true))
      [.deliver (broker 3 "z") response, .deliver (broker 2 "y") response, .cancel (broker 2 "y")]
      result m seen := by
  have hcontacts : (Session.contact ⟨newborn, trio, still, []⟩ "y" .none).1 =
      .ok (broker 2 "y", ⟨newborn.position.rank, .none⟩) := by
    decide +kernel
  exact ⟨_, _, @Node.Negotiates.answered newborn "y" .none Directory Directory Directory _ _ _ trio
    trio trio still still still (broker 2 "y") _ _ _ _ result [] _ (Prod.ext hcontacts rfl)
    (Prod.ext rfl rfl) (by simp [Deed.isAside]) (Prod.ext hconcludes rfl)⟩

/-- A broker is told by a second that it is busy, and is what it was; or it is accepted, and has
a father. -/
theorem leaves_no_trace_of_answer :
    let y := broker 2 "y"
    let busy : Response := ⟨⟨.colorless, ⟨1.0⟩⟩, .refused .busy⟩
    let welcome : Response := ⟨⟨.colorless, ⟨1.0⟩⟩, .accepted ⟨[], []⟩⟩
    newborn.mailbox.awaited = none ∧
      (∃ m seen, newborn.Negotiates "y" .none (some (y, true))
        [.deliver (broker 3 "z") busy, .deliver y busy, .cancel y]
          (.refused y ⟨.colorless, ⟨1.0⟩⟩ .busy) m seen ∧
        (∀ origin response, m.mailbox.deliver origin response = .error .notWaiting) ∧
          m.position = newborn.position ∧ newborn.Untraced m seen) ∧
      ∃ m seen, newborn.Negotiates "y" .none (some (y, true))
        [.deliver (broker 3 "z") welcome, .deliver y welcome, .cancel y] (.accepted y) m seen ∧
          m.position.father = some y ∧ m.position.neighbors.contains y = true := by
  intro y busy welcome
  have hidle : newborn.mailbox.awaited = none := rfl
  obtain ⟨m, seen, h⟩ := negotiates_of_response busy
    (show _ = NegotiationResult.refused y ⟨.colorless, ⟨1.0⟩⟩ .busy from rfl)
  obtain ⟨m', seen', h'⟩ := negotiates_of_response welcome
    (show _ = NegotiationResult.accepted y from rfl)
  obtain ⟨hdeaf, -, -, -, hfailed⟩ := h.leaves_no_trace hidle
  exact ⟨hidle, ⟨m, seen, h, hdeaf, hfailed (by simp)⟩,
    ⟨m', seen', h', (h'.leaves_no_trace hidle).2.2.1 y rfl⟩⟩

/-- A transport that leads to whom another leads to, and over which nothing goes out. -/
structure Mute where
  directory : Directory

instance : Transport Mute where
  openLink url mute := ((Transport.openLink url mute.directory).1, mute)
  closeLink _ mute := mute
  send _ _ _ mute := (false, mute)

end Rehearsal

/-- An acceptance that is delivered after the wait for it has begun is lost, if the request then
does not go out. -/
theorem Node.Negotiates.exists_dropped :
    ∃ n url force peer deeds result m seen,
      Node.Negotiates n url force (some (peer, false)) deeds result m seen ∧
        n.mailbox.awaited = none ∧
        (∃ response : Response, response.isAcceptance = true ∧
          (.deliver peer response, .delivered (.ok ())) ∈
            Mailbox.logOf Mailbox.perform (n.mailbox.expect peer) deeds) ∧
        ∀ father, result ≠ .accepted father := by
  let y := Rehearsal.broker 2 "y"
  let mute : Rehearsal.Mute := ⟨Rehearsal.trio⟩
  let welcome : Response := ⟨⟨.colorless, ⟨1.0⟩⟩, .accepted ⟨[], []⟩⟩
  have hcontacts : (Session.contact ⟨Rehearsal.newborn, mute, Rehearsal.still, []⟩ "y" .none).1 =
      .ok (y, ⟨Rehearsal.newborn.position.rank, .none⟩) := by
    decide +kernel
  refine ⟨Rehearsal.newborn, "y", .none, y, [.deliver y welcome], .failed (.notConnected y), _, _,
    @Node.Negotiates.unsent Rehearsal.newborn "y" .none Rehearsal.Mute Rehearsal.Mute
      Rehearsal.Mute _ _ _ mute mute mute Rehearsal.still Rehearsal.still Rehearsal.still y _ _ _ _
      _ [] _ (Prod.ext hcontacts rfl) (Prod.ext rfl rfl) (by simp [Deed.isAside])
      (Prod.ext rfl rfl), rfl, ⟨welcome, rfl, by decide +kernel⟩, by simp⟩

end BrokerForest
