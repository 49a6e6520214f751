import BrokerForest.Proofs.Neighborhood
import BrokerForest.Proofs.SearchCourse
/-!
# Accounts of links: the references that a node takes and gives back

Links are counted.  Whoever opens one takes a reference to it, also where the link was open
already, and whoever closes it gives one back.  A ledger on one peer is kept over the effects
of a node: it says how many references the node holds, and there is none as soon as the node
gives back one that it does not hold.  For each deed of a node this module says from which
number to which it leads.

Main statements:

* `Effect.takes`, `Effect.releases`, `Effect.account` — what an effect is in the ledger;
* `Effect.balance_of_account` — what the ledger says of the numbers of links opened and closed;
* `Session.Idles` — nothing is opened or closed between two sessions;
* `Session.Accounts` — what a node holds at one session and at another;
* `Session.accounts_depart`, `Session.accounts_forsake` — parting from a neighbor;
* `Node.asks`, `Session.accounts_approach` — a link in hand;
* `Session.accounts_accept` — a child is accepted.
-/

namespace BrokerForest

/-- One for the peer of an identity, and none for any other. -/
def Peer.tally (p : Peer) (v : NodeId) : Nat := if p.id = v then 1 else 0

namespace Effect

/-- Whether an effect takes a reference to the link to a peer. -/
def takes (v : NodeId) (e : Effect) : Bool := e.resolved.any fun p => p.id = v

/-- Whether an effect gives back a reference to the link to a peer. -/
def releases (v : NodeId) : Effect → Bool
  | closed p => p.id = v
  | _ => false

/-- Whether an effect is neither that a link is opened nor that one is closed. -/
def isIdle : Effect → Bool
  | opened .. | closed _ => false
  | _ => true

/-- How many references to the link to a peer are held after an effect, if it gives back none
that is not. -/
def account (v : NodeId) (held : Nat) (e : Effect) : Option Nat :=
  if e.releases v then
    match held with
    | 0 => none
    | held + 1 => some held
  else some (held + (e.takes v).toNat)

variable {v : NodeId} {e : Effect} {es : List Effect} {c d : Nat}

theorem releases_of_isIdle (h : e.isIdle = true) : e.releases v = false := by
  cases e <;> first | rfl | cases h

theorem takes_of_isIdle (h : e.isIdle = true) : e.takes v = false := by
  cases e <;> first | rfl | cases h

/-- An effect that gives a reference back takes none. -/
theorem takes_of_releases (h : e.releases v = true) : e.takes v = false := by
  cases e with
  | closed p => rfl
  | _ => cases h

/-- Where nothing is given back the ledger goes on by what is taken. -/
theorem account_of_not_releases (h : ∀ e ∈ es, e.releases v = false) :
    es.foldlM (account v) c = some (c + es.countP (takes v)) := by
  induction es generalizing c with
  | nil => rfl
  | cons e es ih =>
      have hfirst : account v c e = some (c + (e.takes v).toNat) := by
        simp [account, h e (by simp)]
      rw [List.foldlM_cons, hfirst, List.countP_cons]
      refine (ih fun f hf => h f (by simp [hf])).trans ?_
      cases e.takes v <;> simp [Nat.add_assoc, Nat.add_comm 1]

/-- Whoever opens a link takes a reference to whom it leads to. -/
theorem account_of_resolved {peer : Peer} (h : peer ∈ e.resolved) :
    e.account v c = some (c + peer.tally v) := by
  have hreleases : e.releases v = false := by
    cases e with
    | closed _ => cases h
    | _ => rfl
  by_cases hid : peer.id = v <;>
    simp [account, hreleases, takes, resolved_of_mem h, Peer.tally, hid]

/-- A link that leads to nobody is no reference. -/
theorem account_of_nobody (hreleases : e.releases v = false) (h : e.resolved = []) :
    e.account v c = some c := by
  simp [account, hreleases, takes, h]

/-- Whoever closes a link gives a reference back. -/
theorem account_closed {peer : Peer} :
    (closed peer).account v (c + peer.tally v) = some c := by
  by_cases hid : peer.id = v <;> simp [account, releases, takes, resolved, Peer.tally, hid]

/-- What was held and what was taken is what was given back and what is held. -/
theorem balance_of_account (h : es.foldlM (account v) c = some d) :
    c + es.countP (takes v) = d + es.countP (releases v) := by
  induction es generalizing c with
  | nil =>
      cases h
      rfl
  | cons e es ih =>
      rw [List.foldlM_cons, Option.bind_eq_bind, Option.bind_eq_some_iff] at h
      obtain ⟨held, hfirst, hrest⟩ := h
      have hbalance := ih hrest
      rw [List.countP_cons, List.countP_cons]
      unfold account at hfirst
      cases hreleases : e.releases v with
      | true =>
          rw [takes_of_releases hreleases]
          cases c with
          | zero => simp [hreleases] at hfirst
          | succ c =>
              obtain rfl : c = held := by simpa [hreleases] using hfirst
              simp only [Bool.false_eq_true, if_false, if_true]
              omega
      | false =>
          obtain rfl : c + (e.takes v).toNat = held := by simpa [hreleases] using hfirst
          cases htakes : e.takes v <;> simp [htakes] at hbalance ⊢ <;> omega

/-- At no point was more given back than taken. -/
theorem releases_le_of_account {first : List Effect} (h : es.foldlM (account v) 0 = some d)
    (hfirst : first <+: es) : first.countP (releases v) ≤ first.countP (takes v) := by
  obtain ⟨rest, rfl⟩ := hfirst
  rw [List.foldlM_append, Option.bind_eq_bind, Option.bind_eq_some_iff] at h
  obtain ⟨held, hheld, -⟩ := h
  have hbalance := balance_of_account hheld
  omega

end Effect

namespace Session

variable {σ : Type} {s t u : Session σ} {v : NodeId} {c d e : Nat}

/-- Between two sessions nothing is opened or closed. -/
def Idles (s t : Session σ) : Prop :=
  ∃ later, t.trace = s.trace ++ later ∧ ∀ e ∈ later, e.isIdle = true

/-- A node that holds some number of references to the link to a peer holds another number
later, and gave back none that it did not hold. -/
def Accounts (v : NodeId) (c d : Nat) (s t : Session σ) : Prop :=
  ∃ later, t.trace = s.trace ++ later ∧ later.foldlM (Effect.account v) c = some d

/-! ## Nothing is opened or closed -/

theorem idles_of_trace_eq (h : t.trace = s.trace) : s.Idles t := ⟨[], by simp [h], by simp⟩

theorem Idles.refl (s : Session σ) : s.Idles s := idles_of_trace_eq rfl

theorem Idles.trans (hst : s.Idles t) (htu : t.Idles u) : s.Idles u := by
  obtain ⟨es, hes, hidle⟩ := hst
  obtain ⟨fs, hfs, hidle'⟩ := htu
  refine ⟨es ++ fs, by rw [hfs, hes, List.append_assoc], fun e he => ?_⟩
  exact (List.mem_append.1 he).elim (hidle e) (hidle' e)

theorem idles_see {e : Effect} (htrace : t.trace = s.trace ++ [e]) (h : e.isIdle = true) :
    s.Idles t :=
  ⟨[e], htrace, by simpa using h⟩

theorem idles_note (s : Session σ) (notice : Notice) : s.Idles (s.note notice) := by
  unfold note
  split
  · exact idles_see rfl rfl
  · exact .refl s

theorem idles_finish (s : Session σ) (outcome : Outcome) : s.Idles (s.finish outcome) :=
  idles_see rfl rfl

theorem idles_withNode (s : Session σ) (n : Node) : s.Idles (s.withNode n) :=
  idles_of_trace_eq rfl

theorem idles_withPosition (s : Session σ) (p : Position) : s.Idles (s.withPosition p) :=
  idles_of_trace_eq rfl

theorem idles_withWords (s : Session σ) (ws : Words) : s.Idles (s.withWords ws) :=
  idles_of_trace_eq rfl

/-- Whoever looks for the next candidate may pause. -/
theorem idles_afterDraw (s : Session σ) (search : Search) : s.Idles (s.afterDraw search) := by
  unfold afterDraw pause
  split
  · exact idles_see rfl rfl
  · exact .refl s

theorem idles_search (s : Session σ) (dead : Option Peer) (asRoot : Bool)
    (connector : Option Nat) : s.Idles (s.search dead asRoot connector) := by
  unfold search
  split
  · exact (idles_withNode _ _).trans (idles_finish _ _)
  · dsimp only
    split
    · exact (idles_withNode _ _).trans (idles_finish _ _)
    · exact ((idles_withPosition _ _).trans (idles_note _ _)).trans (idles_withNode _ _)

theorem idles_endJoin (s : Session σ) (result : NegotiationResult) :
    s.Idles (s.endJoin result) := by
  obtain ⟨global, outcome, hend, -⟩ := s.endJoin_eq result
  rw [hend]
  exact (idles_withPosition _ _).trans (idles_finish _ _)

variable [Transport σ]

theorem idles_send (s : Session σ) (peer : Peer) (message : Message) (traffic : TrafficClass) :
    s.Idles (s.send peer message traffic).2 :=
  idles_see rfl rfl

theorem idles_sendAll (s : Session σ) (peers : List Peer) (message : Message) :
    s.Idles (s.sendAll peers message) := by
  induction peers generalizing s with
  | nil => exact .refl s
  | cons peer rest ih => exact (idles_send s peer message .control).trans (ih (s.tell peer message))

theorem idles_refuse (s : Session σ) (requester : Peer) (refusal : Refusal) :
    s.Idles (s.refuse requester refusal) :=
  (idles_note s _).trans (idles_send _ _ _ _)

theorem idles_newTree (s : Session σ) : s.Idles s.newTree := by
  rw [newTree_eq]
  exact (((idles_withPosition _ _).trans (idles_withWords _ _)).trans (idles_note _ _)).trans
    (idles_sendAll _ _ _)

theorem idles_attach (s : Session σ) (father : Peer) (rank : Rank) (acceptance : Acceptance) :
    s.Idles (s.attach father rank acceptance) := by
  rw [attach_eq]
  exact ((((idles_withPosition _ _).trans (idles_withWords _ _)).trans (idles_note _ _)).trans
    (idles_sendAll _ _ _)).trans (idles_withNode _ _)

theorem idles_onUpdate (s : Session σ) (origin : Peer) (news : Update) :
    s.Idles (s.onUpdate origin news) := by
  rw [onUpdate_eq]
  split
  · dsimp only
    split
    · exact ((idles_withPosition _ _).trans (idles_withWords _ _)).trans (idles_sendAll _ _ _)
    · exact (idles_withPosition _ _).trans (idles_withWords _ _)
  · exact .refl s

omit [Transport σ] in
theorem idles_endSearch (s : Session σ) (search : Search) (found : Option (Peer × PoolKind)) :
    s.Idles (s.endSearch search found) := by
  obtain ⟨connector, heq⟩ := s.endSearch_eq search found
  rw [heq]
  have hconclude : s.Idles _ :=
    idles_note s (.endSearch (found.map fun f => (f.1.id, f.2)) search.tries)
  dsimp only
  split
  · exact (hconclude.trans (idles_withNode _ _)).trans (idles_withNode _ _)
  · exact ((hconclude.trans (idles_withNode _ _)).trans (idles_withNode _ _)).trans
      (idles_finish _ _)

omit [Transport σ] in
/-- Whatever comes of a negotiation, its link is settled by then. -/
theorem idles_settle (s : Session σ) (purpose : Purpose) (result : NegotiationResult) :
    s.Idles (s.settle purpose result) := by
  cases purpose with
  | ask => exact (idles_withNode _ _).trans (idles_finish _ _)
  | join => exact (idles_withNode _ _).trans (idles_endJoin _ _)
  | search search source =>
      cases result with
      | accepted father => exact idles_endSearch _ _ _
      | selfConnect | failed => exact idles_withNode _ _
      | refused peer rank refusal =>
          obtain ⟨global, hlearn, -⟩ := s.learn_frame peer refusal search
          simp only [settle, hlearn]
          exact (idles_withPosition _ _).trans (idles_withNode _ _)

omit [Transport σ] in
/-- A search that takes its next candidate, or ends. -/
theorem idles_draw (s : Session σ) (search : Search) : s.Idles (s.draw search) := by
  rcases s.draw_cases search with ⟨-, heq⟩ | ⟨-, ⟨-, heq⟩ | ⟨c, -, heq⟩⟩ <;> rw [heq]
  · exact idles_endSearch _ _ _
  · exact (idles_afterDraw s search).trans (idles_endSearch _ _ _)
  · exact (idles_afterDraw s search).trans (idles_withNode _ _)

/-- The link over which a request is sent is open by then. -/
theorem idles_ask (s : Session σ) (peer : Peer) (request : Request) :
    s.Idles (s.ask peer request).2 :=
  (idles_withNode _ _).trans (idles_send _ _ _ _)

theorem idles_submit (s : Session σ) (negotiation : Negotiation) (request : Request) :
    s.Idles (s.submit negotiation request) := by
  rw [submit_eq]
  exact (idles_ask s _ _).trans (idles_withNode _ _)

/-- The link to a father is closed before a tree is founded, or not at all. -/
theorem idles_found (s : Session σ) (repair : Bool) : s.Idles (s.found repair) := by
  unfold found
  have hnew : s.Idles s.newTree.startConnector := (idles_newTree s).trans (idles_withNode _ _)
  split
  · dsimp only
    split
    · exact (idles_withNode _ _).trans (idles_finish _ _)
    · exact (hnew.trans (idles_withNode _ _)).trans (idles_finish _ _)
  · dsimp only
    split
    · exact (idles_newTree s).trans (idles_withNode _ _)
    · exact hnew.trans (idles_withNode _ _)

theorem idles_reroot (s : Session σ) : s.Idles s.reroot := by
  unfold reroot
  split
  · exact idles_withNode _ _
  · exact (idles_send _ _ _ _).trans (idles_withNode _ _)

omit [Transport σ] in
theorem idles_join (s : Session σ) (url : String) : s.Idles (s.join url) := by
  unfold join
  split
  · exact idles_finish _ _
  · exact idles_withNode _ _

/-! ## What a deed is in the ledger -/

omit [Transport σ] in
theorem Accounts.trans (hst : s.Accounts v c d t) (htu : t.Accounts v d e u) :
    s.Accounts v c e u := by
  obtain ⟨es, hes, hheld⟩ := hst
  obtain ⟨fs, hfs, hheld'⟩ := htu
  refine ⟨es ++ fs, by rw [hfs, hes, List.append_assoc], ?_⟩
  rw [List.foldlM_append, hheld]
  exact hheld'

omit [Transport σ] in
/-- Who opens and closes nothing holds what it held. -/
theorem Idles.accounts (h : s.Idles t) : s.Accounts v c c t := by
  obtain ⟨later, htrace, hidle⟩ := h
  refine ⟨later, htrace, ?_⟩
  rw [Effect.account_of_not_releases fun e he => Effect.releases_of_isIdle (hidle e he)]
  have hnone : later.countP (Effect.takes v) = 0 :=
    List.countP_eq_zero.2 fun e he => by simp [Effect.takes_of_isIdle (hidle e he)]
  rw [hnone]
  rfl

omit [Transport σ] in
theorem accounts_refl (s : Session σ) : s.Accounts v c c s := (Idles.refl s).accounts

omit [Transport σ] in
theorem accounts_see {e : Effect} (htrace : t.trace = s.trace ++ [e])
    (h : e.account v c = some d) : s.Accounts v c d t :=
  ⟨[e], htrace, by simpa using h⟩

/-- A link that is opened is one reference more to whom it leads to. -/
theorem accounts_openLink_ok {url : String} {peer : Peer}
    (h : s.openLink url = (.ok peer, t)) : s.Accounts v c (c + peer.tally v) t := by
  obtain ⟨result, htrace, hleads⟩ := trace_openLink s url
  rw [h] at htrace hleads
  exact accounts_see htrace (Effect.account_of_resolved ((hleads peer).2 rfl))

/-- A link that cannot be opened is no reference. -/
theorem accounts_openLink_error {url : String} {error : LinkError}
    (h : s.openLink url = (.error error, t)) : s.Accounts v c c t := by
  obtain ⟨htrace, hnobody⟩ := trace_openLink_of_error h
  exact accounts_see htrace (Effect.account_of_nobody rfl hnobody)

/-- A link that is closed is one reference less. -/
theorem accounts_closeLink (s : Session σ) (peer : Peer) :
    s.Accounts v (c + peer.tally v) c (s.closeLink peer) :=
  accounts_see rfl Effect.account_closed

/-- The reference for a single message is given back. -/
theorem accounts_sendTransient (s : Session σ) (peer : Peer) (message : Message)
    (traffic : TrafficClass) : s.Accounts v c c (s.sendTransient peer message traffic) := by
  simp only [sendTransient, launch]
  cases peer.primaryUrl with
  | none => exact accounts_refl s
  | some url =>
      rcases heq : s.openLink url with ⟨error | linked, t⟩ <;> simp only [heq]
      · exact accounts_openLink_error heq
      · exact ((accounts_openLink_ok heq).trans
          (idles_send t linked message traffic).accounts).trans (accounts_closeLink _ linked)

theorem accounts_tellCandidates (s : Session σ) (payload recipients : List Peer) :
    s.Accounts v c c (s.tellCandidates payload recipients) := by
  induction recipients generalizing s with
  | nil => exact accounts_refl s
  | cons p rest ih => exact (accounts_sendTransient s p _ .gossip).trans (ih _)

theorem accounts_gossip (s : Session σ) : s.Accounts v c c s.gossip := by
  obtain ⟨payload, recipients, ws, heq | heq⟩ := s.gossip_eq
  · rw [heq]
    exact (idles_withWords s ws).accounts
  · rw [heq]
    exact (accounts_tellCandidates (s.withWords ws) payload recipients).trans
      (idles_note _ _).accounts

theorem accounts_onResponse (s : Session σ) (origin : Peer) (response : Response) :
    s.Accounts v c c (s.onResponse origin response) := by
  unfold onResponse
  split
  · exact (idles_withNode _ _).accounts
  · dsimp only
    split
    · exact (idles_note s _).accounts.trans (accounts_sendTransient _ _ _ _)
    · exact (idles_note s _).accounts

/-- Once a broker beside the node is gone, one reference is given back. -/
theorem accounts_depart (s : Session σ) (peer : Peer) :
    s.Accounts v
      (c + if s.node.position.neighbors.isBroker peer = true then peer.tally v else 0) c
      (s.depart peer) := by
  have hforget : s.Idles (s.withPosition (s.node.position.forget peer)) := idles_withPosition _ _
  unfold depart
  dsimp only
  cases hbroker : s.node.position.neighbors.isBroker peer with
  | false => exact hforget.accounts
  | true =>
      have hclose := hforget.accounts.trans (accounts_closeLink (v := v) (c := c) _ peer)
      simp only [Bool.not_true, Bool.false_eq_true, if_false, if_true]
      refine hclose.trans (Idles.accounts ?_)
      split
      · split
        · exact ((idles_withPosition _ _).trans (idles_note _ _)).trans (idles_withNode _ _)
        · exact (((idles_withPosition _ _).trans (idles_note _ _)).trans
            (idles_withNode _ _)).trans (idles_withNode _ _)
      · exact (idles_note _ _).trans (idles_sendAll _ _ _)

/-- The father that is left is one reference less. -/
theorem accounts_forsake (s : Session σ) (father : Peer) :
    s.Accounts v (c + father.tally v) c (s.forsake father) :=
  ((idles_withPosition s _).accounts.trans (accounts_closeLink _ father)).trans
    (idles_withNode _ _).accounts

end Session

/-- One while a node has a link open to ask the peer of an identity, and none otherwise. -/
def Node.asks (n : Node) (v : NodeId) : Nat :=
  n.negotiation?.elim 0 fun negotiation => negotiation.peer.tally v

theorem Node.asks_of_holder {n : Node} {holder : Holder} (h : n.slot.holder = some holder)
    (v : NodeId) : n.asks v = holder.negotiation?.elim 0 fun g => g.peer.tally v := by
  rw [asks, negotiation?, h]
  rfl

theorem Node.asks_of_free {n : Node} (h : n.slot.holder = none) (v : NodeId) : n.asks v = 0 := by
  rw [asks, negotiation?, h]
  rfl

namespace Session

variable {σ : Type} [Transport σ] {s t : Session σ} {v : NodeId} {c : Nat}

/-! ## Negotiations -/

omit [Transport σ] in
/-- Once a negotiation is over nobody is asked. -/
theorem asks_settle (s : Session σ) (purpose : Purpose) (result : NegotiationResult)
    (v : NodeId) : (s.settle purpose result).node.asks v = 0 := by
  obtain ⟨global, connector, holder, hnode, hholder, -⟩ := s.settle_cases purpose result
  rw [hnode]
  rcases hholder with rfl | ⟨_, _, search, _, rfl⟩ <;> rfl

/-- A link that is opened to ask whom it leads to is a reference, unless it leads nowhere or to
the node itself. -/
theorem accounts_approach (s : Session σ) (attempt : Attempt) :
    s.Accounts v c (c + (s.approach attempt).node.asks v) (s.approach attempt) := by
  rcases hopen : s.openLink attempt.url with ⟨error | peer, t⟩
  · have heq : s.approach attempt = t.settle attempt.purpose (.failed (.link error)) := by
      simp only [approach, contact, hopen]
    rw [heq, asks_settle]
    exact (accounts_openLink_error hopen).trans (idles_settle _ _ _).accounts
  · have htaken := accounts_openLink_ok (v := v) (c := c) hopen
    have hnode : t.node = s.node := by simpa [hopen] using s.node_openLink attempt.url
    cases hself : peer.same s.node.self with
    | true =>
        have heq : s.approach attempt = (t.closeLink peer).settle attempt.purpose .selfConnect := by
          simp only [approach, contact, hopen, hnode, hself, if_true]
        rw [heq, asks_settle]
        exact (htaken.trans (accounts_closeLink t peer)).trans (idles_settle _ _ _).accounts
    | false =>
        have heq : s.approach attempt = t.hold (.asking ⟨peer, attempt.purpose⟩
            ⟨s.node.position.rank, attempt.force⟩) := by
          simp [approach, contact, hopen, hnode, hself]
        rw [heq]
        exact htaken.trans (idles_withNode _ _).accounts

/-! ## Children -/

/-- The link to a child is opened once more, for as long as it is a child. -/
def retain (s : Session σ) (child : Peer) : Session σ :=
  match child.primaryUrl with
  | some url => (s.openLink url).2
  | none => s

/-- Nothing is given back where a link is opened once more. -/
theorem trace_retain (s : Session σ) (child : Peer) :
    ∃ later, (s.retain child).trace = s.trace ++ later ∧ ∀ e ∈ later, e.releases v = false := by
  unfold retain
  cases child.primaryUrl with
  | none => exact ⟨[], by simp, by simp⟩
  | some url =>
      obtain ⟨result, htrace, -⟩ := trace_openLink s url
      exact ⟨[.opened url result], htrace, by simp [Effect.releases]⟩

/-- All that is opened for a child that is welcomed is the link to it. -/
theorem idles_welcome (s : Session σ) (child : Peer) (admission : Admission) :
    (s.retain child).Idles (s.welcome child admission) := by
  have hnew : (s.retain child).Idles _ :=
    ((idles_withPosition _ (s.node.position.welcome child admission)).trans
      (idles_note _ (.acceptChild child.id (admission.rank s.node.position.rank)))).trans
      (idles_sendAll _ s.node.position.children (.newSibling
        ⟨admission.rank s.node.position.rank, s.node.chain, s.node.position.children,
          s.node.position.global.snapshot, child⟩))
  unfold welcome
  dsimp only
  split
  · exact hnew.trans (idles_sendAll _ _ _)
  · exact hnew

/-- A node that accepts a child gives nothing back. -/
theorem trace_accept (s : Session σ) (child : Peer) (admission : Admission) :
    ∃ later, (s.accept child admission).trace = s.trace ++ later ∧
      ∀ e ∈ later, e.releases v = false := by
  obtain ⟨offered, hoffered, hidle⟩ := idles_send s child (s.node.offer admission) .control
  have hquiet : ∀ e ∈ offered, e.releases v = false := fun e he =>
    Effect.releases_of_isIdle (hidle e he)
  cases hsent : (s.send child (s.node.offer admission) .control).1 with
  | false =>
      rw [accept_of_not_sent hsent]
      exact ⟨offered, hoffered, hquiet⟩
  | true =>
      rw [accept_of_sent hsent]
      generalize (s.send child (s.node.offer admission) .control).2 = t at hoffered ⊢
      obtain ⟨opened, hopened, hnone⟩ := trace_retain (v := v) t child
      obtain ⟨told, htold, hidle'⟩ := idles_welcome t child admission
      refine ⟨offered ++ opened ++ told, by rw [htold, hopened, hoffered]; simp, fun e he => ?_⟩
      rcases List.mem_append.1 he with he | he
      · exact (List.mem_append.1 he).elim (hquiet e) (hnone e)
      · exact Effect.releases_of_isIdle (hidle' e he)

/-- A node that accepts a child holds whatever it took for it. -/
theorem accounts_accept (s : Session σ) (child : Peer) (admission : Admission) :
    s.Accounts v c
      (c + (s.since (s.accept child admission)).countP (Effect.takes v))
      (s.accept child admission) := by
  obtain ⟨later, htrace, hnone⟩ := trace_accept (v := v) s child admission
  exact ⟨later, htrace, by rw [since_of_trace_eq htrace, Effect.account_of_not_releases hnone]⟩

end Session

end BrokerForest
