import BrokerForest.Proofs.Shifts
/-!
# Consent: a father is only ever one that has accepted the node

A node waits for one answer at a time, and waits begin, are given up, run out and begin
again, while responses may come early, late, twice or from somebody else.  Whatever comes,
the mailbox of a negotiation only ever holds what the peer that is asked has sent since the
wait for it began.  So no node is taken for a father that has not just agreed to it, and an
agreement that nobody waits for is turned down.

Main statements:

* `Negotiated` — how the negotiation that goes on has come to be, and whence what its mailbox
  holds;
* `Negotiated.act`, `Life.negotiated` — so it is after every act, and with every negotiation in
  every life;
* `Effect.Transient` — what is seen of a message over a link of its own;
* **`Life.father_by_consent_only`** — how a node comes to a father, and what becomes of an
  acceptance that comes too late.
-/

namespace BrokerForest

/-! ## The parts of a negotiation -/

/-- An episode in which a node sends a peer the request that it has made up, and from which on
it waits for its answer. -/
structure Episode.Asks (e : Episode) (negotiation : Negotiation) : Prop where
  negotiating : e.after.slot.holder = some (.negotiating negotiation)
  declared : e.after.mailbox = e.before.mailbox.expect negotiation.peer
  requested : ∃ request, e.before.slot.holder = some (.asking negotiation request) ∧
    .sent negotiation.peer (.request request) .control true ∈ e.seen

/-- An episode throughout which a negotiation goes on. -/
structure Episode.Within (e : Episode) (negotiation : Negotiation) : Prop where
  before : e.before.slot.holder = some (.negotiating negotiation)
  after : e.after.slot.holder = some (.negotiating negotiation)

/-- An episode in which a response arrives from a peer that is waited for. -/
def Episode.Brings (e : Episode) (peer : Peer) (response : Response) : Prop :=
  ∃ origin, e.act = .event (.message origin (.response response)) ∧ origin.id = peer.id ∧
    e.before.mailbox.expects origin = true

/-- How a negotiation has come to be: the peer was asked, and the negotiation has gone on
ever since.  The mailbox waits for nobody but this peer, and holds nothing but what has
arrived from it in the meantime. -/
def Negotiated (history : List Episode) (mailbox : Mailbox) (negotiation : Negotiation) : Prop :=
  ∃ prior ask since, history = prior ++ ask :: since ∧ ask.Asks negotiation ∧
    (∀ e ∈ since, e.Within negotiation) ∧
    (∀ peer, mailbox.awaited = some peer → peer = negotiation.peer) ∧
    ∀ response, mailbox.delivered = some response →
      ∃ between arrival later, since = between ++ arrival :: later ∧
        arrival.Brings negotiation.peer response

/-- A node comes to a father in an episode by the father's consent: in the negotiation that
goes on the father was asked, since then it has answered that it accepts the node, and the
episode takes this answer out of the mailbox. -/
def Episode.ByConsent (e : Episode) (past : List Episode) (father : Peer) : Prop :=
  ∃ (prior : List Episode) (ask : Episode) (between : List Episode) (arrival : Episode)
    (later : List Episode) (negotiation : Negotiation) (response : Response),
    past = prior ++ ask :: (between ++ arrival :: later) ∧ negotiation.peer = father ∧
      ask.Asks negotiation ∧ (∀ e ∈ between ++ arrival :: later, e.Within negotiation) ∧
      arrival.Brings father response ∧ response.isAcceptance = true ∧
      e.act = .resume ∧ e.before.slot.holder = some (.negotiating negotiation) ∧
      e.before.mailbox.collect = .ok response ∧ e.after.mailbox = .empty

/-! ## Every negotiation -/

section

variable {history : List Episode} {e : Episode} {m m' : Mailbox} {negotiation : Negotiation}

/-- A negotiation goes on through an episode that brings no response. -/
theorem Negotiated.snoc (h : Negotiated history m negotiation) (hwithin : e.Within negotiation)
    (hawaited : m'.awaited = none ∨ m'.awaited = m.awaited)
    (hdelivered : m'.delivered = m.delivered) :
    Negotiated (history ++ [e]) m' negotiation := by
  obtain ⟨prior, ask, since, rfl, hasks, hsince, hpeer, hholds⟩ := h
  refine ⟨prior, ask, since ++ [e], by simp, hasks, ?_, fun peer hw => ?_, fun response hr => ?_⟩
  · intro e' he'
    rcases List.mem_append.1 he' with he' | he'
    · exact hsince e' he'
    · rw [List.mem_singleton.1 he']
      exact hwithin
  · rcases hawaited with hnone | heq
    · rw [hnone] at hw
      cases hw
    · exact hpeer peer (heq ▸ hw)
  · obtain ⟨between, arrival, later, rfl, hbrings⟩ := hholds response (hdelivered ▸ hr)
    exact ⟨between, arrival, later ++ [e], by simp, hbrings⟩

/-- A negotiation goes on through the episode in which the response arrives. -/
theorem Negotiated.snoc_deliver {origin : Peer} {response : Response}
    (h : Negotiated history m negotiation) (hwithin : e.Within negotiation)
    (hbefore : e.before.mailbox = m) (hact : e.act = .event (.message origin (.response response)))
    (hdeliver : m.deliver origin response = .ok m') :
    Negotiated (history ++ [e]) m' negotiation := by
  obtain ⟨prior, ask, since, rfl, hasks, hsince, hpeer, hholds⟩ := h
  obtain ⟨hexpects, hnobody, hheld⟩ := Mailbox.deliver_eq_ok hdeliver
  refine ⟨prior, ask, since ++ [e], by simp, hasks, ?_, by simp [hnobody], fun response' hr => ?_⟩
  · intro e' he'
    rcases List.mem_append.1 he' with he' | he'
    · exact hsince e' he'
    · rw [List.mem_singleton.1 he']
      exact hwithin
  · rcases hheld response' hr with hr | rfl
    · obtain ⟨between, arrival, later, rfl, hbrings⟩ := hholds response' hr
      exact ⟨between, arrival, later ++ [e], by simp, hbrings⟩
    · obtain ⟨expected, hexpected, hid⟩ := Peer.isThe_iff.1 hexpects
      refine ⟨since, e, [], rfl, origin, hact, ?_, hbefore ▸ hexpects⟩
      rw [hid, hpeer expected hexpected]

end

/-- **Every negotiation goes on through an act, or has come to be in it by asking the peer.** -/
theorem Negotiated.act {history : List Episode} {n : Node} {a : Act} {σ : Type} [Transport σ]
    (ih : ∀ negotiation, n.slot.holder = some (.negotiating negotiation) →
      Negotiated history n.mailbox negotiation)
    (outside : σ) (ws : Words) (possible : a.Possible n) {negotiation : Negotiation}
    (h : (a.run ⟨n, outside, ws, []⟩).node.slot.holder = some (.negotiating negotiation)) :
    Negotiated (history ++ [Session.episode ⟨n, outside, ws, []⟩ a])
      (a.run ⟨n, outside, ws, []⟩).node.mailbox negotiation := by
  obtain ⟨-, -, -, hwaits, -⟩ := Session.turns_run ⟨n, outside, ws, []⟩ possible
  generalize hafter : (a.run ⟨n, outside, ws, []⟩ : Session σ) = t at h hwaits
  have hepisode : Session.episode ⟨n, outside, ws, []⟩ a = ⟨a, n, t.node, t.trace⟩ := by
    rw [Session.episode, hafter]
  rw [hepisode]
  have hwithin : t.node.slot = n.slot →
      Episode.Within ⟨a, n, t.node, t.trace⟩ negotiation := fun hslot => ⟨hslot ▸ h, h⟩
  cases hwaits with
  | aside _ slot mailbox =>
      refine (ih _ (slot ▸ h)).snoc (hwithin slot) (Or.inr ?_) ?_ <;> rw [mailbox]
  | deliver slot delivered =>
      exact (ih _ (slot ▸ h)).snoc_deliver (hwithin slot) rfl rfl delivered
  | cancel _ peer slot mailbox =>
      obtain ⟨hawaited, hdelivered⟩ := n.mailbox.cancel_frame peer
      exact (ih _ (slot ▸ h)).snoc (hwithin slot) (mailbox ▸ hawaited) (mailbox ▸ hdelivered)
  | step _ _ _ after => simp [Node.isWaiting, h, Holder.isWaiting] at after
  | forsake _ founding => simp [h] at founding
  | found _ free => simp [free, Slot.free] at h
  | @ask negotiation' request asking mailbox asked =>
      rcases asked with ⟨negotiating, sent⟩ | retreating
      · obtain rfl : negotiation' = negotiation := by
          rw [negotiating] at h
          cases h
          rfl
        refine ⟨history, _, [], rfl, ⟨negotiating, mailbox, request, asking, ?_⟩, by simp, ?_, ?_⟩
        · simpa [Session.since] using sent
        · rw [mailbox]
          intro peer hpeer
          cases hpeer
          rfl
        · rw [mailbox]
          intro response hresponse
          cases hresponse
      · rw [retreating] at h
        cases h
  | rest _ _ after => simp [h] at after

/-- **Every negotiation in every life has come to be by asking the peer**, and holds nothing
but what has arrived from this peer since. -/
theorem Life.negotiated {cond : Episode → Prop} {history : List Episode} {n : Node}
    (life : Life cond history n) {negotiation : Negotiation}
    (h : n.slot.holder = some (.negotiating negotiation)) :
    Negotiated history n.mailbox negotiation := by
  induction life generalizing negotiation with
  | birth => simp [Node.start, Slot.free] at h
  | act life outside ws possible _ ih => exact Negotiated.act (fun _ => ih) outside ws possible h

/-! ## An acceptance that comes too late -/

/-- What is seen of a node that sends a message over a link of its own: nothing, if it knows
of no URL to open a link to; an attempt to open a link; or a link, the message to whom the
link leads, and the end of the link. -/
inductive Effect.Transient (peer : Peer) (message : Message) (traffic : TrafficClass) :
    List Effect → Prop where
  | nowhere (unknown : peer.primaryUrl = none) : Transient peer message traffic []
  | failed {url : String} {error : LinkError} (known : peer.primaryUrl = some url)
      (nobody : (Effect.opened url (.error error)).resolved = []) :
      Transient peer message traffic [.opened url (.error error)]
  | passed {url : String} {result : Except LinkError Peer} {linked : Peer} {delivered : Bool}
      (known : peer.primaryUrl = some url)
      (leads : linked ∈ (Effect.opened url result).resolved) :
      Transient peer message traffic
        [.opened url result, .sent linked message traffic delivered, .closed linked]

namespace Session

variable {σ : Type} [Transport σ]

theorem trace_sendTransient (s : Session σ) (peer : Peer) (message : Message)
    (traffic : TrafficClass) :
    ∃ seen, (s.sendTransient peer message traffic).trace = s.trace ++ seen ∧
      Effect.Transient peer message traffic seen := by
  unfold sendTransient launch
  cases hurl : peer.primaryUrl with
  | none => exact ⟨[], (List.append_nil _).symm, .nowhere hurl⟩
  | some url =>
      dsimp only
      split
      · rename_i error t heq
        obtain ⟨htrace, hnobody⟩ := trace_openLink_of_error heq
        exact ⟨_, htrace, .failed hurl hnobody⟩
      · rename_i linked t heq
        obtain ⟨result, htrace, hresolved⟩ := trace_openLink s url
        rw [heq] at htrace hresolved
        let delivered := (t.send linked message traffic).1
        refine ⟨[.opened url result, .sent linked message traffic delivered, .closed linked], ?_,
          .passed hurl ((hresolved linked).2 rfl)⟩
        change (t.trace ++ [_]) ++ [_] = _
        rw [htrace, List.append_assoc, List.append_assoc]
        rfl

omit [Transport σ] in
theorem trace_note (s : Session σ) (notice : Notice) :
    (s.note notice).trace =
      s.trace ++ if s.node.settings.logEvents then [.noted notice] else [] := by
  unfold note
  split <;> simp [see]

/-- An acceptance that nobody waits for leaves the node as it is, and its sender is told over
a link of its own that the node is no child. -/
theorem onResponse_of_late {s : Session σ} {origin : Peer} {response : Response}
    (haccepts : response.isAcceptance = true) (hlate : s.node.mailbox.expects origin = false) :
    (s.onResponse origin response).node = s.node ∧
      ∃ seen, Effect.Transient origin .noLongerChild .control seen ∧
        (s.onResponse origin response).trace = s.trace ++
          (if s.node.settings.logEvents then [.noted (.violation origin.id response.subject)]
            else []) ++ seen := by
  obtain ⟨error, herror⟩ := Mailbox.deliver_of_not_expected hlate response
  have heq : s.onResponse origin response =
      (s.note (.violation origin.id response.subject)).sendTransient origin .noLongerChild
        .control := by
    simp only [onResponse, herror, haccepts, if_true]
  obtain ⟨seen, htrace, htransient⟩ := (s.note (.violation origin.id
    response.subject)).trace_sendTransient origin .noLongerChild .control
  rw [heq]
  exact ⟨by simp, seen, htransient, by rw [htrace, trace_note]⟩

end Session

/-! ## All that can happen to a node -/

namespace Life

variable {cond : Episode → Prop} {past later : List Episode} {e : Episode} {n : Node}

/-- A node that comes to a father does so by its consent. -/
theorem byConsent (life : Life cond (past ++ e :: later) n) {father : Peer}
    (hbefore : e.before.position.father = none) (hafter : e.after.position.father = some father) :
    e.ByConsent past father := by
  obtain ⟨hpast, -, σ, _, outside, ws, -, hepisode⟩ := life.split rfl
  rcases life.shift.father with (hsame | hlost) | ⟨hact, negotiation, response, acceptance, ws',
    hslot, hcollect, hanswer, hplace⟩
  · rw [hafter, hbefore] at hsame
    cases hsame
  · rw [hafter] at hlost
    cases hlost
  · obtain ⟨prior, ask, since, rfl, hasks, hsince, -, hholds⟩ := hpast.negotiated hslot
    obtain ⟨between, arrival, rest, rfl, hbrings⟩ :=
      hholds response (Mailbox.delivered_of_collect hcollect)
    obtain rfl : negotiation.peer = father := by
      rw [hplace] at hafter
      exact Option.some.inj ((Position.settle_frame ..).1.symm.trans hafter)
    have hempty : e.after.mailbox = .empty := by
      rw [hepisode, hact]
      exact Session.mailbox_resume hslot
    exact ⟨prior, ask, between, arrival, rest, negotiation, response, rfl, rfl, hasks, hsince,
      hbrings, by simp [Response.isAcceptance, hanswer], hact, hslot, hcollect, hempty⟩

/-- A node does not go from one father to another at once. -/
theorem father_eq (life : Life cond (past ++ e :: later) n) {father father' : Peer}
    (hbefore : e.before.position.father = some father)
    (hafter : e.after.position.father = some father') : father' = father := by
  rcases life.shift.father with (hsame | hlost) | ⟨-, negotiation, _, _, _, hslot, -⟩
  · rw [hbefore, hafter] at hsame
    exact Option.some.inj hsame
  · rw [hafter] at hlost
    cases hlost
  · -- A node that negotiates has no father that it could go from.
    have hroot := (life.split rfl).1.father_of_seeking (Node.isSeeking_of_holder hslot rfl)
    rw [hbefore] at hroot
    cases hroot

/-- **In every life a father is taken by consent only.**  Whatever has happened to a node: if
it has no father before an episode and one after it, then by this father's consent; it never
goes from one father to another at once; and an acceptance from a peer that it does not wait
for changes nothing of it, and of what is then seen of it all but a note is the attempt to
tell the sender, once and over a link of its own, that it is no child. -/
theorem father_by_consent_only (life : Life cond (past ++ e :: later) n) :
    (∀ father, e.before.position.father = none → e.after.position.father = some father →
      e.ByConsent past father) ∧
    (∀ father father', e.before.position.father = some father →
      e.after.position.father = some father' → father' = father) ∧
    ∀ origin response, e.act = .event (.message origin (.response response)) →
      response.isAcceptance = true → e.before.mailbox.expects origin = false →
        e.after = e.before ∧ ∃ seen, Effect.Transient origin .noLongerChild .control seen ∧
          e.seen = (if e.before.settings.logEvents then
            [.noted (.violation origin.id response.subject)] else []) ++ seen := by
  refine ⟨fun _ => life.byConsent, fun _ _ => life.father_eq, ?_⟩
  intro origin response hact haccepts hlate
  obtain ⟨-, -, σ, _, outside, ws, -, hepisode⟩ := life.split rfl
  rw [hact] at hepisode
  obtain ⟨hnode, seen, htransient, htrace⟩ :=
    Session.onResponse_of_late (s := ⟨e.before, outside, ws, []⟩) haccepts hlate
  exact ⟨(congrArg Episode.after hepisode).trans hnode, seen, htransient,
    (congrArg Episode.seen hepisode).trans htrace⟩

end Life

namespace Rehearsal

/-- A broker asks a second and becomes its child; then a third accepts it, whom it never
asked, and is turned down. -/
theorem father_by_consent_only_of_courtship :
    let past := newborn.story trio still courtship
    let e := (newborn.grown trio still courtship).live trio still .resume
    let stray := e.after.live trio still
      (.event (.message (broker 3 "z") (.response ⟨⟨.colorless, ⟨2.0⟩⟩, .accepted ⟨[], []⟩⟩)))
    Life (fun _ => True) ((past ++ [e]) ++ [stray]) stray.after ∧
      e.after.position.father = some (broker 2 "y") ∧ e.ByConsent past (broker 2 "y") ∧
        stray.after = e.after ∧ ∃ seen,
          Effect.Transient (broker 3 "z") .noLongerChild .control seen ∧ stray.seen =
            .noted (.violation (broker 3 "z").id "CONNECTION_ACCEPTED") :: seen := by
  intro past e stray
  have hpossible : ∀ e ∈ newborn.story trio still courtship,
      e.act.Possible e.before ∧ (fun _ : Episode => True) e := by decide +kernel
  have asked : Life (fun _ => True) past (newborn.grown trio still courtship) :=
    (Life.birth .standard (broker 1 "x") still).story trio still hpossible
  have married : Life (fun _ => True) (past ++ [e]) e.after :=
    asked.act (a := .resume) trio still trivial trivial
  have whole : Life (fun _ => True) ((past ++ [e]) ++ [stray]) stray.after :=
    married.act trio still trivial trivial
  have hfather : e.after.position.father = some (broker 2 "y") := by decide +kernel
  have hnotes : stray.before.settings.logEvents = true := by decide +kernel
  obtain ⟨hsame, hseen⟩ := whole.father_by_consent_only.2.2 (broker 3 "z") _ rfl rfl
    (by decide +kernel)
  rw [if_pos hnotes] at hseen
  exact ⟨whole, hfather, married.father_by_consent_only.1 _ (by decide +kernel) hfather, hsame,
    hseen⟩

end Rehearsal

end BrokerForest
