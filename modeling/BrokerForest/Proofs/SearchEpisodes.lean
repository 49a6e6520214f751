import BrokerForest.Proofs.Consent
import BrokerForest.Proofs.Drawing
import BrokerForest.Proofs.SearchOutcome
import BrokerForest.Proofs.SentMessages
/-!
# A search, told by episodes

A search goes on through episodes of the node's life.  In some of them it goes on itself: it
takes a candidate, opens a link to it, asks whom it has found there, or takes an answer and
learns from a refusal.  In all others the node does something else, and the search waits.  When
it has found nobody the node may have a tree to found, and with that the pursuit is over.

What an episode makes of the search is told here once.  That everyone was tried, or asked with
force only when it was due, is told of whole pursuits by those who need it.

Main statements:

* `Search.Pursuit` — a search and the episodes that it goes on through;
* `Episode.Takes`, `Episode.Contacts`, `Episode.Submits`, `Episode.Learns` — the episodes in
  which it goes on itself;
* `Search.Moves`, **`Session.moves_run`** — what an episode makes of a search;
* `Search.Pursuit.along` — what every episode keeps of a search, the whole pursuit keeps;
* `Search.Pursuit.tried_iff` — the candidates that were taken are those that count as tried;
* `Candidate.Tried`, `Candidate.Pending`, **`Search.Pursuit.tried_or_pending`** — whoever was
  taken is asked, or is about to be.
-/

namespace BrokerForest

/-! ## The steps of a search -/

/-- An episode in which a search takes the next candidate out of its pools.  Nothing is seen of
it but a pause, perhaps. -/
structure Episode.Takes (e : Episode) (search : Search) (c : Candidate) : Prop where
  act : e.act = .advance
  searching : e.before.slot.holder = some (.searching search)
  drawn : ∃ ws,
    (search.pools.next (search.admits e.before.self e.before.position.neighbors) ws).found =
      some c ∧
    e.after = { e.before with
      slot := ⟨some (c.holder (search.mark
        (search.pools.next (search.admits e.before.self e.before.position.neighbors) ws).pools
        c))⟩ }
  pauses : ∀ effect ∈ e.seen, ∃ length, effect = .paused length

/-- A peer is asked in an episode. -/
def Episode.Requests (e : Episode) (peer : Peer) (request : Request) : Prop :=
  ∃ traffic delivered, .sent peer (.request request) traffic delivered ∈ e.seen

/-- An episode in which a link is opened for the sake of a search.  Whom it leads to is to be
asked then, unless this is the node itself. -/
structure Episode.Contacts (e : Episode) (search : Search) (attempt : Attempt) : Prop where
  opening : e.before.slot.holder = some (.opening attempt)
  contacted : ∃ result holder, .opened attempt.url result ∈ e.seen ∧
    e.after = { e.before with slot := ⟨some holder⟩ } ∧ holder.search? = some search ∧
      ((∃ peer rank, peer ∈ (Effect.opened attempt.url result).resolved ∧
          holder = .asking ⟨peer, attempt.purpose⟩ ⟨rank, attempt.force⟩) ∨
        holder = .searching search ∧ ∀ peer ∈ (Effect.opened attempt.url result).resolved,
          peer.same e.before.self = true)
  silent : ∀ peer request, ¬ e.Requests peer request

/-- An episode in which a request is sent, whether it goes out or not. -/
structure Episode.Submits (e : Episode) (negotiation : Negotiation) (request : Request) :
    Prop where
  asking : e.before.slot.holder = some (.asking negotiation request)
  submitted : ∃ delivered, e.seen = [.sent negotiation.peer (.request request) .control delivered]
  waits : ∃ mailbox holder, e.after = { e.before with mailbox := mailbox, slot := ⟨some holder⟩ } ∧
    (holder = .negotiating negotiation ∨ holder = .retreating negotiation)

/-- An episode in which a search takes a peer's refusal out of the mailbox, and learns from it. -/
structure Episode.Learns (e : Episode) (search : Search) (peer : Peer) (refusal : Refusal) :
    Prop where
  act : e.act = .resume
  negotiating : ∃ source,
    e.before.slot.holder = some (.negotiating ⟨peer, .search search source⟩)
  refused : ∃ response, e.before.mailbox.collect = .ok response ∧
    response.answer = .refused refusal
  after : e.after = { e.before with
    position := e.before.position.taught e.before.self refusal.hint?
    mailbox := .empty
    slot := ⟨some (.searching (search.learn e.before.self peer refusal))⟩ }

namespace Search

/-- What an episode makes of a search. -/
inductive Moves (search : Search) (e : Episode) : Prop where
  /-- The search waits. -/
  | aside (slot : e.after.slot = e.before.slot)
      (idle : e.act = .advance ∨ e.act = .resume → e.after = e.before)
      (silent : ∀ peer request, ¬ e.Requests peer request)
  /-- It takes a candidate. -/
  | takes (c : Candidate) (takes : e.Takes search c)
  /-- It opens a link to a candidate. -/
  | contacts (attempt : Attempt) (contacts : e.Contacts search attempt)
  /-- It asks whom it has found. -/
  | submits (negotiation : Negotiation) (request : Request)
      (submits : e.Submits negotiation request)
  /-- It learns from a refusal. -/
  | learns (peer : Peer) (refusal : Refusal) (learns : e.Learns search peer refusal)
  /-- It gives up a request, or the wait for an answer, and goes on. -/
  | unanswered (waiting : e.before.isWaiting = true)
      (after : e.after = { e.before with mailbox := .empty, slot := ⟨some (.searching search)⟩ })
  /-- It has found a father. -/
  | accepted (waiting : e.before.isWaiting = true) (free : e.after.slot = .free)
      (father : ∃ p, e.after.position.father = some p)
  /-- It is given up, as the node was stopped. -/
  | stopped (searching : e.before.slot.holder = some (.searching search))
      (ended : e.after.slot.holder = none ∨ e.after.slot.holder = some (.founding true))
      (stopped : e.before.stopped = true)
  /-- It finds no candidate any more. -/
  | exhausted (searching : e.before.slot.holder = some (.searching search))
      (ended : e.after.slot.holder = none ∨ e.after.slot.holder = some (.founding true))
      (ws : Words)
      (found : (search.pools.next
        (search.admits e.before.self e.before.position.neighbors) ws).found = none)

end Search

/-- Whether a search goes on, or has come to nothing and the node is to found a tree for it. -/
def Node.isUnderway (n : Node) : Bool :=
  n.search?.isSome || n.slot.holder == some (.founding true)

theorem Node.isUnderway_iff {n : Node} : n.isUnderway = true ↔
    (∃ search, n.search? = some search) ∨ n.slot.holder = some (.founding true) := by
  rw [isUnderway, Bool.or_eq_true, Option.isSome_iff_exists, beq_iff_eq]

theorem Node.search?_of_not_isUnderway {n : Node} (h : n.isUnderway = false) :
    n.search? = none := by
  rw [isUnderway, Bool.or_eq_false_iff] at h
  simpa using h.1

/-- Nobody is searched for when the slot is free, or a tree is to be founded. -/
theorem Node.search?_of_ended {n : Node}
    (h : n.slot.holder = none ∨ n.slot.holder = some (.founding true)) : n.search? = none := by
  rcases h with h | h <;> rw [search?, h] <;> rfl

theorem Episode.Takes.underway {e : Episode} {search : Search} {c : Candidate}
    (h : e.Takes search c) : e.before.search? = some search :=
  Node.search?_of_holder h.searching

/-- The search goes on from a candidate that it takes with what the draw has left, and loses nobody
but the candidate. -/
theorem Episode.Takes.conserves {e : Episode} {search : Search} {c : Candidate}
    (h : e.Takes search c) :
    ∃ next : NextCandidate,
      next.Conserves (search.admits e.before.self e.before.position.neighbors)
        search.pools.order.kinds search.pools ∧
      next.found = some c ∧ e.after.search? = some (search.mark next.pools c) := by
  obtain ⟨ws, hfound, hafter⟩ := h.drawn
  refine ⟨_, search.pools.next_conserves _ ws, hfound, ?_⟩
  rw [hafter]
  exact c.search?_holder _

/-- The search that whoever is asked is asked for goes on. -/
theorem Episode.Submits.search?_eq {e : Episode} {negotiation : Negotiation} {request : Request}
    (h : e.Submits negotiation request) : e.after.search? = e.before.search? := by
  obtain ⟨mailbox, holder, hafter, hholder⟩ := h.waits
  rw [Node.search?_of_holder h.asking, hafter]
  rcases hholder with rfl | rfl <;> rfl

/-- A search goes on after an episode, or is over, or a tree is to be founded for it. -/
theorem Search.Moves.underway_or_free {search : Search} {e : Episode} (h : search.Moves e)
    (before : e.before.search? = some search) :
    e.after.isUnderway = true ∨ e.after.slot.holder = none := by
  have hgoes {search' : Search} (hafter : e.after.search? = some search') :
      e.after.isUnderway = true ∨ e.after.slot.holder = none :=
    Or.inl (Node.isUnderway_iff.2 (Or.inl ⟨search', hafter⟩))
  cases h with
  | aside slot => exact hgoes (by rwa [Node.search?, slot])
  | takes c takes =>
      obtain ⟨next, -, -, hafter⟩ := takes.conserves
      exact hgoes hafter
  | contacts attempt contacts =>
      obtain ⟨result, holder, -, hafter, hholder, -⟩ := contacts.contacted
      exact hgoes (by rw [hafter]; exact hholder)
  | submits negotiation request submits => exact hgoes (submits.search?_eq.trans before)
  | learns peer refusal learns => exact hgoes (by rw [learns.after]; rfl)
  | unanswered _ heq => exact hgoes (by rw [heq]; rfl)
  | accepted _ free => exact Or.inr (by rw [free]; rfl)
  | stopped _ ended | exhausted _ ended =>
      rcases ended with hfree | hfounding
      · exact Or.inr hfree
      · exact Or.inl (Node.isUnderway_iff.2 (Or.inr hfounding))

/-- What an episode leaves of a search that goes on: what it was, or what is left after it has
taken a candidate, or what it has learnt. -/
theorem Search.Moves.next {search search' : Search} {e : Episode} (h : search.Moves e)
    (before : e.before.search? = some search) (after : e.after.search? = some search') :
    search' = search ∨
      (∃ c next, e.Takes search c ∧
        NextCandidate.Conserves (search.admits e.before.self e.before.position.neighbors)
          search.pools.order.kinds search.pools next ∧
        next.found = some c ∧ search' = search.mark next.pools c) ∨
      ∃ peer refusal, e.Learns search peer refusal ∧
        search' = search.learn e.before.self peer refusal := by
  cases h with
  | aside slot =>
      rw [Node.search?, slot] at after
      exact Or.inl (Option.some.inj (after.symm.trans before))
  | takes c takes =>
      obtain ⟨next, hconserves, hfound, hnext⟩ := takes.conserves
      exact Or.inr (Or.inl ⟨c, next, takes, hconserves, hfound,
        Option.some.inj (after.symm.trans hnext)⟩)
  | contacts attempt contacts =>
      obtain ⟨result, holder, -, hafter, hholder, -⟩ := contacts.contacted
      rw [hafter] at after
      exact Or.inl (Option.some.inj (after.symm.trans hholder))
  | submits negotiation request submits =>
      exact Or.inl (Option.some.inj ((after.symm.trans submits.search?_eq).trans before))
  | learns peer refusal learns =>
      rw [learns.after] at after
      exact Or.inr (Or.inr ⟨peer, refusal, learns, (Option.some.inj after).symm⟩)
  | unanswered _ heq =>
      rw [heq] at after
      exact Or.inl (Option.some.inj after).symm
  | accepted _ free =>
      rw [Node.search?, free] at after
      cases after
  | stopped _ ended | exhausted _ ended =>
      rw [Node.search?_of_ended ended] at after
      cases after

namespace Session

variable {σ : Type} {s : Session σ} {search : Search}

/-- A pause is all that may be seen of a draw. -/
theorem trace_afterDraw (s : Session σ) (search : Search) :
    ∃ pause, (s.afterDraw search).trace = s.trace ++ pause ∧
      ∀ effect ∈ pause, ∃ length, effect = .paused length := by
  unfold afterDraw pause
  cases (s.nextCandidate search).pause with
  | none => exact ⟨[], by simp [withWords], by simp⟩
  | some length => exact ⟨[.paused length], rfl, by simp⟩

variable [Transport σ]

/-- A node asks a peer only when it goes on, and only whom it has found. -/
theorem asking_of_requested {peer : Peer} {request : Request} {a : Act}
    (h : (s.episode a).Requests peer request) (fresh : s.trace = []) :
    a = .advance ∧ ∃ negotiation, s.node.slot.holder = some (.asking negotiation request) := by
  obtain ⟨traffic, delivered, hsent⟩ := h
  have hsent : .sent peer (.request request) traffic delivered ∈ s.since (a.run s) := by
    rw [since, fresh]
    exact hsent
  have hsays : s.node.Says a (a.run s).node.position.rank (.request request) :=
    (says_run s a).allows hsent
  cases hsays with
  | ask _ asks => exact ⟨rfl, _, asks⟩

/-- The search takes the next candidate, or it ends. -/
theorem moves_draw (fresh : s.trace = [])
    (searching : s.node.slot.holder = some (.searching search)) :
    search.Moves (s.episode .advance) := by
  have hrun : Act.advance.run s = s.draw search := advance_of_searching searching
  rcases s.draw_cases search with ⟨hstopped, heq⟩ | ⟨-, ⟨hfound, heq⟩ | ⟨c, hfound, heq⟩⟩
  · refine .stopped searching ?_ hstopped
    rw [episode, hrun, heq]
    exact (frame_endSearch ..).1.imp_right And.right
  · refine .exhausted searching ?_ s.words hfound
    rw [episode, hrun, heq]
    exact (frame_endSearch ..).1.imp_right And.right
  · obtain ⟨pause, hpause, hpaused⟩ := s.trace_afterDraw search
    rw [fresh, List.nil_append] at hpause
    refine .takes c ⟨rfl, searching, ⟨s.words, hfound, ?_⟩, fun effect heffect => ?_⟩
    · rw [episode, hrun, heq, node_hold, node_afterDraw]
      rfl
    · refine hpaused effect ?_
      rw [episode, hrun, heq] at heffect
      rwa [← hpause]

/-- The search finds whom it is to ask, or goes on to the next candidate. -/
theorem moves_approach {attempt : Attempt} {source : PoolKind}
    (fresh : s.trace = []) (opening : s.node.slot.holder = some (.opening attempt))
    (purpose : attempt.purpose = .search search source) :
    search.Moves (s.episode .advance) := by
  have hrun : Act.advance.run s = s.approach attempt := advance_of_opening opening
  obtain ⟨result, htrace, hleads⟩ := s.trace_openLink attempt.url
  have hseen : .opened attempt.url result ∈ (s.openLink attempt.url).2.trace := by simp [htrace]
  refine .contacts attempt ⟨opening, ?_, fun peer request hrequests => ?_⟩
  swap
  · obtain ⟨-, negotiation, hasking⟩ := asking_of_requested hrequests fresh
    exact absurd (opening.symm.trans hasking) (by simp)
  rw [episode, hrun]
  rcases s.approach_cases attempt with
    ⟨error, hopen, heq⟩ | ⟨peer, hopen, ⟨hself, heq⟩ | ⟨-, heq⟩⟩ <;> rw [heq]
  · rw [purpose]
    refine ⟨result, .searching search, hseen, ?_, rfl, Or.inr ⟨rfl, fun peer hpeer => ?_⟩⟩
    · simp [settle]
    · rw [hleads, hopen] at hpeer
      cases hpeer
  · rw [purpose]
    refine ⟨result, .searching search, List.mem_append_left _ hseen, ?_, rfl,
      Or.inr ⟨rfl, fun other hother => ?_⟩⟩
    · simp [settle]
    · rw [hleads, hopen] at hother
      cases hother
      exact hself
  · refine ⟨result, .asking ⟨peer, attempt.purpose⟩ ⟨s.node.position.rank, attempt.force⟩, hseen,
      by simp, ?_, Or.inl ⟨peer, _, (hleads peer).2 hopen, rfl⟩⟩
    rw [purpose]
    rfl

/-- Whoever is to be asked is asked. -/
theorem submits_advance (fresh : s.trace = []) {negotiation : Negotiation} {request : Request}
    (asking : s.node.slot.holder = some (.asking negotiation request)) :
    (s.episode .advance).Submits negotiation request := by
  have hrun : Act.advance.run s = s.submit negotiation request := advance_of_asking asking
  obtain ⟨holder, hnode, hsent⟩ := s.submit_cases negotiation request
  rw [fresh, List.nil_append] at hsent
  refine ⟨asking, ?_, ?_⟩
  · rw [episode, hrun]
    rcases hsent with ⟨-, htrace⟩ | ⟨-, htrace⟩
    · exact ⟨true, htrace⟩
    · exact ⟨false, htrace⟩
  · rw [episode, hrun]
    exact ⟨_, holder, hnode, hsent.imp And.left And.left⟩

/-- What an advance makes of a search. -/
theorem moves_advance (fresh : s.trace = []) (h : s.node.search? = some search) :
    search.Moves (s.episode .advance) := by
  match hholder : s.node.slot.holder with
  | none => simp [Node.search?, hholder] at h
  | some .outsider | some (.leaving _) | some (.founding _) =>
      rw [Node.search?_of_holder hholder] at h
      cases h
  | some (.searching held) =>
      rw [Node.search?_of_holder hholder] at h
      obtain rfl : held = search := Option.some.inj h
      exact moves_draw fresh hholder
  | some (.opening attempt) =>
      rw [Node.search?_of_holder hholder] at h
      obtain ⟨source, hpurpose⟩ := Purpose.eq_search_of h
      exact moves_approach fresh hholder hpurpose
  | some (.asking negotiation request) =>
      exact .submits negotiation request (submits_advance fresh hholder)
  | some (.retreating negotiation) =>
      rw [Node.search?_of_holder hholder] at h
      obtain ⟨source, hpurpose⟩ := Purpose.eq_search_of h
      refine .unanswered (Node.isWaiting_of_holder hholder) ?_
      change s.advance.node = _
      rw [advance_of_retreating hholder, retreat_eq, hpurpose]
      rfl
  | some (.negotiating negotiation) =>
      have heq : s.advance = s :=
        advance_of_not_ready (by simp [Node.isReady, hholder, Holder.isReady])
      refine .aside (congrArg (·.node.slot) heq) (fun _ => congrArg Session.node heq) ?_
      intro peer request hrequests
      obtain ⟨-, asking, hasking⟩ := asking_of_requested hrequests fresh
      exact absurd (hholder.symm.trans hasking) (by simp)

/-- What the end of a wait makes of a search. -/
theorem moves_resume (fresh : s.trace = []) (h : s.node.search? = some search) :
    search.Moves (s.episode .resume) := by
  by_cases hn : ∃ negotiation, s.node.slot.holder = some (.negotiating negotiation)
  · obtain ⟨⟨peer, purpose⟩, hn⟩ := hn
    have hwaiting := Node.isWaiting_of_holder hn
    rw [Node.search?_of_holder hn] at h
    obtain ⟨source, rfl⟩ : ∃ source, purpose = .search search source := Purpose.eq_search_of h
    cases hcollect : s.node.mailbox.collect with
    | error error =>
        exact .unanswered hwaiting (congrArg Session.node (resume_of_unanswered hn hcollect))
    | ok response =>
        cases hanswer : response.answer with
        | refused refusal =>
            exact .learns peer refusal ⟨rfl, ⟨source, hn⟩, ⟨response, hcollect, hanswer⟩,
              congrArg Session.node (resume_of_refused hn hcollect hanswer)⟩
        | accepted acceptance =>
            obtain ⟨hposition, hfree⟩ := node_resume_of_accepted hn hcollect hanswer
            obtain ⟨own, hattach⟩ :=
              s.node.position.attach_eq s.node.self peer response.rank acceptance s.words
            refine .accepted hwaiting hfree ⟨peer, ?_⟩
            change s.resume.node.position.father = some peer
            rw [hposition, hattach]
  · have heq : s.resume = s := resume_of_not_negotiating (by simpa using hn)
    refine .aside (congrArg (·.node.slot) heq) (fun _ => congrArg Session.node heq) ?_
    intro peer request hrequests
    obtain ⟨hact, -⟩ := asking_of_requested hrequests fresh
    cases hact

/-- **What an act makes of a search that goes on.** -/
theorem moves_run {a : Act} (fresh : s.trace = []) (possible : a.Possible s.node)
    (h : s.node.search? = some search) : search.Moves (s.episode a) := by
  by_cases hadvance : a = .advance
  · subst hadvance
    exact moves_advance fresh h
  by_cases hresume : a = .resume
  · subst hresume
    exact moves_resume fresh h
  have hbusy : s.node.slot.isBusy = true := by
    cases hholder : s.node.slot.holder with
    | none => simp [Node.search?, hholder] at h
    | some holder => simp [Slot.isBusy, hholder]
  refine .aside (meanwhile_run hbusy possible hadvance hresume).2
    (fun hact => (hact.elim hadvance hresume).elim) fun peer request hrequests => ?_
  obtain ⟨hact, -⟩ := asking_of_requested hrequests fresh
  exact hadvance hact

/-- The node founds its tree, or has still to do so. -/
theorem ended_of_founding {a : Act} (possible : a.Possible s.node)
    (h : s.node.slot.holder = some (.founding true)) :
    (a.run s).node.slot.holder = none ∨
      (a.run s).node.slot.holder = some (.founding true) := by
  by_cases hadvance : a = .advance
  · subst hadvance
    left
    change s.advance.node.slot.holder = none
    rw [advance_of_founding h, node_found]
    rfl
  right
  by_cases hresume : a = .resume
  · subst hresume
    change s.resume.node.slot.holder = _
    rwa [resume_of_not_negotiating (by simp [h])]
  · rwa [(meanwhile_run (by simp [Slot.isBusy, h]) possible hadvance hresume).2]

end Session

/-! ## Pursuits -/

namespace Search

/-- A search of a node: the episodes that it has gone on through, and what has become of the
node.  Anything else may happen to the node in the meantime, the world outside and the words to
come are new in each episode, and nothing follows the end of the search. -/
inductive Pursuit (start : Node) (dead : Option Peer) (asRoot : Bool) (connector : Option Nat) :
    List Episode → Node → Prop where
  /-- The search begins when the slot is free. -/
  | begin {σ : Type} [Transport σ] (outside : σ) (ws : Words)
      (free : start.slot.isBusy = false) :
      Pursuit start dead asRoot connector []
        (Session.search ⟨start, outside, ws, []⟩ dead asRoot connector).node
  /-- The node acts, while the search goes on. -/
  | act {past : List Episode} {n : Node} {a : Act} {σ : Type} [Transport σ]
      (pursuit : Pursuit start dead asRoot connector past n) (outside : σ) (ws : Words)
      (possible : a.Possible n) (underway : n.isUnderway = true) :
      Pursuit start dead asRoot connector (past ++ [Session.episode ⟨n, outside, ws, []⟩ a])
        (a.run ⟨n, outside, ws, []⟩).node

/-- A node whose search begins: it runs, it has lost the hint to the search, and nobody was
tried. -/
structure Begins (start : Node) (dead : Option Peer) (asRoot : Bool) (connector : Option Nat)
    (n : Node) (search : Search) : Prop where
  runs : start.stopped = false
  fresh : search = ⟨dead, asRoot, connector,
    .start start.settings.order start.position.regional start.position.global
      start.settings.globalMax start.settings.busyDelay, [], 0⟩
  node : n = { start with
    position := { start.position with global := start.position.global.withoutHint }
    slot := ⟨some (.searching search)⟩ }

namespace Pursuit

variable {start : Node} {dead : Option Peer} {asRoot : Bool} {connector : Option Nat}
  {past later history : List Episode} {e : Episode} {n : Node} {search : Search}

/-- Every episode of a pursuit is an act of the node that the pursuit before it has led to. -/
theorem split (pursuit : Pursuit start dead asRoot connector history n)
    (h : history = past ++ e :: later) :
    Pursuit start dead asRoot connector past e.before ∧ e.before.isUnderway = true ∧
      ∃ (σ : Type) (_ : Transport σ) (outside : σ) (ws : Words), e.act.Possible e.before ∧
        e = Session.episode ⟨e.before, outside, ws, []⟩ e.act := by
  induction pursuit generalizing later with
  | begin => simp at h
  | @act history n a σ _ pursuit outside ws possible underway ih =>
      rcases Episode.snoc_split h with ⟨rfl, rfl, -⟩ | ⟨later, rfl, hpast⟩
      · exact ⟨pursuit, underway, σ, _, outside, ws, possible, rfl⟩
      · exact ih hpast

/-- A search that goes on after it was to begin has begun. -/
theorem begins {σ : Type} [Transport σ] {outside : σ} {ws : Words}
    (free : start.slot.isBusy = false)
    (h : (Session.search ⟨start, outside, ws, []⟩ dead asRoot connector).node.search? =
      some search) :
    Begins start dead asRoot connector
      (Session.search ⟨start, outside, ws, []⟩ dead asRoot connector).node search := by
  have hsearch := Session.search?_search free h
  rcases Session.search_cases ⟨start, outside, ws, []⟩ dead asRoot connector with
    ⟨-, outcome, hnode⟩ | ⟨hruns, -, held, -, -, hnode⟩
  · obtain ⟨c, hc⟩ := start.settleConnector_cases connector outcome
    have hfree : start.slot.holder = none := by simpa [Slot.isBusy] using free
    rw [hnode, hc] at h
    simp [Node.search?, hfree] at h
  · obtain rfl : held = search := by
      rw [hnode] at h
      exact Option.some.inj h
    exact ⟨hruns, hsearch, hnode⟩

/-- When a search has begun, it goes on, or the slot is free. -/
theorem begun_or_free {σ : Type} [Transport σ] (outside : σ) (ws : Words)
    (free : start.slot.isBusy = false) :
    let n := (Session.search ⟨start, outside, ws, []⟩ dead asRoot connector).node
    (∃ search, n.slot.holder = some (.searching search)) ∨ n.slot.holder = none := by
  have hfree : start.slot.holder = none := by simpa [Slot.isBusy] using free
  rcases Session.search_cases ⟨start, outside, ws, []⟩ dead asRoot connector with
    ⟨-, outcome, hnode⟩ | ⟨-, -, search, -, -, hnode⟩
  · obtain ⟨c, hc⟩ := start.settleConnector_cases connector outcome
    right
    rw [hnode, hc]
    exact hfree
  · left
    rw [hnode]
    exact ⟨search, rfl⟩

/-- **A pursuit goes on, or it is over and the slot is free.** -/
theorem underway_or_free (pursuit : Pursuit start dead asRoot connector past n) :
    n.isUnderway = true ∨ n.slot.holder = none := by
  cases pursuit with
  | begin outside ws free =>
      refine (begun_or_free outside ws free).imp_left fun ⟨search, hslot⟩ => ?_
      exact Node.isUnderway_iff.2 (Or.inl ⟨search, Node.search?_of_holder hslot⟩)
  | @act past n a σ _ pursuit outside ws possible underway =>
      rcases Node.isUnderway_iff.1 underway with ⟨search, hsearch⟩ | hfounding
      · exact (Session.moves_run rfl possible hsearch).underway_or_free hsearch
      · rcases Session.ended_of_founding (s := ⟨n, outside, ws, []⟩) possible hfounding with
          hfree | hstill
        · exact Or.inr hfree
        · exact Or.inl (Node.isUnderway_iff.2 (Or.inr hstill))

/-- What holds of a search that begins, and goes on to hold in every episode that moves it, holds
of every search as long as it goes on. -/
theorem along {motive : List Episode → Node → Search → Prop}
    (base : ∀ n search, Begins start dead asRoot connector n search → motive [] n search)
    (step : ∀ past e search search', Pursuit start dead asRoot connector past e.before →
      e.before.search? = some search → search.Moves e → e.after.search? = some search' →
        motive past e.before search → motive (past ++ [e]) e.after search')
    (pursuit : Pursuit start dead asRoot connector past n) (h : n.search? = some search) :
    motive past n search := by
  induction pursuit generalizing search with
  | begin outside ws free => exact base _ _ (begins free h)
  | @act past n a σ _ pursuit outside ws possible underway ih =>
      rcases Node.isUnderway_iff.1 underway with ⟨search', hsearch⟩ | hfounding
      · exact step past (Session.episode ⟨n, outside, ws, []⟩ a) search' search pursuit hsearch
          (Session.moves_run rfl possible hsearch) h (ih hsearch)
      · rw [Node.search?_of_ended (Session.ended_of_founding possible hfounding)] at h
        cases h

/-- The negotiation of a search has come to be in the pursuit, by asking the peer. -/
theorem negotiated (pursuit : Pursuit start dead asRoot connector past n)
    {negotiation : Negotiation} (h : n.slot.holder = some (.negotiating negotiation)) :
    Negotiated past n.mailbox negotiation := by
  induction pursuit generalizing negotiation with
  | begin outside ws free =>
      rcases begun_or_free outside ws free with ⟨search, hslot⟩ | hslot <;> cases hslot.symm.trans h
  | act pursuit outside ws possible underway ih =>
      exact Negotiated.act (fun _ => ih) outside ws possible h

/-- A peer whose refusal a search learns from has sent it in the pursuit. -/
theorem brings_of_learns (pursuit : Pursuit start dead asRoot connector past e.before)
    {peer : Peer} {refusal : Refusal} (learns : e.Learns search peer refusal) :
    ∃ arrival ∈ past, ∃ response, arrival.Brings peer response ∧
      response.answer = .refused refusal := by
  obtain ⟨source, hslot⟩ := learns.negotiating
  obtain ⟨response, hcollect, hanswer⟩ := learns.refused
  obtain ⟨prior, ask, since, rfl, -, -, -, hholds⟩ := pursuit.negotiated hslot
  obtain ⟨between, arrival, rest, rfl, hbrings⟩ :=
    hholds response (Mailbox.delivered_of_collect hcollect)
  exact ⟨arrival, by simp, response, hbrings, hanswer⟩

/-- **The candidates that a search has taken, each with the kind of pool that it came from, are
those that it counts as tried.** -/
theorem tried_iff (pursuit : Pursuit start dead asRoot connector past n)
    (h : n.search? = some search) (pair : NodeId × PoolKind) :
    pair ∈ search.tried ↔
      ∃ t ∈ past, ∃ earlier c, t.Takes earlier c ∧ (c.peer.id, c.source) = pair := by
  refine pursuit.along (motive := fun past _ search => pair ∈ search.tried ↔
    ∃ t ∈ past, ∃ earlier c, t.Takes earlier c ∧ (c.peer.id, c.source) = pair) ?_ ?_ h
  · intro n search hbegins
    simp [hbegins.fresh]
  · intro past e search search' _ hbefore hmoves hafter ih
    have hnext := hmoves.next hbefore hafter
    constructor
    · intro htried
      have hearlier : pair ∈ search.tried →
          ∃ t ∈ past ++ [e], ∃ earlier c, t.Takes earlier c ∧ (c.peer.id, c.source) = pair :=
        fun htried => by
          obtain ⟨t, ht, htakes⟩ := ih.1 htried
          exact ⟨t, List.mem_append_left _ ht, htakes⟩
      rcases hnext with rfl | ⟨c, next, htakes, -, -, rfl⟩ | ⟨_, _, -, rfl⟩
      · exact hearlier htried
      · rcases List.mem_cons.1 htried with rfl | htried
        · exact ⟨e, List.mem_concat_self, search, c, htakes, rfl⟩
        · exact hearlier htried
      · exact hearlier htried
    · rintro ⟨t, ht, earlier, c, htakes, rfl⟩
      rcases List.mem_append.1 ht with ht | ht
      · have htried := ih.2 ⟨t, ht, earlier, c, htakes, rfl⟩
        rcases hnext with rfl | ⟨_, _, -, -, -, rfl⟩ | ⟨_, _, -, rfl⟩
        · exact htried
        · exact List.mem_cons_of_mem _ htried
        · exact htried
      · rw [List.mem_singleton.1 ht] at htakes
        obtain ⟨next, -, -, hheld⟩ := htakes.conserves
        obtain rfl := Option.some.inj (hafter.symm.trans hheld)
        exact List.mem_cons_self

end Pursuit

end Search

/-! ## What becomes of a candidate that was taken -/

/-- A link is opened to a candidate in an episode, and leads to certain peers. -/
def Episode.Finds (e : Episode) (c : Candidate) (found : List Peer) : Prop :=
  ∃ url result, c.peer.primaryUrl = some url ∧ .opened url result ∈ e.seen ∧
    (Effect.opened url result).resolved = found

/-- Whether a holder is about to ask somebody. -/
def Holder.isAboutToAsk : Holder → Bool
  | .opening _ | .asking _ _ => true
  | _ => false

/-- Whether a node is about to ask somebody. -/
def Node.isAboutToAsk (n : Node) : Bool := n.slot.holder.any Holder.isAboutToAsk

theorem Node.isAboutToAsk_congr {n k : Node} (h : n.slot = k.slot) :
    n.isAboutToAsk = k.isAboutToAsk := by
  rw [isAboutToAsk, isAboutToAsk, h]

theorem Node.isAboutToAsk_of_ended {n : Node}
    (h : n.slot.holder = none ∨ n.slot.holder = some (.founding true)) :
    n.isAboutToAsk = false := by
  rcases h with h | h <;> rw [isAboutToAsk, h] <;> rfl

/-- A search is about to ask somebody only if it has just taken a candidate, or already was. -/
theorem Search.Moves.isAboutToAsk {search : Search} {e : Episode} (h : search.Moves e)
    (after : e.after.isAboutToAsk = true) :
    (∃ c, e.Takes search c) ∨ e.before.isAboutToAsk = true := by
  cases h with
  | aside slot => exact Or.inr (Node.isAboutToAsk_congr slot ▸ after)
  | takes c takes => exact Or.inl ⟨c, takes⟩
  | contacts attempt contacts =>
      right
      rw [Node.isAboutToAsk, contacts.opening]
      rfl
  | submits negotiation request submits =>
      right
      rw [Node.isAboutToAsk, submits.asking]
      rfl
  | learns peer refusal learns =>
      rw [learns.after] at after
      cases after
  | unanswered _ heq =>
      rw [heq] at after
      cases after
  | accepted _ free =>
      rw [Node.isAboutToAsk, free] at after
      cases after
  | stopped _ ended | exhausted _ ended =>
      rw [Node.isAboutToAsk_of_ended ended] at after
      cases after

namespace Candidate

variable {since later : List Episode} {e : Episode} {c : Candidate} {holder : Option Holder}

/-- A candidate that was taken was tried since.  It has no URL, or a link was opened to it, and
whoever this led to, unless it is the node itself, was asked then with the candidate's force. -/
def Tried (c : Candidate) (since : List Episode) : Prop :=
  c.peer.primaryUrl = none ∨
    ∃ between contact later found, since = between ++ contact :: later ∧ contact.Finds c found ∧
      ∀ peer ∈ found, peer.same contact.before.self = true ∨
        ∃ asking ∈ later, ∃ request, request.force = c.force ∧ asking.Requests peer request

/-- A candidate that was taken is about to be tried, as the slot stands: a link is to be opened
to it, or whoever this has led to is to be asked. -/
inductive Pending (c : Candidate) (since : List Episode) : Option Holder → Prop where
  | opening {attempt : Attempt} (url : c.peer.primaryUrl = some attempt.url)
      (force : attempt.force = c.force) : c.Pending since (some (.opening attempt))
  | asking {negotiation : Negotiation} {request : Request} {contact : Episode}
      (past : contact ∈ since) (finds : contact.Finds c [negotiation.peer])
      (force : request.force = c.force) : c.Pending since (some (.asking negotiation request))

theorem Tried.append (h : c.Tried since) (later : List Episode) : c.Tried (since ++ later) := by
  rcases h with hnone | ⟨between, contact, after, found, rfl, hfinds, hasked⟩
  · exact Or.inl hnone
  · refine Or.inr ⟨between, contact, after ++ later, found, by simp, hfinds, fun peer hpeer => ?_⟩
    refine (hasked peer hpeer).imp_right fun ⟨asking, hmem, hrequest⟩ => ?_
    exact ⟨asking, List.mem_append_left _ hmem, hrequest⟩

theorem Pending.append (h : c.Pending since holder) (later : List Episode) :
    c.Pending (since ++ later) holder := by
  cases h with
  | opening url force => exact .opening url force
  | asking past finds force => exact .asking (List.mem_append_left _ past) finds force

/-- A candidate that is taken without a URL was tried with this, and any other is about to be. -/
theorem tried_or_pending_of_takes {search : Search} (takes : e.Takes search c) :
    c.Tried [] ∧ e.after.isAboutToAsk = false ∨ c.Pending [] e.after.slot.holder := by
  obtain ⟨ws, -, hafter⟩ := takes.drawn
  rw [hafter]
  dsimp only
  rcases c.holder_cases _ with ⟨hnone, heq⟩ | ⟨url, hurl, heq⟩ <;> rw [heq]
  · exact Or.inl ⟨Or.inl hnone, rfl⟩
  · exact Or.inr (.opening hurl rfl)

/-- A candidate is tried step by step: what is to be done about it is done in an episode, or is
still to be done, and then nobody is asked in the meantime. -/
theorem Pending.moves {search : Search} (h : c.Pending since e.before.slot.holder)
    (moves : search.Moves e) :
    c.Tried (since ++ [e]) ∧ e.after.isAboutToAsk = false ∨
      c.Pending (since ++ [e]) e.after.slot.holder ∧
        ∀ peer request, ¬ e.Requests peer request := by
  generalize hholder : e.before.slot.holder = holder at h
  cases moves with
  | aside slot _ silent =>
      rw [slot, hholder]
      exact Or.inr ⟨h.append [e], silent⟩
  | takes _ takes =>
      rw [takes.searching] at hholder
      subst hholder
      cases h
  | contacts attempt contacts =>
      obtain ⟨result, holder', hopened, hafter, -, hleads⟩ := contacts.contacted
      rw [contacts.opening] at hholder
      subst hholder
      cases h with
      | opening url force =>
          rw [hafter]
          rcases hleads with ⟨peer, rank, hpeer, rfl⟩ | ⟨rfl, hown⟩
          · exact Or.inr ⟨.asking List.mem_concat_self
              ⟨attempt.url, result, url, hopened, Effect.resolved_of_mem hpeer⟩ force,
              contacts.silent⟩
          · have hfinds : e.Finds c (Effect.opened attempt.url result).resolved :=
              ⟨attempt.url, result, url, hopened, rfl⟩
            exact Or.inl ⟨Or.inr ⟨since, e, [], _, rfl, hfinds,
              fun peer hpeer => Or.inl (hown peer hpeer)⟩, rfl⟩
  | submits negotiation request submits =>
      obtain ⟨delivered, hseen⟩ := submits.submitted
      rw [submits.asking] at hholder
      subst hholder
      cases h with
      | asking past finds force =>
          obtain ⟨between, after, rfl⟩ := List.append_of_mem past
          obtain ⟨mailbox, holder, hafter, hwaits⟩ := submits.waits
          refine Or.inl ⟨Or.inr ⟨between, _, after ++ [e], _, by simp, finds, fun peer hpeer => ?_⟩,
            ?_⟩
          · rw [List.mem_singleton.1 hpeer]
            exact Or.inr ⟨e, by simp, request, force, .control, delivered, by simp [hseen]⟩
          · rw [hafter]
            rcases hwaits with rfl | rfl <;> rfl
  | learns _ _ learns =>
      obtain ⟨source, hnegotiating⟩ := learns.negotiating
      rw [hnegotiating] at hholder
      subst hholder
      cases h
  | unanswered waiting | accepted waiting =>
      cases h <;> simp [Node.isWaiting, hholder, Holder.isWaiting] at waiting
  | stopped searching | exhausted searching =>
      rw [searching] at hholder
      subst hholder
      cases h

end Candidate

namespace Search

namespace Pursuit

variable {start : Node} {dead : Option Peer} {asRoot : Bool} {connector : Option Nat}
  {past prior since : List Episode} {e t : Episode} {n : Node} {search : Search} {c : Candidate}

/-- What is still to be done is done while a search goes on. -/
theorem search?_of_pending (h : c.Pending since n.slot.holder) (underway : n.isUnderway = true) :
    ∃ search, n.search? = some search := by
  rcases Node.isUnderway_iff.1 underway with hsearch | hfounding
  · exact hsearch
  · rw [hfounding] at h
    cases h

/-- **Whoever a search has taken was tried since, or is about to be.** -/
theorem tried_or_pending (pursuit : Pursuit start dead asRoot connector past n)
    (taken : past = prior ++ t :: since) (takes : t.Takes search c) :
    c.Tried since ∨ c.Pending since n.slot.holder := by
  induction pursuit generalizing since with
  | begin => simp at taken
  | @act past n a σ _ pursuit outside ws possible underway ih =>
      rcases Episode.snoc_split taken with ⟨-, rfl, rfl⟩ | ⟨since, rfl, hpast⟩
      · exact (Candidate.tried_or_pending_of_takes takes).imp_left And.left
      · rcases ih hpast with htried | hpending
        · exact Or.inl (htried.append _)
        · obtain ⟨search, hsearch⟩ := search?_of_pending hpending underway
          let e := Session.episode ⟨n, outside, ws, []⟩ a
          have hmoves : search.Moves e := Session.moves_run rfl possible hsearch
          exact (hpending.moves hmoves).imp And.left And.left

/-- **Whoever a search is about to ask is the candidate that it has taken last**: nobody was
asked since. -/
theorem taken_of_isAboutToAsk (pursuit : Pursuit start dead asRoot connector past n)
    (h : n.isAboutToAsk = true) :
    ∃ prior t since search c, past = prior ++ t :: since ∧ t.Takes search c ∧
      c.Pending since n.slot.holder ∧
        ∀ e ∈ since, ∀ peer request, ¬ e.Requests peer request := by
  induction pursuit with
  | begin outside ws free =>
      rcases begun_or_free outside ws free with ⟨search, hslot⟩ | hslot <;>
        · rw [Node.isAboutToAsk, hslot] at h
          cases h
  | @act past n a σ _ pursuit outside ws possible underway ih =>
      let e := Session.episode ⟨n, outside, ws, []⟩ a
      rcases Node.isUnderway_iff.1 underway with ⟨search, hsearch⟩ | hfounding
      · have hmoves : search.Moves e := Session.moves_run rfl possible hsearch
        rcases hmoves.isAboutToAsk h with ⟨c, htakes⟩ | hbefore
        · rcases Candidate.tried_or_pending_of_takes htakes with ⟨-, hnot⟩ | hpending
          · exact absurd (h.symm.trans hnot) (by decide)
          · exact ⟨past, e, [], search, c, rfl, htakes, hpending, by simp⟩
        · obtain ⟨prior, t, since, earlier, c, rfl, htakes, hpending, hsilent⟩ := ih hbefore
          rcases hpending.moves hmoves with ⟨-, hnot⟩ | ⟨hpending, hnobody⟩
          · exact absurd (h.symm.trans hnot) (by decide)
          · refine ⟨prior, t, since ++ [e], earlier, c, by simp [e], htakes, hpending, ?_⟩
            intro e' he'
            rcases List.mem_append.1 he' with he' | he'
            · exact hsilent e' he'
            · rw [List.mem_singleton.1 he']
              exact hnobody
      · rw [Node.isAboutToAsk_of_ended (Session.ended_of_founding possible hfounding)] at h
        cases h

/-- A pursuit goes on with what a node does in the world of a directory. -/
theorem live (pursuit : Pursuit start dead asRoot connector past n) (directory : Directory)
    (ws : Words) {a : Act} (possible : a.Possible n) (underway : n.isUnderway = true) :
    Pursuit start dead asRoot connector (past ++ [n.live directory ws a])
      (n.live directory ws a).after :=
  pursuit.act directory ws possible underway

/-- And with all that it does there, as long as the search does. -/
theorem story (pursuit : Pursuit start dead asRoot connector past n) (directory : Directory)
    (ws : Words) (acts : List Act)
    (h : ∀ e ∈ n.story directory ws acts,
      e.act.Possible e.before ∧ e.before.isUnderway = true) :
    Pursuit start dead asRoot connector (past ++ n.story directory ws acts)
      (n.grown directory ws acts) := by
  induction acts generalizing past n with
  | nil => simpa [Node.story, Node.grown] using pursuit
  | cons a acts ih =>
      obtain ⟨hpossible, hunderway⟩ := h (n.live directory ws a) (by simp [Node.story])
      have hrest := ih (pursuit.live directory ws (a := a) hpossible hunderway) fun e he =>
        h e (List.mem_cons_of_mem _ he)
      simpa [Node.story, Node.grown] using hrest

end Pursuit

end Search

/-! ## Pursuits in a life -/

namespace Session

variable {σ : Type} {s : Session σ}

/-- The end of a negotiation that was for no search begins none. -/
theorem not_isUnderway_settle (s : Session σ) {purpose : Purpose} (h : purpose.search? = none)
    (result : NegotiationResult) : (s.settle purpose result).node.isUnderway = false := by
  obtain ⟨_, _, _, hnode, hholder, -⟩ := s.settle_cases purpose result
  rw [hnode]
  rcases hholder with rfl | ⟨search, source, next, rfl, -⟩
  · rfl
  · cases h

variable [Transport σ]

/-- Going on begins no search. -/
theorem not_isUnderway_advance (h : s.node.isUnderway = false) :
    s.advance.node.isUnderway = false := by
  have hnone := Node.search?_of_not_isUnderway h
  match hholder : s.node.slot.holder with
  | none | some .outsider | some (.negotiating _) =>
      rwa [advance_of_not_ready (by simp [Node.isReady, hholder, Holder.isReady])]
  | some (.searching search) =>
      rw [Node.search?_of_holder hholder] at hnone
      cases hnone
  | some (.opening attempt) =>
      have hpurpose : attempt.purpose.search? = none := by
        rwa [Node.search?_of_holder hholder] at hnone
      rw [advance_of_opening hholder]
      rcases s.approach_cases attempt with
        ⟨error, -, heq⟩ | ⟨peer, -, ⟨-, heq⟩ | ⟨-, heq⟩⟩ <;> rw [heq]
      · exact not_isUnderway_settle _ hpurpose _
      · exact not_isUnderway_settle _ hpurpose _
      · simp [Node.isUnderway, Node.search?, Holder.search?, hpurpose]
  | some (.asking negotiation request) =>
      have hpurpose : negotiation.purpose.search? = none := by
        rwa [Node.search?_of_holder hholder] at hnone
      rw [advance_of_asking hholder]
      obtain ⟨holder, hnode, hwaits⟩ := s.submit_cases negotiation request
      rw [hnode]
      rcases hwaits with ⟨rfl, -⟩ | ⟨rfl, -⟩ <;>
        simp [Node.isUnderway, Node.search?, Holder.search?, hpurpose]
  | some (.retreating negotiation) =>
      have hpurpose : negotiation.purpose.search? = none := by
        rwa [Node.search?_of_holder hholder] at hnone
      rw [advance_of_retreating hholder, retreat_eq]
      exact not_isUnderway_settle _ hpurpose _
  | some (.leaving father) =>
      rw [advance_of_leaving hholder]
      rfl
  | some (.founding repair) =>
      rw [advance_of_founding hholder, node_found]
      rfl

/-- A search goes on after an act through which none went on only if it has begun in the act. -/
theorem search_of_isUnderway {a : Act} (possible : a.Possible s.node)
    (before : s.node.isUnderway = false) (after : (a.run s).node.isUnderway = true) :
    s.node.slot.isBusy = false ∧ ∃ errands dead asRoot connector,
      a.run s = (s.withNode { s.node with errands := errands }).search dead asRoot connector := by
  have hmoved : (a.run s).node.slot ≠ s.node.slot := by
    intro hslot
    rw [Node.isUnderway, Node.search?, hslot] at after
    exact absurd (after.symm.trans before) (by decide)
  cases a with
  | advance => exact absurd (after.symm.trans (not_isUnderway_advance before)) (by decide)
  | resume =>
      change s.resume.node.isUnderway = true at after
      by_cases hn : ∃ negotiation, s.node.slot.holder = some (.negotiating negotiation)
      · obtain ⟨negotiation, hn⟩ := hn
        have hpurpose : negotiation.purpose.search? = none := by
          have hnone := Node.search?_of_not_isUnderway before
          rwa [Node.search?_of_holder hn] at hnone
        rw [resume_of_negotiating hn, not_isUnderway_settle _ hpurpose] at after
        cases after
      · rw [resume_of_not_negotiating (by simpa using hn), before] at after
        cases after
  | begin errand =>
      refine ⟨possible.2, ?_⟩
      cases errand with
      | repair dead => exact ⟨_, _, _, _, rfl⟩
      | connect connector => exact ⟨_, _, _, _, rfl⟩
      | join url =>
          simp only [Act.run, begin, join] at after
          split at after
          · exact absurd (after.symm.trans before) (by decide)
          · cases after
      | reroot =>
          simp only [Act.run, begin, reroot] at after
          split at after <;> cases after
  | event | start | stop | requestJoin | requestReroot | leave | tick | gossip =>
      exact absurd (meanwhile_of_aside (by simp) (by simp) (by simp)).2 hmoved

end Session

/-- **Whenever a search goes on in a life, a last part of this life is its pursuit.** -/
theorem Life.pursuit {cond : Episode → Prop} {history : List Episode} {n : Node}
    (life : Life cond history n) (h : n.isUnderway = true) :
    ∃ earlier past start dead asRoot connector, history = earlier ++ past ∧
      Search.Pursuit start dead asRoot connector past n := by
  induction life with
  | birth => cases h
  | @act history n a σ _ life outside ws possible _ ih =>
      let s : Session σ := ⟨n, outside, ws, []⟩
      cases hbefore : n.isUnderway with
      | true =>
          obtain ⟨earlier, past, start, dead, asRoot, connector, rfl, hpursuit⟩ := ih hbefore
          exact ⟨earlier, past ++ [s.episode a], start, dead, asRoot, connector,
            List.append_assoc .., hpursuit.act outside ws possible hbefore⟩
      | false =>
          obtain ⟨hfree, errands, dead, asRoot, connector, hrun⟩ :=
            Session.search_of_isUnderway (s := s) possible hbefore h
          have hpursuit : Search.Pursuit { n with errands := errands } dead asRoot connector []
              (a.run s).node := by
            rw [hrun]
            exact .begin outside ws hfree
          exact ⟨history ++ [s.episode a], [], _, dead, asRoot, connector, by simp [s], hpursuit⟩

end BrokerForest
