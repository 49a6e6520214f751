import BrokerForest.Network.Life
import BrokerForest.Proofs.OperationSpecs
import BrokerForest.Proofs.Pools
import Mathlib.Data.Finset.Prod
/-!
# The course of a search

A search takes turns: it takes its next candidate, opens a link to it, sends its request, or
takes the answer.  Between two turns anything may become of the node, as long as the search
keeps the slot: events arrive, neighbors come and go, and the world outside answers as it
likes.  So a candidate that was no neighbor when it was taken may be one by the time that
the link to it is opened.

What a refusal names comes back into the pools, so the pools need not shrink.  What shrinks
is the set of pairs of a node and a kind of pool that were not tried together: all
candidates are among those who were known at the start, were named in an answer or found at
the end of a link, and none is taken twice from one kind of pool.

Main statements:

* `Search.Turn`, `Search.Course` — one turn of a search, and the turns that a search takes;
* `Search.Course.invariant` — what holds after every turn;
* **`Search.Course.clean_and_finite`** — no candidate is taken twice from a kind of pool, a link
  is opened for nobody but a candidate that could be taken, and a search among finitely many
  nodes ends;
* **`Life.exists_opened_for_neighbor`** — the candidate may have become a neighbor by then.
-/

namespace BrokerForest

/-- Everyone that a refusal names. -/
def Refusal.named : Refusal → List Peer
  | .depthOrColor hint => hint.toList
  | .maxDegree siblings => siblings
  | .minDegree upstream => upstream
  | .busy => []

/-- The peer that a link leads to. -/
def Effect.resolved : Effect → List Peer
  | .opened _ (.ok peer) => [peer]
  | .opened _ (.error (.alreadyLinked peer)) => [peer]
  | _ => []

/-- A link leads to one peer at most. -/
theorem Effect.resolved_of_mem {e : Effect} {peer : Peer} (h : peer ∈ e.resolved) :
    e.resolved = [peer] := by
  unfold resolved at h ⊢
  split at h <;> simp_all

/-- Everyone in the pools that a search begins with. -/
def Position.candidates (p : Position) : List Peer :=
  p.regional.entries ++ p.global.snapshot ++ p.global.hint.toList

/-- A rule for links only. -/
def Conduct.opening (opens : String → Prop) : Conduct := ⟨opens, fun _ _ _ => True⟩

namespace Session

variable {σ : Type}

/-- What may become of a session while a search waits: the node is the same, and so is what
holds its slot. -/
def Meanwhile (s t : Session σ) : Prop :=
  t.node.self = s.node.self ∧ t.node.slot = s.node.slot

/-- The candidate that a search takes when it goes on. -/
def taken (s : Session σ) : Option Candidate :=
  match s.node.slot.holder with
  | some (.searching search) => if s.node.stopped then none else (s.nextCandidate search).found
  | _ => none

/-- Everyone named in the refusal that a negotiation takes when it is over. -/
def answered (s : Session σ) : List Peer :=
  match s.node.mailbox.collect with
  | .ok response => (response.refusal?.map Refusal.named).getD []
  | .error _ => []

end Session

namespace Search

/-- One turn of a search. -/
structure Turn where
  /-- The node when the turn begins. -/
  node : Node
  taken : Option Candidate
  /-- Everyone named in the answer that is taken. -/
  named : List Peer
  /-- What was seen of the node in the turn. -/
  deeds : List Effect

/-- Everyone that a search learns of in a turn. -/
def Turn.heard (turn : Turn) : List Peer := turn.named ++ turn.deeds.flatMap Effect.resolved

/-- The candidates taken, each with the kind of pool it came from. -/
def attempts (turns : List Turn) : List (NodeId × PoolKind) :=
  (turns.filterMap Turn.taken).map fun c => (c.peer.id, c.source)

section

variable {σ : Type} [Transport σ]

/-- The sessions that a search comes to, and the turns that lead there. -/
inductive Course (start : Session σ) (dead : Option Peer) (asRoot : Bool)
    (connector : Option Nat) : Session σ → List Turn → Prop where
  /-- A search begins when the slot is free. -/
  | begin (free : start.node.slot.isBusy = false) :
      Course start dead asRoot connector (start.search dead asRoot connector) []
  /-- Anything happens that leaves the slot alone. -/
  | meanwhile {s t : Session σ} {turns : List Turn}
      (course : Course start dead asRoot connector s turns) (frame : s.Meanwhile t) :
      Course start dead asRoot connector t turns
  /-- The search goes on by one step. -/
  | advance {s : Session σ} {turns : List Turn}
      (course : Course start dead asRoot connector s turns) (ready : s.node.isReady = true) :
      Course start dead asRoot connector s.advance
        (turns ++ [⟨s.node, s.taken, [], s.since s.advance⟩])
  /-- The search takes the answer that it waited for, or waits no longer. -/
  | resume {s : Session σ} {turns : List Turn} {negotiation : Negotiation}
      (course : Course start dead asRoot connector s turns)
      (negotiating : s.node.slot.holder = some (.negotiating negotiation)) :
      Course start dead asRoot connector s.resume
        (turns ++ [⟨s.node, none, s.answered, s.since s.resume⟩])

end

/-- The turn in which a candidate was taken last. -/
def lastDraw (turns : List Turn) : Option Turn :=
  (turns.filter fun turn => turn.taken.isSome).getLast?

/-- Whether a candidate may be taken in a turn: it is not the node itself, not the dead father
and no neighbor at that moment. -/
def Turn.MayTake (turn : Turn) (self : Peer) (dead : Option Peer) (c : Candidate) : Prop :=
  c.peer.same self = false ∧ c.peer.isThe dead = false ∧
    turn.node.position.neighbors.contains c.peer = false

/-- A URL is that of the candidate that was taken last, and this one could be taken then. -/
def Drawn (self : Peer) (dead : Option Peer) (turns : List Turn) (url : String) : Prop :=
  ∃ draw c, lastDraw turns = some draw ∧ draw.taken = some c ∧ draw.MayTake self dead c ∧
    c.peer.primaryUrl = some url

/-- A turn takes only a candidate that may be taken, and opens a link for nobody but the
candidate that was taken last. -/
structure Turn.Clean (self : Peer) (dead : Option Peer) (before : List Turn) (turn : Turn) :
    Prop where
  taken : ∀ c, turn.taken = some c → turn.MayTake self dead c
  opened : ∀ url result, .opened url result ∈ turn.deeds → Drawn self dead before url

/-- A peer that a search has heard of. -/
def Known (start : Node) (turns : List Turn) (p : Peer) : Prop :=
  p ∈ start.position.candidates ∨ ∃ turn ∈ turns, p ∈ turn.heard

/-- What a search is after some turns. -/
structure Fits (start : Node) (dead : Option Peer) (turns : List Turn) (search : Search) :
    Prop where
  dead : search.dead = dead
  order : search.pools.order = start.settings.order
  tried : search.tried = (attempts turns).reverse
  pools : search.pools.All (Known start turns)

/-- How far a search has come after some turns.  Every candidate takes at most four turns, and
the end of the search at most two. -/
def Stage (start : Node) (dead : Option Peer) (turns : List Turn) : Option Holder → Prop
  | none => turns.length ≤ 4 * (attempts turns).length + 2
  | some (.searching search) =>
    Fits start dead turns search ∧ turns.length ≤ 4 * (attempts turns).length
  | some (.opening ⟨url, _, .search search _⟩) =>
    Fits start dead turns search ∧ turns.length + 3 ≤ 4 * (attempts turns).length ∧
      Drawn start.self dead turns url
  | some (.asking ⟨peer, .search search _⟩ _) =>
    Fits start dead turns search ∧ Known start turns peer ∧
      turns.length + 2 ≤ 4 * (attempts turns).length
  | some (.negotiating ⟨peer, .search search _⟩) | some (.retreating ⟨peer, .search search _⟩) =>
    Fits start dead turns search ∧ Known start turns peer ∧
      turns.length + 1 ≤ 4 * (attempts turns).length
  | some (.founding true) => turns.length ≤ 4 * (attempts turns).length + 1
  | some _ => False

/-- What holds of a node and of the turns that its search has taken. -/
structure Invariant (start : Node) (dead : Option Peer) (n : Node) (turns : List Turn) :
    Prop where
  self : n.self = start.self
  stage : Stage start dead turns n.slot.holder
  nodup : (attempts turns).Nodup
  clean : ∀ before turn after, turns = before ++ turn :: after → turn.Clean start.self dead before
  listed : ∀ turn ∈ turns, ∀ c, turn.taken = some c →
    c.source ∈ start.settings.order.kinds ∧ Known start turns c.peer

/-! ## What the search knows grows -/

section

variable {start : Node} {dead : Option Peer} {turns : List Turn} {turn : Turn}

theorem attempts_append (turns : List Turn) (turn : Turn) :
    attempts (turns ++ [turn]) =
      attempts turns ++ (turn.taken.map fun c => (c.peer.id, c.source)).toList := by
  cases h : turn.taken <;> simp [attempts, h]

theorem Known.append {p : Peer} (h : Known start turns p) : Known start (turns ++ [turn]) p := by
  rcases h with h | ⟨earlier, hmem, hp⟩
  · exact Or.inl h
  · exact Or.inr ⟨earlier, by simp [hmem], hp⟩

theorem known_of_heard {p : Peer} (h : p ∈ turn.heard) : Known start (turns ++ [turn]) p :=
  Or.inr ⟨turn, by simp, h⟩

theorem lastDraw_append (turns : List Turn) (turn : Turn) :
    lastDraw (turns ++ [turn]) = if turn.taken.isSome then some turn else lastDraw turns := by
  unfold lastDraw
  rw [List.filter_append]
  cases h : turn.taken <;> simp [h]

/-- One clean turn more. -/
theorem clean_append {self : Peer}
    (h : ∀ before turn after, turns = before ++ turn :: after → turn.Clean self dead before)
    (hturn : turn.Clean self dead turns) {before after : List Turn} {other : Turn}
    (hsplit : turns ++ [turn] = before ++ other :: after) : other.Clean self dead before := by
  rcases List.eq_nil_or_concat after with rfl | ⟨after, last, rfl⟩
  · obtain ⟨rfl, hlast⟩ := List.append_inj' hsplit rfl
    obtain rfl := List.singleton_inj.1 hlast
    exact hturn
  · rw [List.concat_eq_append, ← List.cons_append, ← List.append_assoc] at hsplit
    exact h before other after (List.append_inj' hsplit rfl).1

/-- A turn that takes no candidate changes nothing about those before it. -/
theorem Invariant.append_none {n n' : Node} (h : Invariant start dead n turns)
    (hself : n'.self = n.self) (htaken : turn.taken = none)
    (hopened : ∀ url result, .opened url result ∈ turn.deeds → Drawn start.self dead turns url)
    (hstage : Stage start dead (turns ++ [turn]) n'.slot.holder) :
    Invariant start dead n' (turns ++ [turn]) := by
  refine ⟨hself.trans h.self, hstage, ?_, fun before other after hsplit => ?_, ?_⟩
  · simpa [attempts_append, htaken] using h.nodup
  · exact clean_append h.clean ⟨by simp [htaken], hopened⟩ hsplit
  · intro t ht c hc
    rcases List.mem_append.mp ht with ht | ht
    · exact ⟨(h.listed t ht c hc).1, (h.listed t ht c hc).2.append⟩
    · rw [List.mem_singleton.mp ht, htaken] at hc
      cases hc

/-- A turn that takes a candidate adds it to those before it. -/
theorem Invariant.append_some {n n' : Node} {c : Candidate} (h : Invariant start dead n turns)
    (hself : n'.self = n.self) (htaken : turn.taken = some c)
    (hfresh : (c.peer.id, c.source) ∉ attempts turns)
    (hclean : turn.Clean start.self dead turns)
    (hlisted : c.source ∈ start.settings.order.kinds) (hknown : Known start turns c.peer)
    (hstage : Stage start dead (turns ++ [turn]) n'.slot.holder) :
    Invariant start dead n' (turns ++ [turn]) := by
  refine ⟨hself.trans h.self, hstage, ?_, fun before other after hsplit => ?_, ?_⟩
  · rw [attempts_append, htaken]
    refine List.nodup_append.mpr ⟨h.nodup, by simp, ?_⟩
    intro a ha b hb heq
    rw [heq, List.mem_singleton.mp hb] at ha
    exact hfresh ha
  · exact clean_append h.clean hclean hsplit
  · intro t ht c' hc
    rcases List.mem_append.mp ht with ht | ht
    · exact ⟨(h.listed t ht c' hc).1, (h.listed t ht c' hc).2.append⟩
    · rw [List.mem_singleton.mp ht, htaken] at hc
      cases hc
      exact ⟨hlisted, hknown.append⟩

/-- What a search knows after a turn in which it takes no candidate and learns nothing. -/
theorem Fits.append {search : Search} (h : Fits start dead turns search)
    (htaken : turn.taken = none) : Fits start dead (turns ++ [turn]) search :=
  ⟨h.dead, h.order, by simp [attempts_append, htaken, h.tried], h.pools.mono fun _ hp => hp.append⟩

/-- What a search learns from a refusal it knows then. -/
theorem all_learn {P : Peer → Prop} {search : Search} (self : Peer) {peer : Peer}
    {refusal : Refusal} (h : search.pools.All P) (hpeer : P peer)
    (hnamed : ∀ p ∈ refusal.named, P p) : (search.learn self peer refusal).pools.All P := by
  unfold learn
  cases refusal with
  | busy => exact { h with busy := Pool.all_add _ h.busy hpeer }
  | maxDegree siblings =>
      exact { h with
        maxDegree := Pool.all_add _ h.maxDegree hpeer
        downstream := Pool.all_addAll _ h.downstream hnamed }
  | minDegree upstream =>
      exact { h with
        minDegree := Pool.all_add _ h.minDegree hpeer
        upstream := Pool.all_addAll _ h.upstream hnamed }
  | depthOrColor hint =>
      cases hint with
      | none => exact h
      | some hint =>
          dsimp only
          split
          · exact h
          · exact { h with
              global := ⟨Pool.all_add _ h.global.1 (hnamed hint (by simp [Refusal.named])),
                h.global.2⟩ }

theorem order_learn (search : Search) (self peer : Peer) (refusal : Refusal) :
    (search.learn self peer refusal).pools.order = search.pools.order := by
  unfold learn
  cases refusal with
  | busy | maxDegree _ | minDegree _ => rfl
  | depthOrColor hint =>
      cases hint with
      | none => rfl
      | some hint =>
          dsimp only
          split <;> rfl

end

end Search

namespace Session

variable {σ : Type} [Transport σ] {rule : Conduct} {s t : Session σ}

/-! ## What is seen of a turn -/

/-- A link was seen to be opened, and leads to whom it was seen to lead to. -/
theorem trace_openLink (s : Session σ) (url : String) :
    ∃ result, (s.openLink url).2.trace = s.trace ++ [.opened url result] ∧
      ∀ peer, peer ∈ (Effect.opened url result).resolved ↔ (s.openLink url).1 = .ok peer := by
  rcases ho : Transport.openLink url s.outside with ⟨result, outside⟩
  refine ⟨result, ?_, fun peer => ?_⟩
  · simp only [openLink, ho]
    split <;> rfl
  · simp only [openLink, ho]
    cases result with
    | ok found => simp [Effect.resolved, eq_comm]
    | error error => cases error <;> simp [Effect.resolved, eq_comm]

/-- A link that leads to nobody was seen not to be opened. -/
theorem trace_openLink_of_error {url : String} {error : LinkError}
    (h : s.openLink url = (.error error, t)) :
    t.trace = s.trace ++ [.opened url (.error error)] ∧
      (Effect.opened url (.error error)).resolved = [] := by
  rcases ho : Transport.openLink url s.outside with ⟨result, outside⟩
  simp only [openLink, ho] at h
  split at h
  · cases h
  · rename_i hnot
    cases h
    refine ⟨rfl, ?_⟩
    cases error with
    | alreadyLinked peer => exact absurd rfl (hnot peer)
    | malformedUrl _ | refused _ => rfl

/-- An attempt comes to nothing, or a link was seen to be opened to another, who is to be
asked. -/
theorem approach_spec (s : Session σ) (attempt : Attempt) :
    (∃ (u : Session σ) (result : NegotiationResult),
        s.approach attempt = u.settle attempt.purpose result ∧ u.node = s.node ∧
        ((∃ error, result = .failed (.link error)) ∨ result = .selfConnect)) ∨
      ∃ peer result, peer.same s.node.self = false ∧
        peer ∈ (Effect.opened attempt.url result).resolved ∧
        (s.approach attempt).node =
          { s.node with
            slot := ⟨some (.asking ⟨peer, attempt.purpose⟩
              ⟨s.node.position.rank, attempt.force⟩)⟩ } ∧
        (s.approach attempt).trace = s.trace ++ [.opened attempt.url result] := by
  obtain ⟨result, htrace, hleads⟩ := s.trace_openLink attempt.url
  rcases s.approach_cases attempt with
    ⟨error, -, heq⟩ | ⟨peer, hpeer, ⟨-, heq⟩ | ⟨hother, heq⟩⟩
  · exact Or.inl ⟨_, _, heq, by simp, Or.inl ⟨error, rfl⟩⟩
  · exact Or.inl ⟨_, _, heq, by simp, Or.inr rfl⟩
  · refine Or.inr ⟨peer, result, hother, (hleads peer).2 hpeer, ?_, ?_⟩ <;> rw [heq]
    · simp
    · exact htrace

omit [Transport σ] in
/-- When a search has looked at all candidates, the slot is free, or the node is to found a new
tree. -/
theorem frame_endSearch (s : Session σ) (search : Search) (found : Option (Peer × PoolKind)) :
    ((s.endSearch search found).node.slot.holder = none ∨
        found = none ∧ (s.endSearch search found).node.slot.holder = some (.founding true)) ∧
      (s.endSearch search found).node.self = s.node.self := by
  obtain ⟨connector, hnode⟩ := s.node_endSearch search found
  rw [hnode]
  refine ⟨?_, rfl⟩
  cases found <;> cases search.asRoot <;> simp

/-- Concluding a negotiation opens no link, and leaves the slot alone. -/
theorem keeps_conclude (s : Session σ) (peer : Peer) (opens : String → Prop) :
    s.Keeps (.opening opens) (s.conclude peer).2 := by
  rcases conclude_cases s peer with ⟨response, acceptance, _, _, h⟩ | ⟨result, h, _⟩
  · rw [h]
    exact (keeps_withNode _ _).trans (keeps_attach _ fun _ _ => trivial)
  · rw [h]
    exact (keeps_withNode _ _).trans (keeps_closeLink _ _)

theorem self_conclude (s : Session σ) (peer : Peer) :
    (s.conclude peer).2.node.self = s.node.self := by
  rcases conclude_cases s peer with ⟨response, acceptance, _, _, h⟩ | ⟨result, h, _⟩
  · simp [h, withMailbox]
  · simp [h, withMailbox]

/-- Whom a negotiation's refusal names was told of in the mailbox. -/
theorem answered_of_conclude {peer p : Peer} {rank : Rank} {refusal : Refusal}
    (h : (s.conclude peer).1 = .refused p rank refusal) :
    p = peer ∧ s.answered = refusal.named := by
  obtain ⟨hpeer, response, hcollect, hanswer⟩ := collect_of_conclude h
  refine ⟨hpeer, ?_⟩
  simp [answered, hcollect, Response.refusal?, hanswer]

omit [Transport σ] in
/-- A search whose negotiation is over ends with a father, or goes on with what it learns from
a refusal. -/
theorem settle_search_cases (s : Session σ) (search : Search) (source : PoolKind)
    (result : NegotiationResult) :
    (∃ father, result = .accepted father ∧
        s.settle (.search search source) result = s.endSearch search (some (father, source))) ∨
      ∃ search',
        (s.settle (.search search source) result).node.slot.holder =
          some (.searching search') ∧
        (s.settle (.search search source) result).node.self = s.node.self ∧
        (s.settle (.search search source) result).trace = s.trace ∧
        (s.settle (.search search source) result).outside = s.outside ∧
        (search' = search ∨ ∃ peer rank refusal, result = .refused peer rank refusal ∧
          search' = search.learn s.node.self peer refusal) := by
  cases result with
  | accepted father => exact Or.inl ⟨father, rfl, rfl⟩
  | refused peer rank refusal =>
      refine Or.inr ⟨search.learn s.node.self peer refusal, rfl, ?_, ?_, ?_,
        Or.inr ⟨peer, rank, refusal, rfl, rfl⟩⟩
      all_goals
        obtain ⟨global, hlearn, -⟩ := s.learn_frame peer refusal search
        simp only [settle, hlearn]
        rfl
  | selfConnect => exact Or.inr ⟨search, rfl, rfl, rfl, rfl, Or.inl rfl⟩
  | failed error => exact Or.inr ⟨search, rfl, rfl, rfl, rfl, Or.inl rfl⟩

/-- A link that was seen to be opened was allowed. -/
theorem opens_of_keeps {opens : String → Prop} (h : s.Keeps (.opening opens) t) {url : String}
    {result : Except LinkError Peer} (he : .opened url result ∈ s.since t) : opens url :=
  h.allows he

end Session

namespace Search

variable {σ : Type} [Transport σ] {start s t : Session σ} {dead : Option Peer} {asRoot : Bool}
  {connector : Option Nat} {turns : List Turn}

/-! ## What one turn preserves -/

omit [Transport σ] in
/-- A session that begins a search has taken no turn, and knows what its pools hold. -/
theorem invariant_begin (h : start.node.slot.isBusy = false) :
    Invariant start.node dead (start.search dead asRoot connector).node [] := by
  have hfree : start.node.slot.holder = none := by
    simpa [Slot.isBusy] using h
  have hsettle : ∀ outcome, ∃ left, start.node.settleConnector connector outcome =
      { start.node with connector := left } :=
    start.node.settleConnector_cases connector
  unfold Session.search
  split
  · obtain ⟨left, hleft⟩ := hsettle .again
    rw [Session.node_finish, Session.node_withNode, hleft]
    exact ⟨rfl, by simp [hfree, Stage], by simp [attempts], by simp, by simp⟩
  · dsimp only
    split
    · obtain ⟨left, hleft⟩ := hsettle .stop
      rw [Session.node_finish, Session.node_withNode, hleft]
      exact ⟨rfl, by simp [hfree, Stage], by simp [attempts], by simp, by simp⟩
    · refine ⟨by simp, ⟨⟨rfl, rfl, rfl, SearchPools.all_start ⟨?_, ?_⟩ ⟨?_, ?_⟩⟩, by simp⟩,
        by simp [attempts], by simp, by simp⟩
      all_goals
        intro p hp
        left
        simp_all [Position.candidates, Regional.entries, Regional.upstreamChain,
          Regional.siblings, Global.snapshot, Global.fork]

/-- Of the links that are opened in a turn that opens none anything is true. -/
theorem not_opened {turn : Turn} {P : String → Prop} (hdeeds : turn.deeds = s.since t)
    (hkeeps : s.Keeps (.opening fun _ => False) t) (url : String)
    (result : Except LinkError Peer) (h : .opened url result ∈ turn.deeds) : P url :=
  (Session.opens_of_keeps hkeeps (hdeeds ▸ h)).elim

/-- A turn in which a search has looked at all candidates. -/
theorem Invariant.over {search : Search} {found : Option (Peer × PoolKind)} {turn : Turn}
    {u : Session σ} (h : Invariant start.node dead s.node turns)
    (hturns : turns.length ≤ 4 * (attempts turns).length) (hu : u.node.self = s.node.self)
    (heq : t = u.endSearch search found) (htaken : turn.taken = none)
    (hdeeds : turn.deeds = s.since t) (hkeeps : s.Keeps (.opening fun _ => False) t) :
    Invariant start.node dead t.node (turns ++ [turn]) := by
  obtain ⟨hholder, hself⟩ := u.frame_endSearch search found
  rw [← heq] at hholder hself
  refine h.append_none (hself.trans hu) htaken (not_opened hdeeds hkeeps) ?_
  rcases hholder with hholder | ⟨-, hholder⟩ <;> rw [hholder] <;>
    simp only [Stage, attempts_append, htaken, Option.map_none, Option.toList_none,
      List.append_nil, List.length_append, List.length_singleton] <;> omega

/-- A turn in which a search takes its next candidate. -/
theorem Invariant.take {search : Search} {c : Candidate}
    (h : Invariant start.node dead s.node turns)
    (hfits : Fits start.node dead turns search)
    (hturns : turns.length ≤ 4 * (attempts turns).length)
    (hfound : (s.nextCandidate search).found = some c)
    (hdraw : t = (s.afterDraw search).hold
      (c.holder (search.mark (s.nextCandidate search).pools c))) :
    Invariant start.node dead t.node (turns ++ [⟨s.node, some c, [], s.since t⟩]) := by
  have hnext := SearchPools.next_spec hfits.pools
    (search.admits s.node.self s.node.position.neighbors) s.words
  obtain ⟨hkind, husable, hknown⟩ := hnext.found c hfound
  rw [hfits.order] at hkind
  simp only [admits, Bool.and_eq_true, Bool.not_eq_true', hfits.dead] at husable
  obtain ⟨⟨⟨hself, hdead⟩, huntried⟩, hneighbor⟩ := husable
  rw [h.self] at hself
  have hkeeps : s.Keeps (.opening fun _ => False) t := by
    rw [hdraw]
    exact (s.keeps_afterDraw search).trans (Session.keeps_withNode _ _)
  generalize hturn : (⟨s.node, some c, [], s.since t⟩ : Turn) = turn
  have htaken : turn.taken = some c := by rw [← hturn]
  have hmarked : Fits start.node dead (turns ++ [turn])
      (search.mark (s.nextCandidate search).pools c) := by
    refine ⟨hfits.dead, hnext.order.trans hfits.order, ?_, hnext.pools.mono fun p hp => hp.append⟩
    simp [attempts_append, htaken, mark, hfits.tried]
  have hlength : (attempts (turns ++ [turn])).length = (attempts turns).length + 1 := by
    simp [attempts_append, htaken]
  have hmay : turn.MayTake start.node.self dead c := by
    rw [← hturn]
    exact ⟨hself, hdead, hneighbor⟩
  refine h.append_some (by rw [hdraw]; simp) htaken (by simpa [hfits.tried] using huntried)
    ⟨fun c' hc' => ?_, not_opened (congrArg Turn.deeds hturn).symm hkeeps⟩ hkind hknown ?_
  · rw [htaken] at hc'
    cases hc'
    exact hmay
  · rw [hdraw, Session.node_hold]
    rcases c.holder_cases (search.mark (s.nextCandidate search).pools c) with
      ⟨-, hholder⟩ | ⟨url, hurl, hholder⟩ <;> rw [hholder]
    · refine ⟨hmarked, ?_⟩
      rw [hlength, List.length_append, List.length_singleton]
      omega
    · refine ⟨hmarked, ?_, turn, c, ?_, htaken, hmay, hurl⟩
      · rw [hlength, List.length_append, List.length_singleton]
        omega
      · rw [lastDraw_append, htaken]
        rfl

/-- A search between two candidates ends, or takes one that it may take. -/
theorem Invariant.draw {search : Search} (h : Invariant start.node dead s.node turns)
    (hsearching : s.node.slot.holder = some (.searching search)) :
    Invariant start.node dead (s.draw search).node
      (turns ++ [⟨s.node, s.taken, [], s.since (s.draw search)⟩]) := by
  have hstage := h.stage
  rw [hsearching] at hstage
  obtain ⟨hfits, hturns⟩ := hstage
  have hkeeps : s.Keeps (.opening fun _ => False) (s.draw search) := s.keeps_draw search
  rcases s.draw_cases search with
    ⟨hstopped, heq⟩ | ⟨hstopped, ⟨hfound, heq⟩ | ⟨c, hfound, heq⟩⟩
  · exact h.over hturns rfl heq (by simp [Session.taken, hsearching, hstopped]) rfl hkeeps
  · exact h.over hturns (by simp) heq (by simp [Session.taken, hsearching, hstopped, hfound]) rfl
      hkeeps
  · have htaken : s.taken = some c := by simp [Session.taken, hsearching, hstopped, hfound]
    rw [htaken]
    exact h.take hfits hturns hfound heq

omit [Transport σ] in
/-- A turn in which a negotiation is over. -/
theorem Invariant.settle {search : Search} {source : PoolKind} {result : NegotiationResult}
    {turn : Turn} {u : Session σ} (h : Invariant start.node dead s.node turns)
    (hfits : Fits start.node dead turns search)
    (hturns : turns.length + 1 ≤ 4 * (attempts turns).length) (hu : u.node.self = s.node.self)
    (heq : t = u.settle (.search search source) result) (htaken : turn.taken = none)
    (hopened : ∀ url result, .opened url result ∈ turn.deeds →
      Drawn start.node.self dead turns url)
    (hrefused : ∀ peer rank refusal, result = .refused peer rank refusal →
      Known start.node turns peer ∧ ∀ p ∈ refusal.named, p ∈ turn.heard) :
    Invariant start.node dead t.node (turns ++ [turn]) := by
  have hattempts : attempts (turns ++ [turn]) = attempts turns := by
    simp [attempts_append, htaken]
  have hlength : (turns ++ [turn]).length ≤ 4 * (attempts (turns ++ [turn])).length := by
    rw [hattempts, List.length_append, List.length_singleton]
    exact hturns
  rcases u.settle_search_cases search source result with
    ⟨father, -, hend⟩ | ⟨search', hholder, hself, -, -, hlearnt⟩
  · obtain ⟨hholder, hself⟩ := u.frame_endSearch search (some (father, source))
    rw [← hend, ← heq] at hholder hself
    refine h.append_none (hself.trans hu) htaken hopened ?_
    rcases hholder with hholder | ⟨hnone, -⟩
    · rw [hholder]
      exact hlength.trans (Nat.le_add_right _ _)
    · cases hnone
  · rw [← heq] at hholder hself
    refine h.append_none (hself.trans hu) htaken hopened ?_
    rw [hholder]
    refine ⟨?_, hlength⟩
    have happend := hfits.append htaken
    rcases hlearnt with rfl | ⟨peer, rank, refusal, rfl, rfl⟩
    · exact happend
    · obtain ⟨hpeer, hnamed⟩ := hrefused peer rank refusal rfl
      exact ⟨happend.dead, (order_learn ..).trans happend.order, happend.tried,
        all_learn _ happend.pools hpeer.append fun q hq => known_of_heard (hnamed q hq)⟩

/-- A search opens a link to the candidate that it took last. -/
theorem Invariant.approach {attempt : Attempt} (h : Invariant start.node dead s.node turns)
    (hopening : s.node.slot.holder = some (.opening attempt)) :
    Invariant start.node dead (s.approach attempt).node
      (turns ++ [⟨s.node, none, [], s.since (s.approach attempt)⟩]) := by
  have hstage := h.stage
  obtain ⟨url, force, purpose⟩ := attempt
  rw [hopening] at hstage
  cases purpose with
  | ask => exact hstage.elim
  | join => exact hstage.elim
  | search search source =>
      obtain ⟨hfits, hturns, hdrawn⟩ := hstage
      have hkeeps : s.Keeps (.opening fun other => other = url)
          (s.approach ⟨url, force, .search search source⟩) := s.keeps_approach rfl
      have hopened : ∀ other result,
          .opened other result ∈ s.since (s.approach ⟨url, force, .search search source⟩) →
            Drawn start.node.self dead turns other := by
        intro other result he
        obtain rfl : other = url := Session.opens_of_keeps hkeeps he
        exact hdrawn
      rcases s.approach_spec ⟨url, force, .search search source⟩ with
        ⟨u, result, heq, hu, hresult⟩ | ⟨peer, result, -, hleads, hnode, htrace⟩
      · refine h.settle hfits (by omega) (congrArg Node.self hu) heq rfl hopened ?_
        rintro p rank refusal rfl
        rcases hresult with ⟨error, herror⟩ | hself
        · cases herror
        · cases hself
      · refine h.append_none (by rw [hnode]) rfl hopened ?_
        rw [hnode]
        refine ⟨hfits.append rfl, known_of_heard ?_, ?_⟩
        · simpa [Turn.heard, Session.since_of_trace_eq htrace] using hleads
        · simp only [attempts_append, Option.map_none, Option.toList_none, List.append_nil,
            List.length_append, List.length_singleton]
          omega

/-- A search sends the request that it has made up. -/
theorem Invariant.submit {negotiation : Negotiation} {request : Request}
    (h : Invariant start.node dead s.node turns)
    (hasking : s.node.slot.holder = some (.asking negotiation request)) :
    Invariant start.node dead (s.submit negotiation request).node
      (turns ++ [⟨s.node, none, [], s.since (s.submit negotiation request)⟩]) := by
  have hstage := h.stage
  obtain ⟨peer, purpose⟩ := negotiation
  rw [hasking] at hstage
  cases purpose with
  | ask => exact hstage.elim
  | join => exact hstage.elim
  | search search source =>
      obtain ⟨hfits, hpeer, hturns⟩ := hstage
      have hkeeps : s.Keeps (.opening fun _ => False)
          (s.submit ⟨peer, .search search source⟩ request) := s.keeps_submit fun _ => trivial
      obtain ⟨holder, hnode, hholder⟩ := s.submit_cases ⟨peer, .search search source⟩ request
      refine h.append_none (by rw [hnode]) rfl (not_opened rfl hkeeps) ?_
      rw [hnode]
      rcases hholder with ⟨rfl, -⟩ | ⟨rfl, -⟩
      all_goals
        refine ⟨hfits.append rfl, hpeer.append, ?_⟩
        simp only [attempts_append, Option.map_none, Option.toList_none, List.append_nil,
          List.length_append, List.length_singleton]
        omega

/-- A search gives up a request that did not go out. -/
theorem Invariant.retreat {negotiation : Negotiation}
    (h : Invariant start.node dead s.node turns)
    (hretreating : s.node.slot.holder = some (.retreating negotiation)) :
    Invariant start.node dead (s.retreat negotiation).node
      (turns ++ [⟨s.node, none, [], s.since (s.retreat negotiation)⟩]) := by
  have hstage := h.stage
  obtain ⟨peer, purpose⟩ := negotiation
  rw [hretreating] at hstage
  cases purpose with
  | ask => exact hstage.elim
  | join => exact hstage.elim
  | search search source =>
      obtain ⟨hfits, hpeer, hturns⟩ := hstage
      have hkeeps : s.Keeps (.opening fun _ => False)
          (s.retreat ⟨peer, .search search source⟩) := s.keeps_retreat _
      refine h.settle (u := (s.giveUp peer).2) hfits hturns rfl
        (s.retreat_eq ⟨peer, .search search source⟩) rfl (not_opened rfl hkeeps) ?_
      rintro p rank refusal hresult
      cases hresult

/-- A node that founds a tree for want of a father is done with its search. -/
theorem Invariant.found {repair : Bool} (h : Invariant start.node dead s.node turns)
    (hfounding : s.node.slot.holder = some (.founding repair)) :
    Invariant start.node dead (s.found repair).node
      (turns ++ [⟨s.node, none, [], s.since (s.found repair)⟩]) := by
  have hstage := h.stage
  rw [hfounding] at hstage
  have hkeeps : s.Keeps (.opening fun _ => False) (s.found repair) :=
    s.keeps_found repair fun _ _ _ => trivial
  have hself : (s.found repair).node.self = s.node.self := by
    rw [Session.node_found]
    dsimp only
    split <;> rfl
  refine h.append_none hself rfl (not_opened rfl hkeeps) ?_
  rw [Session.node_found]
  cases repair with
  | false => exact hstage.elim
  | true =>
      simp only [Stage] at hstage
      simp only [Slot.free, Stage, attempts_append, Option.map_none, Option.toList_none,
        List.append_nil, List.length_append, List.length_singleton]
      omega

/-- A search goes on by one step. -/
theorem Invariant.advance (h : Invariant start.node dead s.node turns)
    (hready : s.node.isReady = true) :
    Invariant start.node dead s.advance.node
      (turns ++ [⟨s.node, s.taken, [], s.since s.advance⟩]) := by
  match hholder : s.node.slot.holder with
  | none => simp [Node.isReady, hholder] at hready
  | some .outsider | some (.negotiating _) =>
      simp [Node.isReady, hholder, Holder.isReady] at hready
  | some (.searching search) =>
      rw [Session.advance_of_searching hholder]
      exact h.draw hholder
  | some (.opening attempt) =>
      rw [Session.advance_of_opening hholder, show s.taken = none by simp [Session.taken, hholder]]
      exact h.approach hholder
  | some (.asking negotiation request) =>
      rw [Session.advance_of_asking hholder, show s.taken = none by simp [Session.taken, hholder]]
      exact h.submit hholder
  | some (.retreating negotiation) =>
      rw [Session.advance_of_retreating hholder,
        show s.taken = none by simp [Session.taken, hholder]]
      exact h.retreat hholder
  | some (.leaving father) =>
      have hstage := h.stage
      rw [hholder] at hstage
      exact hstage.elim
  | some (.founding repair) =>
      rw [Session.advance_of_founding hholder, show s.taken = none by simp [Session.taken, hholder]]
      exact h.found hholder

/-- A search that takes an answer ends, or learns from it. -/
theorem Invariant.resume {negotiation : Negotiation} (h : Invariant start.node dead s.node turns)
    (hnegotiating : s.node.slot.holder = some (.negotiating negotiation)) :
    Invariant start.node dead s.resume.node
      (turns ++ [⟨s.node, none, s.answered, s.since s.resume⟩]) := by
  have hstage := h.stage
  have hresume := Session.resume_of_negotiating hnegotiating
  obtain ⟨peer, purpose⟩ := negotiation
  rw [hnegotiating] at hstage
  cases purpose with
  | ask => exact hstage.elim
  | join => exact hstage.elim
  | search search source =>
      obtain ⟨hfits, hpeer, hturns⟩ := hstage
      have hkeeps : s.Keeps (.opening fun _ => False) s.resume := by
        rw [hresume]
        exact (s.keeps_conclude peer _).trans (Session.keeps_settle _ _ _)
      refine h.settle hfits hturns (s.self_conclude peer) hresume rfl (not_opened rfl hkeeps) ?_
      intro p rank refusal hrefused
      obtain ⟨rfl, hanswered⟩ := Session.answered_of_conclude hrefused
      refine ⟨hpeer, fun q hq => List.mem_append_left _ ?_⟩
      change q ∈ s.answered
      rw [hanswered]
      exact hq

/-- What holds of a search after every turn. -/
theorem Course.invariant (h : Course start dead asRoot connector s turns) :
    Invariant start.node dead s.node turns := by
  induction h with
  | begin free => exact invariant_begin free
  | meanwhile course frame ih =>
      refine { ih with self := frame.1.trans ih.self, stage := ?_ }
      rw [frame.2]
      exact ih.stage
  | advance course ready ih => exact ih.advance ready
  | resume course negotiating ih => exact ih.resume negotiating

/-! ## The bound -/

omit [Transport σ] in
/-- No more candidates are tried than there are pairs of a node and a listed kind of pool. -/
theorem Invariant.attempts_le {n : Node} (h : Invariant start.node dead n turns)
    {nodes : Finset NodeId} (hstart : ∀ p ∈ start.node.position.candidates, p.id ∈ nodes)
    (hheard : ∀ turn ∈ turns, ∀ p ∈ turn.heard, p.id ∈ nodes) :
    (attempts turns).length ≤ nodes.card * start.node.settings.order.kinds.length := by
  have hknown : ∀ p, Known start.node turns p → p.id ∈ nodes := by
    intro p hp
    rcases hp with hp | ⟨turn, hturn, hp⟩
    · exact hstart p hp
    · exact hheard turn hturn p hp
  have hsubset : (attempts turns).toFinset ⊆
      nodes ×ˢ start.node.settings.order.kinds.toFinset := by
    intro pair hpair
    obtain ⟨c, hc, rfl⟩ := List.mem_map.mp (List.mem_toFinset.mp hpair)
    obtain ⟨turn, hturn, htaken⟩ := List.mem_filterMap.mp hc
    obtain ⟨hkind, hp⟩ := h.listed turn hturn c htaken
    exact Finset.mk_mem_product (hknown _ hp) (List.mem_toFinset.mpr hkind)
  calc (attempts turns).length
      = (attempts turns).toFinset.card := (List.toFinset_card_of_nodup h.nodup).symm
    _ ≤ (nodes ×ˢ start.node.settings.order.kinds.toFinset).card := Finset.card_le_card hsubset
    _ = nodes.card * start.node.settings.order.kinds.toFinset.card := Finset.card_product _ _
    _ = nodes.card * start.node.settings.order.kinds.length := by
        rw [List.toFinset_card_of_nodup start.node.settings.order.nodup]

omit [Transport σ] in
/-- A search never has more than four turns for every candidate, and two for its end. -/
theorem Stage.turns_le {start : Node} {holder : Option Holder}
    (h : Stage start dead turns holder) : turns.length ≤ 4 * (attempts turns).length + 2 := by
  unfold Stage at h
  split at h
  · exact h
  · exact h.2.trans (Nat.le_add_right _ _)
  · have hturns := h.2.1
    omega
  · have hturns := h.2.2
    omega
  · have hturns := h.2.2
    omega
  · have hturns := h.2.2
    omega
  · omega
  · exact h.elim

/-- A search that is not over can take another turn. -/
theorem Course.next (h : Course start dead asRoot connector s turns) :
    s.node.slot.isBusy = false ∨
      ∃ t turn, Course start dead asRoot connector t (turns ++ [turn]) := by
  have hstage := h.invariant.stage
  match hholder : s.node.slot.holder with
  | none => exact Or.inl (by simp [Slot.isBusy, hholder])
  | some (.negotiating _) => exact Or.inr ⟨_, _, h.resume hholder⟩
  | some (.searching _) | some (.opening _) | some (.asking _ _) | some (.retreating _)
  | some (.leaving _) | some (.founding _) =>
      exact Or.inr ⟨_, _, h.advance (by simp [Node.isReady, hholder, Holder.isReady])⟩
  | some .outsider =>
      rw [hholder] at hstage
      exact hstage.elim

/-- **However the transport and the peers answer, and whatever happens meanwhile**: no candidate
is taken twice from a kind of pool; only one that is not the node itself, not the dead father
and no neighbor is taken, and a link is opened for nobody but the candidate that was taken
last; a search that is not over can go on; and one that only ever hears of finitely many nodes
is over after no more tries than there are pairs of a node and a listed kind of pool.  What
happens between the taking and the opening may make a neighbor of the candidate. -/
theorem Course.clean_and_finite (h : Course start dead asRoot connector s turns) :
    (attempts turns).Nodup ∧
      (∀ before turn after, turns = before ++ turn :: after →
        turn.Clean start.node.self dead before) ∧
      (s.node.slot.isBusy = false ∨
        ∃ t turn, Course start dead asRoot connector t (turns ++ [turn])) ∧
      ∀ nodes : Finset NodeId,
        (∀ p ∈ start.node.position.candidates, p.id ∈ nodes) →
        (∀ turn ∈ turns, ∀ p ∈ turn.heard, p.id ∈ nodes) →
        (attempts turns).length ≤ nodes.card * start.node.settings.order.kinds.length ∧
          turns.length ≤ 4 * (nodes.card * start.node.settings.order.kinds.length) + 2 := by
  have hinv := h.invariant
  refine ⟨hinv.nodup, hinv.clean, h.next, ?_⟩
  intro nodes hstart hheard
  have hattempts := hinv.attempts_le hstart hheard
  have hturns := hinv.stage.turns_le
  exact ⟨hattempts, by omega⟩

end Search

namespace Rehearsal

/-- A broker at work without a father, which knows one sibling. -/
def orphaned : Session Directory where
  node := { (Node.start .standard (broker 1 "x") still).1 with
    stopped := false
    position := { (Node.start .standard (broker 1 "x") still).1.position with
      regional := ⟨.empty, ⟨[broker 2 "y"]⟩, 4, 4⟩ } }
  outside := trio
  words := still
  trace := []

/-- A sibling that answers that it is busy is asked once more, and from no third pool. -/
theorem clean_and_finite_of_busy :
    ∃ (s : Session Directory) (turns : List Search.Turn),
      Search.Course orphaned (some (broker 3 "z")) false none s turns ∧
        Search.attempts turns =
          [((broker 2 "y").id, .regional), ((broker 2 "y").id, .busy)] ∧
        (Search.attempts turns).Nodup ∧ turns.length ≤ 4 * (1 * 7) + 2 := by
  let asked := (orphaned.search (some (broker 3 "z")) false none).advance.advance.advance
  let answered := asked.onEvent (.message (broker 2 "y") (.response ⟨default, .refused .busy⟩))
  obtain ⟨negotiation, hnegotiation⟩ :=
    answered.node.negotiating_of_not_isReady (by decide +kernel) (by decide +kernel)
  have hasked : Search.Course orphaned (some (broker 3 "z")) false none asked _ :=
    .advance (.advance (.advance (.begin rfl) rfl) rfl) (by decide +kernel)
  have hanswered : Search.Course orphaned (some (broker 3 "z")) false none answered _ :=
    .meanwhile hasked ⟨rfl, rfl⟩
  have hcourse := (hanswered.resume hnegotiation).advance (by decide +kernel)
  have hclean := hcourse.clean_and_finite
  refine ⟨_, _, hcourse, by decide +kernel, hclean.1, ?_⟩
  exact (hclean.2.2.2 {(broker 2 "y").id} (by decide +kernel) (by decide +kernel)).2

end Rehearsal

/-- The candidate that a search is about to open a link to, with the kind of pool that it came
from. -/
def Holder.candidate? : Holder → Option (NodeId × PoolKind)
  | .opening ⟨_, _, .search search _⟩ => search.tried.head?
  | _ => none

/-- A colorless root looks for a tree to join and takes a candidate.  Before it opens the link
it is asked by this very candidate, and accepts it as its child. -/
theorem Life.exists_opened_for_neighbor :
    ∃ history n, ∃ e : Episode, ∃ (peer : Peer) (kind : PoolKind),
      Life (fun _ => True) (history ++ [e]) n ∧ e.act = .advance ∧
        e.before.slot.holder.bind Holder.candidate? = some (peer.id, kind) ∧
          (∃ effect ∈ e.seen, peer ∈ effect.resolved) ∧
            e.before.position.neighbors.contains peer = true := by
  let wooed := Rehearsal.broker 2 "y"
  let acts : List Act :=
    [.event (.message (Rehearsal.broker 3 "z") (.candidates [wooed])), .start, .tick,
      .begin (.connect 0), .advance,
      .event (.message wooed (.request ⟨⟨⟨["a"]⟩, ⟨9.0⟩⟩, .none⟩))]
  have hpossible : ∀ e ∈ Rehearsal.newborn.story Rehearsal.trio Rehearsal.still
      (acts ++ [.advance]), e.act.Possible e.before ∧ True := by decide +kernel
  have life := (Life.birth .standard (Rehearsal.broker 1 "x") Rehearsal.still).story_of_append
    Rehearsal.trio Rehearsal.still hpossible
  exact ⟨_, _, _, wooed, .global, life, rfl, by decide +kernel, by decide +kernel,
    by decide +kernel⟩

/-! ## What else a node does in the meantime -/

namespace Session

variable {σ : Type} [Transport σ] {s : Session σ}

omit [Transport σ] in
theorem meanwhile_of_node {t : Session σ} {n : Node} (h : t.node = n)
    (hself : n.self = s.node.self) (hslot : n.slot = s.node.slot) : s.Meanwhile t := by
  rw [← h] at hself hslot
  exact ⟨hself, hslot⟩

theorem meanwhile_depart (s : Session σ) (peer : Peer) : s.Meanwhile (s.depart peer) := by
  rcases s.depart_cases peer with h | h
  · exact meanwhile_of_node h rfl rfl
  · exact meanwhile_of_node h rfl rfl

theorem meanwhile_accept (s : Session σ) (child : Peer) (admission : Admission) :
    s.Meanwhile (s.accept child admission) := by
  cases hsent : (s.send child (s.node.offer admission) .control).1 with
  | false =>
      rw [accept_of_not_sent hsent]
      exact ⟨rfl, rfl⟩
  | true =>
      rw [accept_of_sent hsent]
      exact meanwhile_of_node (node_welcome ..) rfl rfl

theorem meanwhile_examine (s : Session σ) (requester : Peer) (request : Request) :
    s.Meanwhile (s.examine requester request) := by
  rw [examine_eq]
  rcases (s.node.judge requester request s.words).1 with _ | ⟨refusal, _ | _ | root⟩ | admission
  · exact ⟨rfl, rfl⟩
  · exact meanwhile_of_node (node_refuse ..) rfl rfl
  · exact meanwhile_of_node (node_refuse ..) rfl rfl
  · exact meanwhile_of_node ((node_sendTransient ..).trans (node_refuse ..)) rfl rfl
  · exact meanwhile_accept (s.withWords _) requester admission

theorem meanwhile_message (s : Session σ) (origin : Peer) (message : Message) :
    s.Meanwhile (s.onMessage origin message) := by
  cases message with
  | request request => exact meanwhile_examine s origin request
  | response response =>
      rcases s.node_onResponse origin response with ⟨mailbox, _, h⟩ | h
      · exact meanwhile_of_node h rfl rfl
      · exact meanwhile_of_node h rfl rfl
  | siblingDead news =>
      simp only [onMessage]
      split <;> exact ⟨rfl, rfl⟩
  | update news =>
      by_cases hfather : s.node.position.isFather origin = true
      · exact meanwhile_of_node (node_onUpdate_of_father hfather) rfl rfl
      · have h : s.onUpdate origin news = s :=
          onUpdate_of_not_father (Bool.eq_false_iff.mpr hfather)
        simp only [onMessage, h]
        exact ⟨rfl, rfl⟩
  | newSibling news =>
      simp only [onMessage]
      split <;> exact ⟨rfl, rfl⟩
  | candidates peers => exact ⟨rfl, rfl⟩
  | goodCandidate peer => exact ⟨rfl, rfl⟩
  | noLongerChild => exact meanwhile_depart s origin

theorem meanwhile_event (s : Session σ) (event : Event) : s.Meanwhile (s.onEvent event) := by
  cases event with
  | message origin message => exact meanwhile_message s origin message
  | opened peer =>
      simp only [onEvent]
      split <;> exact ⟨rfl, rfl⟩
  | closed peer => exact meanwhile_depart (s.withNode _) peer
  | dead peer => exact meanwhile_depart (s.withNode _) peer

theorem meanwhile_of_prepares {a : Act} (s : Session σ) (h : a.prepares = true) :
    s.Meanwhile (a.run s) := by
  obtain ⟨_, _, _, _, hnode⟩ := s.node_of_prepares h
  exact meanwhile_of_node hnode rfl rfl

/-- All that a node does leaves its slot alone, but to begin something and to go on with what
holds the slot. -/
theorem meanwhile_of_aside {a : Act} (hbegin : ∀ errand, a ≠ .begin errand)
    (hadvance : a ≠ .advance) (hresume : a ≠ .resume) : s.Meanwhile (a.run s) := by
  cases a with
  | event event => exact meanwhile_event s event
  | start | stop | requestJoin _ | requestReroot | tick => exact meanwhile_of_prepares s rfl
  | leave peer =>
      simp only [Act.run, leave_eq]
      split
      · exact meanwhile_depart (s.tell peer .noLongerChild) peer
      · exact ⟨rfl, rfl⟩
  | gossip => exact meanwhile_of_node s.node_gossip rfl rfl
  | begin errand => exact absurd rfl (hbegin errand)
  | advance => exact absurd rfl hadvance
  | resume => exact absurd rfl hresume

/-- While something holds the slot, all that a node does but to go on with what holds it is
something that happens meanwhile. -/
theorem meanwhile_run {a : Act} (hbusy : s.node.slot.isBusy = true) (hpossible : a.Possible s.node)
    (hadvance : a ≠ .advance) (hresume : a ≠ .resume) : s.Meanwhile (a.run s) := by
  refine meanwhile_of_aside ?_ hadvance hresume
  rintro errand rfl
  rw [hpossible.2] at hbusy
  cases hbusy

end Session

end BrokerForest
