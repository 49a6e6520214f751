import BrokerForest.Proofs.ChildrenNews
import BrokerForest.Proofs.Connector
import BrokerForest.Proofs.Jitter
import BrokerForest.Proofs.LinkBalance
/-!
# The outcome of a search: what a search leaves behind

A search drains copies of the node's pools, asks one candidate after another and learns from
every refusal.  What becomes of the node is told here for a search that nothing else happens
beside: between its steps only the mailbox may change, and it may come to hold any answer, or
none.

As long as the search goes on the node stands where it stood, and knows whom the refusals have
named; its hint is gone.  In the end it has a father, or it has none and is what it was, or it is
the root of a new tree and knows its former neighborhood too.

Main statements:

* `Search.Quest` — a search, what was seen of the node, and the answers that it took;
* `Position.wiser` — a position from which a search has taken the hint and learnt from answers;
* `Search.Underway`, `Search.Leaves` — what holds of the node until the search is over, and what
  holds of it then;
* `Search.Underway.advance`, `Search.Underway.resume` — one step keeps the former, or brings the
  latter about;
* **`Search.Quest.leaves`** — every search that is over leaves this behind.
-/

namespace BrokerForest

/-- What a search is seen to come to. -/
def Effect.searched? : Effect → Option (Option Peer)
  | .ended (.searched found) => some found
  | _ => none

/-- The news of an update. -/
def Message.update? : Message → Option Update
  | .update news => some news
  | _ => none

/-- What can go on holds the slot. -/
theorem Node.isBusy_of_isReady {n : Node} (h : n.isReady = true) : n.slot.isBusy = true := by
  obtain ⟨holder, hslot, -⟩ := (Option.any_eq_true ..).1 h
  simp [Slot.isBusy, hslot]

/-- The updates that were sent, and to whom. -/
def Effect.updates (deeds : List Effect) : List (Peer × Update) :=
  (deeds.filterMap Effect.post?).filterMap fun post =>
    post.2.update?.map fun news => (post.1, news)

/-- The peer that a refusal names because the ranks do not allow an edge. -/
def Refusal.hint? : Refusal → Option Peer
  | .depthOrColor hint => hint
  | .maxDegree _ | .minDegree _ | .busy => none

/-- The peer that an answer names because the ranks do not allow an edge. -/
def Response.hint? (response : Response) : Option Peer :=
  match response.answer with
  | .refused refusal => refusal.hint?
  | .accepted _ => none

/-- The answer that a mailbox holds once nothing more can arrive. -/
def Mailbox.answer? (m : Mailbox) : List Response :=
  match m.collect with
  | .ok response => [response]
  | .error _ => []

/-- The position of a node that is told of a candidate, unless this is the node itself. -/
def Position.taught (p : Position) (self : Peer) : Option Peer → Position
  | none => p
  | some hint => if hint.same self then p else { p with global := p.global.add hint }

/-- The position of a node whose search has taken the hint, once some answers have come: all whom
they hint at are candidates, in their order, but for the node itself. -/
def Position.wiser (p : Position) (self : Peer) (answers : List Response) : Position :=
  { p with global := p.global.withoutHint.merge (answers.filterMap Response.hint?) self.same }

namespace Search

/-- A search of a node that nothing else happens beside: what has become of the node, what was
seen of it, and the answers that it took.  Between two steps only the mailbox changes, and any
answer may come; the world outside and the words to come are new in each step. -/
inductive Quest (start : Node) (dead : Option Peer) (asRoot : Bool) (connector : Option Nat) :
    Node → List Effect → List Response → Prop where
  /-- The search begins when the slot is free. -/
  | begin {σ : Type} [Transport σ] (outside : σ) (ws : Words)
      (free : start.slot.isBusy = false) :
      Quest start dead asRoot connector
        (Session.search ⟨start, outside, ws, []⟩ dead asRoot connector).node
        (Session.search ⟨start, outside, ws, []⟩ dead asRoot connector).trace []
  /-- An answer comes, or it becomes clear that none will. -/
  | deliver {n : Node} {deeds : List Effect} {answers : List Response}
      (quest : Quest start dead asRoot connector n deeds answers) (mailbox : Mailbox) :
      Quest start dead asRoot connector { n with mailbox := mailbox } deeds answers
  /-- The search goes on by a step. -/
  | advance {n : Node} {deeds : List Effect} {answers : List Response}
      {σ : Type} [Transport σ] (quest : Quest start dead asRoot connector n deeds answers)
      (outside : σ) (ws : Words) (ready : n.isReady = true) :
      Quest start dead asRoot connector (Session.advance ⟨n, outside, ws, []⟩).node
        (deeds ++ (Session.advance ⟨n, outside, ws, []⟩).trace) answers
  /-- The search takes the answer that it waited for, or waits no longer. -/
  | resume {n : Node} {deeds : List Effect} {answers : List Response} {negotiation : Negotiation}
      {σ : Type} [Transport σ] (quest : Quest start dead asRoot connector n deeds answers)
      (outside : σ) (ws : Words) (negotiating : n.slot.holder = some (.negotiating negotiation)) :
      Quest start dead asRoot connector (Session.resume ⟨n, outside, ws, []⟩).node
        (deeds ++ (Session.resume ⟨n, outside, ws, []⟩).trace) (answers ++ n.mailbox.answer?)

/-- What holds of a node as long as its search goes on: it asks one after another, or it has asked
everyone and is to found a tree. -/
structure Underway (start : Node) (asRoot : Bool) (n : Node) (deeds : List Effect)
    (answers : List Response) : Prop where
  self : n.self = start.self
  settings : n.settings = start.settings
  runs : n.stopped = false
  position : n.position = start.position.wiser start.self answers
  goesOn : (∃ search, n.search? = some search ∧ search.asRoot = asRoot) ∨
    n.slot.holder = some (.founding true) ∧ asRoot = false
  unfinished : deeds.filterMap Effect.searched? = []
  silent : Effect.updates deeds = []

/-- Whom answers hint at, in their order, but for the node itself. -/
def hinted (self : Peer) (answers : List Response) : List Peer :=
  (answers.filterMap Response.hint?).filter fun p => !self.same p

/-- A search that has found nobody leaves a node what it was, `p` being where it stands then.  The
hint is gone, and whom the answers hint at are candidates. -/
structure Spares (start : Node) (p : Position) (deeds : List Effect)
    (answers : List Response) : Prop where
  rank : p.rank = start.position.rank
  father : p.father = start.position.father
  fatherDepth : p.fatherDepth = start.position.fatherDepth
  neighbors : p.neighbors = start.position.neighbors
  regional : p.regional = start.position.regional
  most : p.global.most = start.position.global.most
  hint : p.global.hint = none
  pool : p.global.pool = start.position.global.pool.addAll (some start.position.global.most)
    (hinted start.self answers)
  silent : Effect.updates deeds = []

/-- A search that has found nobody leaves a node at the root of a new tree, `p` being where it
stands then.  The hint is gone, and whom the answers hint at are candidates, and after them the
former neighborhood.  The color is longer by a token and the depth is that of a node on its own,
and each child was told. -/
structure Refounds (start : Node) (p : Position) (deeds : List Effect)
    (answers : List Response) : Prop where
  color : p.rank.color.tokens = start.position.rank.color.tokens ++ [start.self.token]
  fresh : ∃ ws, p.rank.depth = (Depth.initial ws).1
  depth : (⟨0.0⟩ : Depth) ≤ p.rank.depth ∧ p.rank.depth < ⟨0.1⟩
  father : p.father = none
  fatherDepth : p.fatherDepth = none
  neighbors : p.neighbors = start.position.neighbors
  nobody : p.regional.entries = []
  upstreamMax : p.regional.upstreamMax = start.position.regional.upstreamMax
  siblingsMax : p.regional.siblingsMax = start.position.regional.siblingsMax
  most : p.global.most = start.position.global.most
  hint : p.global.hint = none
  pool : p.global.pool =
    (start.position.global.pool.addAll (some start.position.global.most)
      (hinted start.self answers)).addAll (some start.position.global.most)
        (start.position.regional.entries.filter fun q => !start.self.same q)
  told : Effect.updates deeds = start.position.children.map fun child =>
    (child, ⟨p.rank, [], start.settings.hops⟩)

/-- What a search leaves behind, `p` being where the node stands then.  The father that it has
found is beside the node; a search that was to leave the node what it is has changed the
candidates only; and any other has made it the root of a new tree. -/
def Leaves (start : Node) (asRoot : Bool) (p : Position) (deeds : List Effect)
    (answers : List Response) : Option Peer → Prop
  | some father => p.father = some father ∧ p.neighbors.contains father = true
  | none => if asRoot then Spares start p deeds answers else Refounds start p deeds answers

/-- The search is over: it was seen to come to one thing, and has left behind what belongs to
it. -/
def Over (start : Node) (asRoot : Bool) (n : Node) (deeds : List Effect)
    (answers : List Response) : Prop :=
  n.slot.isBusy = false ∧ ∃ found, deeds.filterMap Effect.searched? = [found] ∧
    Leaves start asRoot n.position deeds answers found

end Search

/-! ## What answers teach -/

namespace Position

variable (p : Position) (self : Peer) (answers : List Response)

/-- What one answer more teaches comes after what the others did. -/
theorem wiser_append (response : Response) :
    p.wiser self (answers ++ [response]) =
      (p.wiser self answers).taught self response.hint? := by
  cases h : response.hint? with
  | none => simp [wiser, taught, List.filterMap_append, h]
  | some hint =>
      rw [taught, Peer.same_comm]
      cases hsame : self.same hint <;>
        simp [wiser, List.filterMap_append, h, Global.merge, Global.add, Pool.addAll, hsame]

end Position

/-! ## What is seen of a search -/

namespace Effect

theorem updates_append (deeds later : List Effect) :
    updates (deeds ++ later) = updates deeds ++ updates later := by
  simp [updates, List.filterMap_append]

/-- Whoever keeps the rule sends no update. -/
theorem updates_of_discreet {deeds : List Effect}
    (h : ∀ e ∈ deeds, Conduct.discreet.Allows e) : updates deeds = [] := by
  refine List.filterMap_eq_nil_iff.2 fun post hpost => ?_
  obtain ⟨e, he, hsent⟩ := List.mem_filterMap.1 hpost
  cases e with
  | sent peer message traffic delivered =>
      cases hsent
      have hother := h _ he
      cases message with
      | update news => cases hother
      | request | response | siblingDead | newSibling | candidates | goodCandidate
      | noLongerChild => rfl
  | opened | closed | noted | paused | ended => cases hsent

end Effect

namespace Session

variable {σ : Type} {s t : Session σ}

/-- What the searches have come to that were seen to end. -/
def results (s : Session σ) : List (Option Peer) := s.trace.filterMap Effect.searched?

@[simp] theorem results_withNode (s : Session σ) (n : Node) :
    (s.withNode n).results = s.results := rfl

@[simp] theorem results_withPosition (s : Session σ) (p : Position) :
    (s.withPosition p).results = s.results := rfl

@[simp] theorem results_withWords (s : Session σ) (ws : Words) :
    (s.withWords ws).results = s.results := rfl

@[simp] theorem results_withMailbox (s : Session σ) (m : Mailbox) :
    (s.withMailbox m).results = s.results := rfl

@[simp] theorem results_hold (s : Session σ) (holder : Holder) :
    (s.hold holder).results = s.results := rfl

@[simp] theorem results_release (s : Session σ) : s.release.results = s.results := rfl

@[simp] theorem results_startConnector (s : Session σ) :
    s.startConnector.results = s.results := rfl

@[simp] theorem results_dropConnector (s : Session σ) : s.dropConnector.results = s.results := rfl

@[simp] theorem results_note (s : Session σ) (notice : Notice) :
    (s.note notice).results = s.results := by
  unfold note
  split
  · simp [results, see, Effect.searched?]
  · rfl

@[simp] theorem results_pause (s : Session σ) (length : Option Nat) :
    (s.pause length).results = s.results := by
  cases length <;> simp [pause, results, see, Effect.searched?]

@[simp] theorem results_finish (s : Session σ) (found : Option Peer) :
    (s.finish (.searched found)).results = s.results ++ [found] := by
  simp [finish, results, see, Effect.searched?]

variable [Transport σ]

@[simp] theorem results_openLink (s : Session σ) (url : String) :
    (s.openLink url).2.results = s.results := by
  rcases ho : Transport.openLink url s.outside with ⟨result, outside⟩
  simp only [openLink, ho]
  split <;> simp [results, see, Effect.searched?]

@[simp] theorem results_closeLink (s : Session σ) (peer : Peer) :
    (s.closeLink peer).results = s.results := by
  simp [results, closeLink, see, Effect.searched?]

@[simp] theorem results_send (s : Session σ) (peer : Peer) (message : Message)
    (traffic : TrafficClass) : (s.send peer message traffic).2.results = s.results := by
  simp [results, send, see, Effect.searched?]

@[simp] theorem results_sendAll (s : Session σ) (peers : List Peer) (message : Message) :
    (s.sendAll peers message).results = s.results := by
  unfold sendAll
  induction peers generalizing s with
  | nil => rfl
  | cons peer rest ih => exact (ih (s.tell peer message)).trans (results_send ..)

@[simp] theorem results_newTree (s : Session σ) : s.newTree.results = s.results := by
  simp [newTree_eq]

@[simp] theorem results_attach (s : Session σ) (father : Peer) (rank : Rank)
    (acceptance : Acceptance) : (s.attach father rank acceptance).results = s.results := by
  simp [attach_eq]

omit [Transport σ] in
@[simp] theorem results_afterDraw (s : Session σ) (search : Search) :
    (s.afterDraw search).results = s.results := by
  simp [afterDraw]

/-- Asking a peer ends no search. -/
@[simp] theorem results_ask (s : Session σ) (peer : Peer) (request : Request) :
    (s.ask peer request).2.results = s.results :=
  results_send _ peer (.request request) .control

omit [Transport σ] in
/-- A search that ends is seen to come to what it has found, unless a tree is to be founded
first. -/
theorem results_endSearch (s : Session σ) (search : Search) (found : Option (Peer × PoolKind)) :
    (s.endSearch search found).results = s.results ++
      if found.isNone && !search.asRoot then [] else [found.map Prod.fst] := by
  obtain ⟨connector, heq⟩ := s.endSearch_eq search found
  rw [heq]
  dsimp only
  split <;> simp

/-- A search that has founded a tree is seen to come to nobody. -/
theorem results_found (s : Session σ) : (s.found true).results = s.results ++ [none] := by
  simp only [found, if_true, results_finish, results_release]
  split <;> simp

/-- A node that keeps quiet of its rank sends no update more. -/
theorem updates_of_keeps (h : s.Keeps .discreet t) :
    Effect.updates t.trace = Effect.updates s.trace := by
  obtain ⟨later, htrace, _, hrule⟩ := h
  rw [htrace, Effect.updates_append, Effect.updates_of_discreet hrule, List.append_nil]

/-- The root of a new tree sends an update to each of its children. -/
theorem updates_newTree (s : Session σ) :
    Effect.updates s.newTree.trace = Effect.updates s.trace ++
      s.newTree.node.position.children.map fun child =>
        (child, ⟨s.newTree.node.position.rank, [], s.node.settings.hops⟩) := by
  change s.newTree.posts.filterMap _ = s.posts.filterMap _ ++ _
  rw [posts_newTree, List.filterMap_append, List.filterMap_map]
  congr 1
  simp [Node.update, Message.update?]

/-- A running node that founds a tree sends an update to each of its children. -/
theorem updates_found {s : Session σ} (runs : s.node.stopped = false) :
    Effect.updates (s.found true).trace = Effect.updates s.trace ++
      (s.found true).node.position.children.map fun child =>
        (child, ⟨(s.found true).node.position.rank, [], s.node.settings.hops⟩) := by
  have htrace : (s.found true).trace = s.newTree.trace ++ [.ended (.searched none)] := by
    simp only [found, if_true, runs, Bool.false_eq_true, if_false]
    rfl
  have hposition : (s.found true).node.position = s.newTree.node.position := by
    rw [node_found, node_newTree]
    simp [founds, runs]
  rw [htrace, hposition, Effect.updates_append, updates_newTree]
  exact List.append_nil _

omit [Transport σ] in
/-- A search begins at a node that runs and has no father. -/
theorem search_of_fatherless (hruns : s.node.stopped = false)
    (hroot : s.node.position.father = none) (dead : Option Peer) (asRoot : Bool)
    (connector : Option Nat) :
    ∃ search : Search, search.asRoot = asRoot ∧ s.search dead asRoot connector =
      ((s.withPosition { s.node.position with
        global := s.node.position.global.withoutHint }).note
          (.startSearch (dead.map Peer.id) asRoot)).hold (.searching search) := by
  unfold search
  simp only [hruns, hroot, Bool.false_eq_true, if_false]
  exact ⟨_, rfl, rfl⟩

omit [Transport σ] in
/-- From a refusal the node learns of the peer that it hints at. -/
theorem learn_eq (s : Session σ) (peer : Peer) (refusal : Refusal) (search : Search) :
    (s.learn peer refusal search).1 =
      s.withPosition (s.node.position.taught s.node.self refusal.hint?) := by
  cases refusal with
  | maxDegree | minDegree | busy => rfl
  | depthOrColor hint =>
      cases hint with
      | none => rfl
      | some hint =>
          simp only [learn, Refusal.hint?, Position.taught]
          split <;> rfl

/-- A search whose wait comes to nothing goes on as it was. -/
theorem resume_of_unanswered {search : Search} {peer : Peer} {source : PoolKind}
    {error : MailboxError}
    (negotiating : s.node.slot.holder = some (.negotiating ⟨peer, .search search source⟩))
    (hcollect : s.node.mailbox.collect = .error error) :
    s.resume = ((s.withMailbox .empty).closeLink peer).hold (.searching search) := by
  rw [resume_of_negotiating negotiating]
  simp only [conclude, hcollect]
  rfl

/-- A search that is refused goes on with what it has learnt, and so does the node. -/
theorem resume_of_refused {search : Search} {peer : Peer} {source : PoolKind}
    {response : Response} {refusal : Refusal}
    (negotiating : s.node.slot.holder = some (.negotiating ⟨peer, .search search source⟩))
    (hcollect : s.node.mailbox.collect = .ok response)
    (hanswer : response.answer = .refused refusal) :
    s.resume = (((s.withMailbox .empty).closeLink peer).withPosition
      (s.node.position.taught s.node.self refusal.hint?)).hold
        (.searching (search.learn s.node.self peer refusal)) := by
  rw [resume_of_negotiating negotiating]
  simp only [conclude, hcollect, hanswer]
  change (((s.withMailbox .empty).closeLink peer).learn peer refusal search).1.hold
    (.searching (search.learn s.node.self peer refusal)) = _
  rw [learn_eq]
  rfl

end Session

namespace Search

variable {σ : Type} [Transport σ] {start n : Node} {dead : Option Peer} {asRoot : Bool}
  {connector : Option Nat} {deeds : List Effect} {answers later : List Response}

/-! ## What one step preserves -/

omit [Transport σ] in
/-- A step keeps what holds of a search that goes on if the node is seen to do nothing, and
learns from what it is answered. -/
theorem Underway.of_silent {t : Session σ} {p : Position} {holder : Holder}
    (h : Underway start asRoot n deeds answers)
    (hnode : ∃ mailbox own, t.node =
      { n with position := p, mailbox := mailbox, connector := own, slot := ⟨some holder⟩ })
    (hposition : p = start.position.wiser start.self later)
    (hgoesOn : (∃ search, holder.search? = some search ∧ search.asRoot = asRoot) ∨
      holder = .founding true ∧ asRoot = false)
    (hresults : t.results = []) (hsilent : Effect.updates t.trace = []) :
    Underway start asRoot t.node (deeds ++ t.trace) later := by
  obtain ⟨mailbox, own, hnode⟩ := hnode
  have hunfinished : (deeds ++ t.trace).filterMap Effect.searched? = [] := by
    rw [List.filterMap_append, h.unfinished]
    exact hresults
  have hquiet : Effect.updates (deeds ++ t.trace) = [] := by
    rw [Effect.updates_append, h.silent, hsilent, List.nil_append]
  rw [hnode]
  refine ⟨h.self, h.settings, h.runs, hposition, ?_, hunfinished, hquiet⟩
  exact hgoesOn.imp (fun hsearch => hsearch) fun ⟨hfounds, hroot⟩ => ⟨congrArg some hfounds, hroot⟩

/-- A search that begins at a node that runs and has no father goes on. -/
theorem underway_begin (outside : σ) (ws : Words) (running : start.stopped = false)
    (fatherless : start.position.father = none) :
    Underway start asRoot
      (Session.search ⟨start, outside, ws, []⟩ dead asRoot connector).node
      (Session.search ⟨start, outside, ws, []⟩ dead asRoot connector).trace [] := by
  obtain ⟨search, hroot, heq⟩ := Session.search_of_fatherless
    (s := ⟨start, outside, ws, []⟩) running fatherless dead asRoot connector
  have hsilent := Session.updates_of_keeps
    (Session.keeps_search (⟨start, outside, ws, []⟩ : Session σ) dead asRoot connector)
  have hresults : (Session.search ⟨start, outside, ws, []⟩ dead asRoot connector).results = [] := by
    rw [heq, Session.results_hold, Session.results_note]
    rfl
  rw [heq] at hsilent hresults ⊢
  exact ⟨by simp, by simp, by simpa, by simp [Position.wiser, Global.merge, Pool.addAll],
    Or.inl ⟨search, by simp [Node.search?, Holder.search?], hroot⟩, hresults, hsilent⟩

/-- A search that has no candidate left is over, or is to found a tree. -/
theorem Underway.exhausted {s : Session σ} (h : Underway start asRoot n deeds answers)
    (hnode : s.node = n) (hresults : s.results = []) (hsilent : Effect.updates s.trace = [])
    (search : Search) (hroot : search.asRoot = asRoot) :
    Underway start asRoot (s.endSearch search none).node
        (deeds ++ (s.endSearch search none).trace) answers ∨
      Over start asRoot (s.endSearch search none).node
        (deeds ++ (s.endSearch search none).trace) answers := by
  obtain ⟨own, hend⟩ := s.node_endSearch search none
  have hended : (s.endSearch search none).results = if asRoot then [none] else [] := by
    rw [Session.results_endSearch, hresults, hroot]
    cases asRoot <;> rfl
  have hquiet : Effect.updates (s.endSearch search none).trace = [] :=
    (Session.updates_of_keeps (s.keeps_endSearch search none)).trans hsilent
  rw [hnode, hroot] at hend
  cases asRoot with
  | false =>
      exact Or.inl (h.of_silent ⟨n.mailbox, own, hend⟩ h.position (Or.inr ⟨rfl, rfl⟩) hended hquiet)
  | true =>
      refine Or.inr ⟨by rw [hend]; rfl, none, ?_, ?_⟩
      · rw [List.filterMap_append, h.unfinished]
        exact hended
      · rw [hend]
        dsimp only
        rw [h.position]
        exact ⟨rfl, rfl, rfl, rfl, rfl, rfl, rfl, rfl,
          by rw [Effect.updates_append, h.silent, hquiet, List.nil_append]⟩

/-- A search that founds a tree leaves behind what belongs to that. -/
theorem Underway.founded (h : Underway start false n deeds answers)
    (fatherless : start.position.father = none) (outside : σ) (ws : Words) :
    Over start false (Session.found ⟨n, outside, ws, []⟩ true).node
      (deeds ++ (Session.found ⟨n, outside, ws, []⟩ true).trace) answers := by
  let s : Session σ := ⟨n, outside, ws, []⟩
  have hnode := s.node_found true
  have hposition : (s.found true).node.position =
      ((start.position.wiser start.self answers).newTree start.self ws).1 := by
    rw [hnode, ← h.position, ← h.self]
    simp [s, Session.founds, h.runs]
  have hupdates := Session.updates_found (s := s) h.runs
  refine ⟨by rw [hnode]; rfl, none, ?_, ?_⟩
  · rw [List.filterMap_append, h.unfinished]
    exact s.results_found
  · change Refounds start (s.found true).node.position _ answers
    have htold : Effect.updates (deeds ++ (s.found true).trace) =
        start.position.children.map fun child =>
          (child, ⟨(s.found true).node.position.rank, [], start.settings.hops⟩) := by
      rw [Effect.updates_append, h.silent, List.nil_append, hupdates]
      change [] ++ (List.map _ _) = _
      rw [List.nil_append, hposition, ← h.settings]
      simp only [Position.children, fatherless]
      rfl
    refine ⟨?_, ⟨ws, ?_⟩, ?_, ?_, ?_, ?_, ?_, ?_, ?_, ?_, ?_, ?_, htold⟩ <;> rw [hposition] <;>
      try rfl
    exact Depth.initial_range ws

omit [Transport σ] in
/-- What a negotiation that does not come about leaves a search to go on with. -/
theorem Underway.missed {t : Session σ} {search : Search}
    {source : PoolKind} {result : NegotiationResult} (h : Underway start asRoot n deeds answers)
    (hnode : ∃ mailbox, t.node = { n with mailbox := mailbox }) (hresults : t.results = [])
    (hsilent : Effect.updates t.trace = []) (hroot : search.asRoot = asRoot)
    (hmissed : t.settle (.search search source) result = t.hold (.searching search)) :
    Underway start asRoot (t.settle (.search search source) result).node
      (deeds ++ (t.settle (.search search source) result).trace) answers := by
  obtain ⟨mailbox, hnode⟩ := hnode
  have hheld : (t.hold (.searching search)).node =
      { n with mailbox := mailbox, slot := ⟨some (.searching search)⟩ } := by
    rw [Session.node_hold, hnode]
  rw [hmissed]
  exact h.of_silent ⟨mailbox, n.connector, hheld⟩ h.position (Or.inl ⟨search, rfl, hroot⟩) hresults
    hsilent

omit [Transport σ] in
/-- A negotiation for a search is for this one. -/
theorem Underway.purpose (h : Underway start asRoot n deeds answers) {holder : Holder}
    {purpose : Purpose} (hslot : n.slot.holder = some holder)
    (hholder : holder.search? = purpose.search?) (hfounds : holder ≠ .founding true) :
    ∃ search source, purpose = .search search source ∧ search.asRoot = asRoot := by
  rcases h.goesOn with ⟨search, hsearch, hroot⟩ | ⟨hfounding, -⟩
  · rw [Node.search?_of_holder hslot, hholder] at hsearch
    cases purpose with
    | ask | join => cases hsearch
    | search search' source =>
        cases hsearch
        exact ⟨search, source, rfl, hroot⟩
  · exact absurd (Option.some.inj (hslot.symm.trans hfounding)) hfounds

/-- A search that draws goes on with whom it has drawn, or is over. -/
theorem Underway.draw {search : Search} (h : Underway start asRoot n deeds answers)
    (outside : σ) (ws : Words) (searching : n.slot.holder = some (.searching search)) :
    Underway start asRoot (Session.draw ⟨n, outside, ws, []⟩ search).node
        (deeds ++ (Session.draw ⟨n, outside, ws, []⟩ search).trace) answers ∨
      Over start asRoot (Session.draw ⟨n, outside, ws, []⟩ search).node
        (deeds ++ (Session.draw ⟨n, outside, ws, []⟩ search).trace) answers := by
  let s : Session σ := ⟨n, outside, ws, []⟩
  have hroot : search.asRoot = asRoot := by
    rcases h.goesOn with ⟨search', hsearch, hroot⟩ | ⟨hfounding, -⟩
    · rw [Node.search?_of_holder searching] at hsearch
      cases hsearch
      exact hroot
    · rw [searching] at hfounding
      cases hfounding
  have hdrawn : (s.afterDraw search).results = [] := s.results_afterDraw search
  have hquiet : Effect.updates (s.afterDraw search).trace = [] :=
    Session.updates_of_keeps (s.keeps_afterDraw search)
  rcases s.draw_cases search with ⟨hstopped, -⟩ | ⟨-, ⟨-, heq⟩ | ⟨c, -, heq⟩⟩
  · exact absurd (h.runs.symm.trans hstopped) Bool.false_ne_true
  · rw [heq]
    exact h.exhausted (s.node_afterDraw search) hdrawn hquiet _ hroot
  · left
    have hheld : (s.draw search).node = { n with
        slot := ⟨some (c.holder (search.mark (s.nextCandidate search).pools c))⟩ } := by
      rw [heq, Session.node_hold, Session.node_afterDraw]
    rw [heq] at hheld ⊢
    exact h.of_silent ⟨n.mailbox, n.connector, hheld⟩ h.position
      (Or.inl ⟨_, Candidate.search?_holder .., hroot⟩) hdrawn hquiet

/-- A search goes on whether there is somebody at a URL to be asked or not. -/
theorem Underway.approach {attempt : Attempt} (h : Underway start asRoot n deeds answers)
    (outside : σ) (ws : Words) (opening : n.slot.holder = some (.opening attempt)) :
    Underway start asRoot (Session.approach ⟨n, outside, ws, []⟩ attempt).node
      (deeds ++ (Session.approach ⟨n, outside, ws, []⟩ attempt).trace) answers := by
  let s : Session σ := ⟨n, outside, ws, []⟩
  obtain ⟨search, source, hpurpose, hroot⟩ := h.purpose opening rfl Holder.noConfusion
  have hopen : (s.openLink attempt.url).2.results = [] := s.results_openLink attempt.url
  have hquiet : Effect.updates (s.openLink attempt.url).2.trace = [] :=
    Session.updates_of_keeps (s.keeps_openLink trivial)
  rcases s.approach_cases attempt with
    ⟨error, -, heq⟩ | ⟨peer, -, ⟨-, heq⟩ | ⟨-, heq⟩⟩ <;> rw [heq]
  · rw [hpurpose]
    exact h.missed ⟨n.mailbox, s.node_openLink attempt.url⟩ hopen hquiet hroot rfl
  · rw [hpurpose]
    refine h.missed ⟨n.mailbox, by simp [s]⟩ ?_ ?_ hroot rfl
    · exact (Session.results_closeLink _ peer).trans hopen
    · exact (Session.updates_of_keeps (Session.keeps_closeLink _ peer)).trans hquiet
  · have hheld : ((s.openLink attempt.url).2.hold (.asking ⟨peer, attempt.purpose⟩
        ⟨s.node.position.rank, attempt.force⟩)).node =
        { n with slot := ⟨some
            (.asking ⟨peer, attempt.purpose⟩ ⟨n.position.rank, attempt.force⟩)⟩ } := by
      rw [Session.node_hold, Session.node_openLink]
    exact h.of_silent ⟨n.mailbox, n.connector, hheld⟩ h.position
      (Or.inl ⟨search, by simp [Holder.search?, hpurpose, Purpose.search?], hroot⟩) hopen hquiet

/-- A search goes on whether its request goes out or not. -/
theorem Underway.submit {negotiation : Negotiation} {request : Request}
    (h : Underway start asRoot n deeds answers) (outside : σ) (ws : Words)
    (asking : n.slot.holder = some (.asking negotiation request)) :
    Underway start asRoot (Session.submit ⟨n, outside, ws, []⟩ negotiation request).node
      (deeds ++ (Session.submit ⟨n, outside, ws, []⟩ negotiation request).trace) answers := by
  let s : Session σ := ⟨n, outside, ws, []⟩
  obtain ⟨search, source, hpurpose, hroot⟩ := h.purpose asking rfl Holder.noConfusion
  have hasked : (s.ask negotiation.peer request).2.results = [] :=
    s.results_ask negotiation.peer request
  have hquiet : Effect.updates (s.ask negotiation.peer request).2.trace = [] :=
    Session.updates_of_keeps (s.keeps_ask fun _ => rfl)
  obtain ⟨holder, hnode, hholder⟩ := s.submit_cases negotiation request
  refine h.of_silent ⟨_, n.connector, hnode⟩ h.position (Or.inl ⟨search, ?_, hroot⟩) ?_ ?_
  · rcases hholder with ⟨rfl, -⟩ | ⟨rfl, -⟩ <;>
      simp [Holder.search?, hpurpose, Purpose.search?]
  · rw [Session.submit_eq]
    exact hasked
  · rw [Session.submit_eq]
    exact hquiet

/-- A search goes on when its request is given up. -/
theorem Underway.retreat {negotiation : Negotiation} (h : Underway start asRoot n deeds answers)
    (outside : σ) (ws : Words) (retreating : n.slot.holder = some (.retreating negotiation)) :
    Underway start asRoot (Session.retreat ⟨n, outside, ws, []⟩ negotiation).node
      (deeds ++ (Session.retreat ⟨n, outside, ws, []⟩ negotiation).trace) answers := by
  let s : Session σ := ⟨n, outside, ws, []⟩
  obtain ⟨search, source, hpurpose, hroot⟩ := h.purpose retreating rfl Holder.noConfusion
  rw [Session.retreat_eq, hpurpose]
  refine h.missed ⟨.empty, by simp [Session.giveUp, Session.withMailbox]⟩ ?_ ?_ hroot rfl
  · exact Session.results_closeLink _ negotiation.peer
  · exact Session.updates_of_keeps
      (Session.keeps_closeLink (s.withMailbox .empty) negotiation.peer)

/-- A search that goes on by a step goes on after it, or is over. -/
theorem Underway.advance (h : Underway start asRoot n deeds answers)
    (fatherless : start.position.father = none) (outside : σ) (ws : Words)
    (ready : n.isReady = true) :
    Underway start asRoot (Session.advance ⟨n, outside, ws, []⟩).node
        (deeds ++ (Session.advance ⟨n, outside, ws, []⟩).trace) answers ∨
      Over start asRoot (Session.advance ⟨n, outside, ws, []⟩).node
        (deeds ++ (Session.advance ⟨n, outside, ws, []⟩).trace) answers := by
  match hslot : n.slot.holder with
  | none | some .outsider | some (.negotiating _) =>
      simp [Node.isReady, hslot, Holder.isReady] at ready
  | some (.searching search) =>
      rw [Session.advance_of_searching hslot]
      exact h.draw outside ws hslot
  | some (.opening attempt) =>
      rw [Session.advance_of_opening hslot]
      exact Or.inl (h.approach outside ws hslot)
  | some (.asking negotiation request) =>
      rw [Session.advance_of_asking hslot]
      exact Or.inl (h.submit outside ws hslot)
  | some (.retreating negotiation) =>
      rw [Session.advance_of_retreating hslot]
      exact Or.inl (h.retreat outside ws hslot)
  | some (.leaving father) =>
      rcases h.goesOn with ⟨search, hsearch, -⟩ | ⟨hfounding, -⟩
      · rw [Node.search?_of_holder hslot] at hsearch
        cases hsearch
      · rw [hslot] at hfounding
        cases hfounding
  | some (.founding repair) =>
      rcases h.goesOn with ⟨search, hsearch, -⟩ | ⟨hfounding, rfl⟩
      · rw [Node.search?_of_holder hslot] at hsearch
        cases hsearch
      · rw [hslot] at hfounding
        cases hfounding
        rw [Session.advance_of_founding hslot]
        exact Or.inr (h.founded fatherless outside ws)

/-- A search that is accepted leaves behind what belongs to that. -/
theorem Underway.found {search : Search} {peer : Peer} {source : PoolKind} {response : Response}
    {acceptance : Acceptance} (h : Underway start asRoot n deeds answers) (outside : σ) (ws : Words)
    (negotiating : n.slot.holder = some (.negotiating ⟨peer, .search search source⟩))
    (hcollect : n.mailbox.collect = .ok response)
    (hanswer : response.answer = .accepted acceptance) :
    Over start asRoot (Session.resume ⟨n, outside, ws, []⟩).node
      (deeds ++ (Session.resume ⟨n, outside, ws, []⟩).trace) later := by
  let s : Session σ := ⟨n, outside, ws, []⟩
  let attached := (s.withMailbox .empty).attach peer response.rank acceptance
  have hend : s.resume = attached.endSearch search (some (peer, source)) :=
    Session.resume_of_accepted (s := s) negotiating hcollect hanswer
  have hresults : s.resume.results = [some peer] := by
    rw [hend, Session.results_endSearch, Session.results_attach]
    rfl
  obtain ⟨hposition, hfree⟩ :=
    Session.node_resume_of_accepted (s := s) negotiating hcollect hanswer
  refine ⟨by rw [hfree]; rfl, some peer, ?_, ?_⟩
  · rw [List.filterMap_append, h.unfinished]
    exact hresults
  · obtain ⟨own, hattach⟩ := n.position.attach_eq n.self peer response.rank acceptance ws
    rw [hposition, hattach]
    exact ⟨rfl, n.position.contains_add_self peer⟩

/-- A search that is refused, or is not answered at all, goes on with what it has learnt. -/
theorem Underway.declined {search : Search} {peer : Peer} {source : PoolKind}
    (h : Underway start asRoot n deeds answers) (outside : σ) (ws : Words)
    (negotiating : n.slot.holder = some (.negotiating ⟨peer, .search search source⟩))
    (hroot : search.asRoot = asRoot)
    (hother : ∀ response, n.mailbox.collect = .ok response → ∃ refusal,
      response.answer = .refused refusal) :
    Underway start asRoot (Session.resume ⟨n, outside, ws, []⟩).node
      (deeds ++ (Session.resume ⟨n, outside, ws, []⟩).trace) (answers ++ n.mailbox.answer?) := by
  let s : Session σ := ⟨n, outside, ws, []⟩
  let closed := (s.withMailbox .empty).closeLink peer
  have hquiet : Effect.updates closed.trace = [] :=
    Session.updates_of_keeps (Session.keeps_closeLink (s.withMailbox .empty) peer)
  have hclosed : closed.results = [] := (s.withMailbox .empty).results_closeLink peer
  cases hcollect : n.mailbox.collect with
  | error error =>
      rw [Session.resume_of_unanswered (s := s) negotiating hcollect, Mailbox.answer?, hcollect,
        List.append_nil]
      exact h.of_silent ⟨.empty, n.connector, rfl⟩ h.position (Or.inl ⟨search, rfl, hroot⟩)
        hclosed hquiet
  | ok response =>
      obtain ⟨refusal, hanswer⟩ := hother response hcollect
      have hhint : response.hint? = refusal.hint? := by rw [Response.hint?, hanswer]
      have hposition : n.position.taught n.self refusal.hint? =
          start.position.wiser start.self (answers ++ [response]) := by
        rw [Position.wiser_append, hhint, h.position, h.self]
      rw [Session.resume_of_refused (s := s) negotiating hcollect hanswer, Mailbox.answer?,
        hcollect]
      exact h.of_silent ⟨.empty, n.connector, rfl⟩ hposition (Or.inl ⟨_, rfl, hroot⟩) hclosed hquiet

/-- A search whose wait for an answer is over goes on with what it has learnt, or is over. -/
theorem Underway.resume {negotiation : Negotiation} (h : Underway start asRoot n deeds answers)
    (outside : σ) (ws : Words) (negotiating : n.slot.holder = some (.negotiating negotiation)) :
    Underway start asRoot (Session.resume ⟨n, outside, ws, []⟩).node
        (deeds ++ (Session.resume ⟨n, outside, ws, []⟩).trace) (answers ++ n.mailbox.answer?) ∨
      Over start asRoot (Session.resume ⟨n, outside, ws, []⟩).node
        (deeds ++ (Session.resume ⟨n, outside, ws, []⟩).trace) (answers ++ n.mailbox.answer?) := by
  obtain ⟨search, source, hpurpose, hroot⟩ := h.purpose negotiating rfl Holder.noConfusion
  obtain ⟨peer, purpose⟩ := negotiation
  obtain rfl : purpose = .search search source := hpurpose
  by_cases haccepted : ∃ response acceptance, n.mailbox.collect = .ok response ∧
      response.answer = .accepted acceptance
  · obtain ⟨response, acceptance, hcollect, hanswer⟩ := haccepted
    exact Or.inr (h.found outside ws negotiating hcollect hanswer)
  · refine Or.inl (h.declined outside ws negotiating hroot fun response hcollect => ?_)
    cases hanswer : response.answer with
    | accepted acceptance => exact absurd ⟨response, acceptance, hcollect, hanswer⟩ haccepted
    | refused refusal => exact ⟨refusal, rfl⟩

/-! ## What a whole search leaves behind -/

/-- At every point the search of a node that had no father goes on, or is over. -/
theorem Quest.stage (quest : Quest start dead asRoot connector n deeds answers)
    (running : start.stopped = false) (fatherless : start.position.father = none) :
    Underway start asRoot n deeds answers ∨ Over start asRoot n deeds answers := by
  induction quest with
  | begin outside ws free => exact Or.inl (underway_begin outside ws running fatherless)
  | deliver quest mailbox ih =>
      exact ih.imp (fun h => ⟨h.self, h.settings, h.runs, h.position, h.goesOn, h.unfinished,
        h.silent⟩) fun h => h
  | advance quest outside ws ready ih =>
      rcases ih with h | ⟨hfree, _⟩
      · exact h.advance fatherless outside ws ready
      · exact absurd (Node.isBusy_of_isReady ready) (by simp [hfree])
  | resume quest outside ws negotiating ih =>
      rcases ih with h | ⟨hfree, _⟩
      · exact h.resume outside ws negotiating
      · rw [Slot.isBusy, negotiating] at hfree
        cases hfree

/-- Of every search of a running node without a father that nothing else happens beside, and
whatever it is answered: once it is over it was seen to come to one thing.  If that is a peer,
the peer is the father and beside the node.  If it is none, and the search was to leave the node
what it is, then the hint is gone, the refusals' hints are among the candidates, and nothing else
has changed.  If it is none otherwise, the node is the root of a new tree: it has no father, one
token more and a fresh depth, its former neighborhood follows those hints among the candidates,
and each of its children was sent one update, with the new rank and no chain. -/
theorem Quest.leaves (quest : Quest start dead asRoot connector n deeds answers)
    (running : start.stopped = false) (fatherless : start.position.father = none)
    (free : n.slot.isBusy = false) :
    ∃ found, deeds.filterMap Effect.searched? = [found] ∧
      Leaves start asRoot n.position deeds answers found := by
  rcases quest.stage running fatherless with h | ⟨_, hleaves⟩
  · have hholder : n.slot.holder = none := by simpa [Slot.isBusy] using free
    rcases h.goesOn with ⟨search, hsearch, -⟩ | ⟨hfounding, -⟩
    · rw [Node.search?, hholder] at hsearch
      cases hsearch
    · rw [hholder] at hfounding
      cases hfounding
  · exact hleaves

end Search

namespace Rehearsal

/-- A broker at work with a child and without a father, which knows one sibling. -/
def deserted : Node :=
  { orphaned.node with
    position := { orphaned.node.position with
      neighbors := orphaned.node.position.neighbors.add (broker 3 "z") } }

/-- A broker whose sibling names a peer that cannot be reached finds no father.  It remembers the
peer and then the sibling, and its child is told of the new tree. -/
theorem leaves_of_refused :
    ∃ (n : Node) (deeds : List Effect) (answers : List Response),
      Search.Quest deserted (some (broker 5 "u")) false none n deeds answers ∧
        deserted.stopped = false ∧ deserted.position.father = none ∧ n.slot.isBusy = false ∧
          Search.Leaves deserted false n.position deeds answers none ∧
            n.position.rank.color = ⟨["x"]⟩ ∧
              n.position.global.snapshot = [broker 4 "w", broker 2 "y"] ∧
                (Effect.updates deeds).map Prod.fst = [broker 3 "z"] := by
  let start : Session Directory := ⟨deserted, trio, still, []⟩
  let step := fun n : Node => Session.advance (⟨n, trio, still, []⟩ : Session Directory)
  let begun := start.search (some (broker 5 "u")) false none
  let answer : Response := ⟨default, .refused (.depthOrColor (some (broker 4 "w")))⟩
  let mailbox : Mailbox := ⟨none, some (broker 2 "y"), false, some (some answer), rfl⟩
  let drawn := step begun.node
  let opened := step drawn.node
  let asked := step opened.node
  let answered : Node := { asked.node with mailbox := mailbox }
  let refused := Session.resume (⟨answered, trio, still, []⟩ : Session Directory)
  let next := step refused.node
  let missed := step next.node
  let exhausted := step missed.node
  let ended := step exhausted.node
  let Reaches := Search.Quest deserted (some (broker 5 "u")) false none
  have hbegun : Reaches begun.node begun.trace [] := .begin trio still rfl
  have hdrawn : Reaches drawn.node _ _ := hbegun.advance trio still (by decide +kernel)
  have hopened : Reaches opened.node _ _ := hdrawn.advance trio still (by decide +kernel)
  have hasked : Reaches asked.node _ _ := hopened.advance trio still (by decide +kernel)
  have hanswered : Reaches answered _ _ := hasked.deliver mailbox
  obtain ⟨negotiation, hnegotiating⟩ := Node.negotiating_of_not_isReady (n := answered)
    (by decide +kernel) (by decide +kernel)
  have hrefused : Reaches refused.node _ _ := hanswered.resume trio still hnegotiating
  have hnext : Reaches next.node _ _ := hrefused.advance trio still (by decide +kernel)
  have hmissed : Reaches missed.node _ _ := hnext.advance trio still (by decide +kernel)
  have hexhausted : Reaches exhausted.node _ _ := hmissed.advance trio still (by decide +kernel)
  have hended : Reaches ended.node _ _ := hexhausted.advance trio still (by decide +kernel)
  have hfree : ended.node.slot.isBusy = false := by decide +kernel
  obtain ⟨found, hfound, hleaves⟩ := hended.leaves rfl rfl hfree
  obtain rfl : none = found := by
    refine List.singleton_inj.1 (Eq.trans ?_ hfound)
    decide +kernel
  exact ⟨ended.node, _, _, hended, rfl, rfl, hfree, hleaves, by decide +kernel,
    by decide +kernel, by decide +kernel⟩

end Rehearsal

end BrokerForest
