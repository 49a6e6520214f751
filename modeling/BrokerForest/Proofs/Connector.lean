import BrokerForest.Proofs.Shifts
/-!
# Connector: a root keeps looking for a tree to join

The root connector is started when a node starts, when a repair has found nobody, and when
the node leaves its tree; it is dropped when the node stops, loses its father or takes one;
and it ends or goes on by the search that it runs, which may begin long after its interval has
passed and by then may not be the one of the connector that the node has.  If one of these
places forgot it, an island would be left that never joins another tree.

A root that runs is never forgotten because what is to restart its connector is always on its
way: the connector waits for its interval, or its own search waits for the slot or goes on, or
a repair does.

Main statements:

* `Node.Repairs`, `Node.Fires` — what is on its way;
* `Node.Striving` — a node without need of a connector has none, and a root that runs has one
  that waits, or something is on its way;
* `Session.striving_run` — every act keeps it;
* **`Life.connecting_of_root`** — so a root at rest is connecting, and nobody with a father is.
-/

namespace BrokerForest

/-- Whether an errand is to find a father. -/
def Errand.seeks : Errand → Bool
  | .repair _ | .connect _ => true
  | .join _ | .reroot => false

/-- Whether an errand is to find another father. -/
def Errand.isRepair : Errand → Bool
  | .repair _ => true
  | .connect _ | .join _ | .reroot => false

namespace Node

/-- A repair waits for the slot, or goes on, or a new tree is to be founded. -/
def Repairs (n : Node) : Prop :=
  (∃ errand ∈ n.errands, errand.isRepair = true) ∨
    (∃ search, n.search? = some search ∧ search.asRoot = false) ∨ n.isLeaving = true

/-- The interval of the root connector has passed, and its search waits for the slot or goes
on. -/
def Fires (n : Node) : Prop :=
  ∃ c, n.connector = some c ∧ c.ticker.phase = .running ∧
    (.connect c.serial ∈ n.errands ∨
      ∃ search, n.search? = some search ∧ search.connector = some c.serial)

/-- A node that is stopped or has a father has no root connector.  A root that runs has one
that waits for its next interval, or one will be started or go on. -/
structure Striving (n : Node) : Prop where
  content : n.stopped = true ∨ n.position.father.isSome = true → n.connector = none
  root : n.stopped = false → n.position.father = none → n.isConnecting = true ∨ n.Repairs ∨ n.Fires

/-- Nothing of a node goes on, and nothing but repairs waits for the slot. -/
def AtRest (n : Node) : Prop :=
  n.slot.isBusy = false ∧ ∀ errand ∈ n.errands, errand.isRepair = true

/-! ## What striving depends on -/

/-- What striving depends on is as it was, and what was to find a father still is. -/
structure Steady (n n' : Node) : Prop where
  stopped : n'.stopped = n.stopped
  father : n'.position.father = n.position.father
  connector : n'.connector = n.connector
  errands : ∀ errand ∈ n.errands, errand.seeks = true → errand ∈ n'.errands
  search : ∀ search, n.search? = some search →
    ∃ search', n'.search? = some search' ∧ search'.asRoot = search.asRoot ∧
      search'.connector = search.connector
  leaving : n.isLeaving = true → n'.isLeaving = true

variable {n n' : Node}

theorem Steady.trans (h : n.Steady n') {n'' : Node} (h' : n'.Steady n'') : n.Steady n'' where
  stopped := h'.stopped.trans h.stopped
  father := h'.father.trans h.father
  connector := h'.connector.trans h.connector
  errands errand hmem hseeks := h'.errands errand (h.errands errand hmem hseeks) hseeks
  search search hsearch := by
    obtain ⟨search', hsearch', hroot, hconnector⟩ := h.search search hsearch
    obtain ⟨search'', hsearch'', hroot', hconnector'⟩ := h'.search search' hsearch'
    exact ⟨search'', hsearch'', hroot'.trans hroot, hconnector'.trans hconnector⟩
  leaving hleaves := h'.leaving (h.leaving hleaves)

/-- Another place beneath the same father, and another mailbox. -/
theorem steady_of_place {p : Position} {m : Mailbox} (h : p.father = n.position.father) :
    n.Steady { n with position := p, mailbox := m } :=
  ⟨rfl, h, rfl, fun _ h _ => h, fun search h => ⟨search, h, rfl, rfl⟩, id⟩

/-- Errands come, and those go that are to find nobody. -/
theorem steady_of_errands {errands : List Errand}
    (h : ∀ errand ∈ n.errands, errand.seeks = true → errand ∈ errands) :
    n.Steady { n with errands := errands } :=
  ⟨rfl, rfl, rfl, h, fun search h => ⟨search, h, rfl, rfl⟩, id⟩

/-- While a search goes on no tree is founded. -/
theorem isLeaving_of_search {search : Search} (h : n.search? = some search) :
    n.isLeaving = false := by
  rw [search?, Option.bind_eq_some_iff] at h
  obtain ⟨holder, hholder, hsearch⟩ := h
  rw [isLeaving, hholder]
  cases holder with
  | outsider | leaving | founding => cases hsearch
  | searching | opening | asking | negotiating | retreating => rfl

/-- Without a search that goes on, another holder of the slot and another mailbox. -/
theorem steady_of_holder {slot : Slot Holder} {m : Mailbox} (h : n.search? = none)
    (hstays : n.isLeaving = false) : n.Steady { n with slot := slot, mailbox := m } where
  stopped := rfl
  father := rfl
  connector := rfl
  errands _ hmem _ := hmem
  search search hsearch := by rw [h] at hsearch; cases hsearch
  leaving hleaves := by rw [hstays] at hleaves; cases hleaves

/-- A search goes on with what it has become. -/
theorem steady_of_search {search search' : Search} {holder : Holder} {m : Mailbox}
    (h : n.search? = some search) (hholder : holder.search? = some search')
    (hroot : search'.asRoot = search.asRoot) (hconnector : search'.connector = search.connector) :
    n.Steady { n with slot := ⟨some holder⟩, mailbox := m } where
  stopped := rfl
  father := rfl
  connector := rfl
  errands _ hmem _ := hmem
  search before hbefore := by
    obtain rfl : before = search := Option.some.inj (hbefore.symm.trans h)
    exact ⟨search', hholder, hroot, hconnector⟩
  leaving hleaves := by rw [isLeaving_of_search h] at hleaves; cases hleaves

theorem Steady.isConnecting (h : n.Steady n') : n'.isConnecting = n.isConnecting := by
  rw [Node.isConnecting, h.connector, Node.isConnecting]

theorem Steady.repairs (h : n.Steady n') (hr : n.Repairs) : n'.Repairs := by
  rcases hr with ⟨errand, hmem, hrepair⟩ | ⟨search, hsearch, hroot⟩ | hleaves
  · have hseeks : errand.seeks = true := by
      cases errand <;> simp_all [Errand.isRepair, Errand.seeks]
    exact Or.inl ⟨errand, h.errands errand hmem hseeks, hrepair⟩
  · obtain ⟨search', hsearch', hroot', -⟩ := h.search search hsearch
    exact Or.inr (Or.inl ⟨search', hsearch', hroot'.trans hroot⟩)
  · exact Or.inr (Or.inr (h.leaving hleaves))

theorem Steady.fires (h : n.Steady n') (hf : n.Fires) : n'.Fires := by
  obtain ⟨c, hc, hphase, hway⟩ := hf
  refine ⟨c, h.connector.trans hc, hphase, ?_⟩
  rcases hway with hmem | ⟨search, hsearch, hserial⟩
  · exact Or.inl (h.errands _ hmem rfl)
  · obtain ⟨search', hsearch', -, hconnector⟩ := h.search search hsearch
    exact Or.inr ⟨search', hsearch', hconnector.trans hserial⟩

theorem Striving.steady (hn : n.Striving) (h : n.Steady n') : n'.Striving where
  content hcontent := by
    rw [h.stopped, h.father] at hcontent
    rw [h.connector, hn.content hcontent]
  root hstopped hfather := by
    rw [h.stopped] at hstopped
    rw [h.father] at hfather
    rw [h.isConnecting]
    exact (hn.root hstopped hfather).imp_right (Or.imp h.repairs h.fires)

/-! ## Where the connector comes and goes -/

/-- A node that was made to have no connector is content, or a repair is on its way. -/
theorem striving_of_none (hconnector : n.connector = none)
    (h : n.stopped = false → n.position.father = none → n.Repairs) : n.Striving :=
  ⟨fun _ => hconnector, fun hstopped hfather => Or.inr (Or.inl (h hstopped hfather))⟩

/-- A root that runs strives if its connector waits. -/
theorem striving_of_connecting (hstopped : n.stopped = false) (hroot : n.position.father = none)
    (hconnecting : n.isConnecting = true) : n.Striving where
  content h := by simp [hstopped, hroot] at h
  root _ _ := Or.inl hconnecting

@[simp]
theorem stopped_settleConnector (n : Node) (serial : Option Nat) (outcome : TickOutcome) :
    (n.settleConnector serial outcome).stopped = n.stopped := by
  obtain ⟨c, h⟩ := n.settleConnector_cases serial outcome
  rw [h]

@[simp]
theorem position_settleConnector (n : Node) (serial : Option Nat) (outcome : TickOutcome) :
    (n.settleConnector serial outcome).position = n.position := by
  obtain ⟨c, h⟩ := n.settleConnector_cases serial outcome
  rw [h]

@[simp]
theorem errands_settleConnector (n : Node) (serial : Option Nat) (outcome : TickOutcome) :
    (n.settleConnector serial outcome).errands = n.errands := by
  obtain ⟨c, h⟩ := n.settleConnector_cases serial outcome
  rw [h]

/-- Without a connector there is none to settle. -/
theorem settleConnector_of_none (h : n.connector = none) (serial : Option Nat)
    (outcome : TickOutcome) : n.settleConnector serial outcome = n := by
  simp [settleConnector, h]

/-- A connector that waits goes on waiting, whatever search ends. -/
theorem isConnecting_settleConnector (h : n.isConnecting = true) (serial : Option Nat) :
    (n.settleConnector serial .again).isConnecting = true := by
  unfold settleConnector
  unfold isConnecting at h ⊢
  cases hc : n.connector with
  | none => simp [hc] at h
  | some c =>
      have hphase : c.ticker.phase = .waiting := by simpa [hc, Ticker.isWaiting] using h
      dsimp only
      split
      · simp [Ticker.settle, hphase, Ticker.isWaiting]
      · simpa [hc] using h

end Node

namespace Session

variable {σ : Type} [Transport σ] {s t : Session σ}

/-! ## Events -/

/-- Whoever is gone: if it was the father of a node that runs, a repair waits. -/
theorem striving_depart (h : s.node.Striving) (peer : Peer) : (s.depart peer).node.Striving := by
  rcases s.depart_cases peer with hnode | hnode
  · rw [hnode]
    exact h.steady (Node.steady_of_place rfl)
  · rw [hnode]
    refine Node.striving_of_none rfl fun hstopped _ => Or.inl ⟨.repair peer, ?_, rfl⟩
    change s.node.stopped = false at hstopped
    simp [hstopped]

theorem striving_examine (h : s.node.Striving) (requester : Peer) (request : Request) :
    (s.examine requester request).node.Striving := by
  rw [examine_eq]
  generalize s.node.judge requester request s.words = judged
  obtain ⟨verdict, ws⟩ := judged
  rcases verdict with _ | ⟨refusal, _ | _ | root⟩ | admission
  · exact h
  · simpa [pronounce] using h
  · rw [show (pronounce _ requester (.refuse refusal .keep)).node = _ from by simp [pronounce]; rfl]
    exact h.steady (Node.steady_of_place rfl)
  · simpa [pronounce] using h
  · change ((s.withWords ws).accept requester admission).node.Striving
    cases hsent : ((s.withWords ws).send requester ((s.withWords ws).node.offer admission)
        .control).1 with
    | false =>
        rw [accept_of_not_sent hsent]
        exact h
    | true =>
        rw [accept_of_sent hsent, node_welcome]
        exact h.steady (Node.steady_of_place rfl)

theorem striving_onMessage (h : s.node.Striving) (origin : Peer) (message : Message) :
    (s.onMessage origin message).node.Striving := by
  cases message with
  | request request => exact striving_examine h origin request
  | response response =>
      change (s.onResponse origin response).node.Striving
      rcases s.node_onResponse origin response with ⟨mailbox, _, hnode⟩ | hnode
      · rw [hnode]
        exact h.steady (Node.steady_of_place rfl)
      · rwa [hnode]
  | siblingDead news | newSibling news =>
      simp only [onMessage]
      split
      · exact h.steady (Node.steady_of_place rfl)
      · exact h
  | update news =>
      change (s.onUpdate origin news).node.Striving
      cases hfather : s.node.position.isFather origin with
      | true =>
          rw [node_onUpdate_of_father hfather]
          exact h.steady (Node.steady_of_place (Position.settle_frame ..).1)
      | false => rwa [onUpdate_of_not_father hfather]
  | candidates peers => exact h.steady (Node.steady_of_place rfl)
  | goodCandidate candidate =>
      refine h.steady (Node.steady_of_place ?_)
      unfold Position.onGoodCandidate
      split <;> rfl
  | noLongerChild => exact striving_depart h origin

theorem striving_onEvent (h : s.node.Striving) (event : Event) :
    (s.onEvent event).node.Striving := by
  cases event with
  | message origin message => exact striving_onMessage h origin message
  | opened peer =>
      simp only [onEvent]
      split
      · exact h
      · exact h.steady (Node.steady_of_place rfl)
  | closed peer | dead peer =>
      exact striving_depart (s := s.withNode { s.node with mailbox := s.node.mailbox.cancel peer })
        (h.steady (Node.steady_of_place rfl)) peer

/-! ## Searches -/

omit [Transport σ] in
/-- A search begins for the errand that it is for. -/
theorem striving_search (h : s.node.Striving) (hfree : s.node.slot.isBusy = false)
    {u : Session σ} {errand : Errand} {dead : Option Peer} {asRoot : Bool}
    {connector : Option Nat}
    (hu : u.node = { s.node with errands := s.node.errands.erase errand })
    (hfor : asRoot = false ∨ ∃ serial, errand = .connect serial ∧ connector = some serial) :
    (u.search dead asRoot connector).node.Striving := by
  have hholder : s.node.slot.holder = none := by simpa [Slot.isBusy] using hfree
  have hnone : s.node.search? = none := by simp [Node.search?, hholder]
  have hstays : s.node.isLeaving = false := by simp [Node.isLeaving, hholder]
  rcases u.search_cases dead asRoot connector with
    ⟨hcontent, outcome, hnode⟩ | ⟨hruns, hroot, search, hasRoot, hserial, hnode⟩
  · have hconnector : u.node.connector = none := by
      rw [hu] at hcontent ⊢
      exact h.content hcontent
    rw [hnode, Node.settleConnector_of_none hconnector]
    refine Node.striving_of_none hconnector fun hstopped hroot => ?_
    simp [hstopped, hroot] at hcontent
  · rw [hu] at hruns hroot
    rw [hnode, hu]
    refine ⟨fun hcontent => ?_, fun _ _ => ?_⟩
    · simp [show s.node.stopped = false from hruns,
        show s.node.position.father = none from hroot] at hcontent
    rcases hfor with hrepair | ⟨serial, rfl, hconnect⟩
    · exact Or.inr (Or.inl (Or.inr (Or.inl ⟨search, rfl, hasRoot.trans hrepair⟩)))
    · -- Only the errand of one connector is taken, and its search is the one that begins.
      rcases h.root hruns hroot with hwaits |
        (⟨errand, hmem, hrepair⟩ | ⟨_, hgoing, _⟩ | hleaves) |
        ⟨c, hc, hphase, hmem | ⟨_, hgoing, _⟩⟩
      · exact Or.inl hwaits
      · have hne : errand ≠ .connect serial := by
          rintro rfl
          cases hrepair
        exact Or.inr (Or.inl (Or.inl ⟨errand, (List.mem_erase_of_ne hne).2 hmem, hrepair⟩))
      · rw [hnone] at hgoing
        cases hgoing
      · rw [hstays] at hleaves
        cases hleaves
      · refine Or.inr (Or.inr ⟨c, hc, hphase, ?_⟩)
        by_cases hsame : c.serial = serial
        · exact Or.inr ⟨search, rfl, by rw [hserial, hconnect, hsame]⟩
        · have hne : Errand.connect c.serial ≠ .connect serial := by simpa using hsame
          exact Or.inl ((List.mem_erase_of_ne hne).2 hmem)
      · rw [hnone] at hgoing
        cases hgoing

omit [Transport σ] in
/-- A search that ends without a father settles the connector that runs it. -/
theorem node_endSearch_none (s : Session σ) (search : Search) :
    (s.endSearch search none).node =
      { s.node.settleConnector search.connector .again with
        slot := ⟨if search.asRoot then none else some (.founding true)⟩ } := by
  unfold endSearch
  cases search.asRoot with
  | false => simp
  | true =>
      simp
      rfl

omit [Transport σ] in
/-- A search that ends without a father lets its connector wait again, or a new tree is to be
founded. -/
theorem striving_endSearch (h : s.node.Striving) {search search' : Search}
    (hsearch : s.node.search? = some search) (hroot : search'.asRoot = search.asRoot)
    (hconnector : search'.connector = search.connector) :
    (s.endSearch search' none).node.Striving := by
  rw [node_endSearch_none]
  refine ⟨fun hcontent => ?_, fun hruns hfather => ?_⟩
  · have hnone : s.node.connector = none := h.content (by simpa using hcontent)
    rw [Node.settleConnector_of_none hnone]
    exact hnone
  · replace hruns : s.node.stopped = false := by simpa using hruns
    replace hfather : s.node.position.father = none := by simpa using hfather
    cases hasRoot : search.asRoot with
    | false =>
        refine Or.inr (Or.inl (Or.inr (Or.inr ?_)))
        simp [Node.isLeaving, hroot, hasRoot, Holder.isLeaving]
    | true =>
        rcases h.root hruns hfather with hwaits |
          (⟨errand, hmem, hrepair⟩ | ⟨before, hbefore, hrepair⟩ | hleaves) | ⟨c, hc, hphase, hway⟩
        · exact Or.inl (Node.isConnecting_settleConnector hwaits _)
        · exact Or.inr (Or.inl (Or.inl ⟨errand, by simpa using hmem, hrepair⟩))
        · obtain rfl : before = search := Option.some.inj (hbefore.symm.trans hsearch)
          rw [hasRoot] at hrepair
          cases hrepair
        · rw [Node.isLeaving_of_search hsearch] at hleaves
          cases hleaves
        · by_cases hown : search.connector = some c.serial
          · left
            simp [Node.isConnecting, Node.settleConnector, hc, hconnector, hown, Ticker.settle,
              hphase, Ticker.isWaiting]
          · -- The search is of a connector that was replaced, and the other's is yet to begin.
            have hsame : s.node.settleConnector search'.connector .again = s.node := by
              simp [Node.settleConnector, hc, hconnector, hown]
            rw [hsame]
            refine Or.inr (Or.inr ⟨c, hc, hphase, Or.inl ?_⟩)
            rcases hway with hmem | ⟨before, hbefore, hserial⟩
            · exact hmem
            · obtain rfl : before = search := Option.some.inj (hbefore.symm.trans hsearch)
              exact absurd hserial hown

omit [Transport σ] in
/-- The next candidate is taken. -/
theorem striving_draw (h : s.node.Striving) {search : Search}
    (hsearch : s.node.search? = some search) : (s.draw search).node.Striving := by
  rcases s.draw_cases search with ⟨-, heq⟩ | ⟨-, ⟨-, heq⟩ | ⟨c, -, heq⟩⟩ <;> rw [heq]
  · exact striving_endSearch h hsearch rfl rfl
  · have hdrawn : (s.afterDraw search).node.search? = some search := by simpa using hsearch
    exact striving_endSearch (by simpa using h) hdrawn rfl rfl
  · rw [node_hold, node_afterDraw]
    exact h.steady (Node.steady_of_search hsearch (c.search?_holder _) rfl rfl)

/-! ## Negotiations -/

omit [Transport σ] in
/-- What comes of asking to join a tree touches the candidates at most. -/
theorem steady_endJoin (s : Session σ) (result : NegotiationResult) :
    s.node.Steady (s.endJoin result).node := by
  obtain ⟨global, outcome, hend, -⟩ := s.endJoin_eq result
  rw [hend]
  exact Node.steady_of_place rfl

omit [Transport σ] in
/-- What a search learns touches the candidates at most. -/
theorem steady_learn (s : Session σ) (peer : Peer) (refusal : Refusal) (search : Search) :
    s.node.Steady (s.learn peer refusal search).1.node := by
  obtain ⟨global, hlearn, -⟩ := s.learn_frame peer refusal search
  rw [hlearn]
  exact Node.steady_of_place rfl

omit [Transport σ] in
/-- A negotiation that is over without an acceptance: a search goes on, and nothing else is
lost. -/
theorem steady_settle {purpose : Purpose} {result : NegotiationResult}
    (hsearch : s.node.search? = purpose.search?) (hstays : s.node.isLeaving = false)
    (h : ∀ father, result ≠ .accepted father) :
    s.node.Steady (s.settle purpose result).node := by
  cases purpose with
  | ask => exact Node.steady_of_holder hsearch hstays
  | join =>
      have hrelease : s.node.Steady s.release.node := Node.steady_of_holder hsearch hstays
      exact hrelease.trans (steady_endJoin s.release result)
  | search search source =>
      cases result with
      | accepted father => exact absurd rfl (h father)
      | selfConnect | failed _ => exact Node.steady_of_search hsearch rfl rfl rfl
      | refused peer rank refusal =>
          have hlearn := steady_learn s peer refusal search
          obtain ⟨search', hsearch', hroot, hconnector⟩ := hlearn.search search hsearch
          exact hlearn.trans (Node.steady_of_search hsearch' rfl hroot.symm hconnector.symm)

omit [Transport σ] in
/-- An acceptance leaves no connector behind. -/
theorem striving_settle_accepted (hconnector : s.node.connector = none) {father : Peer}
    (hfather : s.node.position.father = some father) (purpose : Purpose) :
    (s.settle purpose (.accepted father)).node.Striving := by
  have hcontent : { s.node with slot := .free }.Striving :=
    Node.striving_of_none hconnector fun _ hroot => by
      rw [show s.node.position.father = none from hroot] at hfather
      cases hfather
  cases purpose with
  | ask | join => exact hcontent
  | search search source =>
      have hnode : (s.settle (.search search source) (.accepted father)).node =
          { s.node.settleConnector search.connector .stop with slot := .free } := by
        simp [settle, endSearch]
      rw [hnode, Node.settleConnector_of_none hconnector]
      exact hcontent

theorem striving_approach (h : s.node.Striving) {attempt : Attempt}
    (hopening : s.node.slot.holder = some (.opening attempt)) :
    (s.approach attempt).node.Striving := by
  have hsearch : s.node.search? = attempt.purpose.search? := Node.search?_of_holder hopening
  have hstays : s.node.isLeaving = false := Node.isLeaving_of_holder hopening
  rcases s.approach_spec attempt with
    ⟨u, result, heq, hu, hresult⟩ | ⟨peer, result, -, -, hnode, -⟩
  · rw [heq]
    rw [← hu] at h hsearch hstays
    refine h.steady (steady_settle hsearch hstays fun father hacc => ?_)
    rcases hresult with ⟨_, hr⟩ | hr <;> rw [hr] at hacc <;> cases hacc
  · rw [hnode]
    cases hpurpose : attempt.purpose.search? with
    | none => exact h.steady (Node.steady_of_holder (hsearch.trans hpurpose) hstays)
    | some search =>
        exact h.steady (Node.steady_of_search (hsearch.trans hpurpose) hpurpose rfl rfl)

theorem striving_submit (h : s.node.Striving) {negotiation : Negotiation} {request : Request}
    (hasking : s.node.slot.holder = some (.asking negotiation request)) :
    (s.submit negotiation request).node.Striving := by
  have hsearch : s.node.search? = negotiation.purpose.search? := Node.search?_of_holder hasking
  have hstays : s.node.isLeaving = false := Node.isLeaving_of_holder hasking
  obtain ⟨holder, hnode, hholder⟩ := s.submit_cases negotiation request
  have hgoing : holder.search? = negotiation.purpose.search? := by
    rcases hholder with ⟨rfl, -⟩ | ⟨rfl, -⟩ <;> rfl
  rw [hnode]
  cases hpurpose : negotiation.purpose.search? with
  | none => exact h.steady (Node.steady_of_holder (hsearch.trans hpurpose) hstays)
  | some search =>
      exact h.steady (Node.steady_of_search (hsearch.trans hpurpose) (hgoing.trans hpurpose)
        rfl rfl)

theorem striving_retreat (h : s.node.Striving) {negotiation : Negotiation}
    (hretreating : s.node.slot.holder = some (.retreating negotiation)) :
    (s.retreat negotiation).node.Striving := by
  rw [retreat_eq]
  have hgiven : (s.giveUp negotiation.peer).2.node = { s.node with mailbox := .empty } := rfl
  have hholder : (s.giveUp negotiation.peer).2.node.slot.holder =
      some (.retreating negotiation) := hretreating
  refine Node.Striving.steady ?_ (steady_settle (Node.search?_of_holder hholder)
    (Node.isLeaving_of_holder hholder) (by simp))
  rw [hgiven]
  exact h.steady (Node.steady_of_place rfl)

theorem striving_resume (h : s.node.Striving) : s.resume.node.Striving := by
  by_cases hn : ∃ negotiation, s.node.slot.holder = some (.negotiating negotiation)
  · obtain ⟨negotiation, hslot⟩ := hn
    rw [resume_of_negotiating hslot]
    rcases s.conclude_cases negotiation.peer with
      ⟨response, acceptance, _, _, heq⟩ | ⟨result, heq, hother⟩
    · rw [heq]
      refine striving_settle_accepted ?_ ?_ _
      · rw [node_attach]
      · obtain ⟨rank, hplace⟩ := s.node.position.attach_eq s.node.self negotiation.peer
          response.rank acceptance s.words
        rw [node_attach]
        exact congrArg Position.father hplace
    · rw [heq]
      have hholder : ((s.withMailbox .empty).closeLink negotiation.peer).node.slot.holder =
          some (.negotiating negotiation) := hslot
      exact Node.Striving.steady (h.steady (Node.steady_of_place rfl))
        (steady_settle (Node.search?_of_holder hholder) (Node.isLeaving_of_holder hholder) hother)
  · rwa [resume_of_not_negotiating (by simpa using hn)]

/-! ## New trees -/

/-- Whoever leaves its father is to found a tree. -/
theorem striving_forsake (h : s.node.Striving) {father : Peer}
    (hleaving : s.node.slot.holder = some (.leaving father)) :
    (s.forsake father).node.Striving := by
  rw [node_forsake]
  refine h.steady ⟨rfl, rfl, rfl, fun _ hmem _ => hmem, fun search hsearch => ?_, fun _ => rfl⟩
  simp [Node.search?, hleaving, Holder.search?] at hsearch

/-- Whoever founds a tree starts another connector, unless it is stopped. -/
theorem striving_found (h : s.node.Striving) (repair : Bool) :
    (s.found repair).node.Striving := by
  rw [node_found]
  cases hstopped : s.node.stopped with
  | true =>
      refine Node.striving_of_none (h.content (Or.inl hstopped)) fun hruns => ?_
      rw [if_pos rfl] at hruns
      exact absurd (hstopped.symm.trans hruns) (by simp)
  | false =>
      refine Node.striving_of_connecting ?_ ?_ rfl
      · exact hstopped
      · simp [founds, hstopped, Position.newTree]

/-- Whatever holds the slot goes on. -/
theorem striving_advance (h : s.node.Striving) : s.advance.node.Striving := by
  match hholder : s.node.slot.holder with
  | none | some .outsider | some (.negotiating _) =>
      rwa [advance_of_not_ready (by simp [Node.isReady, hholder, Holder.isReady])]
  | some (.searching search) =>
      rw [advance_of_searching hholder]
      exact striving_draw h (Node.search?_of_holder hholder)
  | some (.opening attempt) =>
      rw [advance_of_opening hholder]
      exact striving_approach h hholder
  | some (.asking negotiation request) =>
      rw [advance_of_asking hholder]
      exact striving_submit h hholder
  | some (.retreating negotiation) =>
      rw [advance_of_retreating hholder]
      exact striving_retreat h hholder
  | some (.leaving father) =>
      rw [advance_of_leaving hholder]
      exact striving_forsake h hholder
  | some (.founding repair) =>
      rw [advance_of_founding hholder]
      exact striving_found h repair

/-! ## Errands -/

omit [Transport σ] in
theorem striving_join (h : s.node.Striving) (hfree : s.node.slot.isBusy = false) (url : String) :
    (s.join url).node.Striving := by
  have hholder : s.node.slot.holder = none := by simpa [Slot.isBusy] using hfree
  unfold join
  cases s.node.position.father with
  | some father => exact h
  | none =>
      exact h.steady (Node.steady_of_holder (by simp [Node.search?, hholder])
        (by simp [Node.isLeaving, hholder]))

theorem striving_reroot (h : s.node.Striving) (hfree : s.node.slot.isBusy = false) :
    s.reroot.node.Striving := by
  have hholder : s.node.slot.holder = none := by simpa [Slot.isBusy] using hfree
  unfold reroot
  cases s.node.position.father <;>
    exact h.steady (Node.steady_of_holder (by simp [Node.search?, hholder])
      (by simp [Node.isLeaving, hholder]))

theorem striving_begin {errand : Errand} (h : s.node.Striving)
    (hfree : s.node.slot.isBusy = false) :
    ((s.withNode { s.node with errands := s.node.errands.erase errand }).begin
      errand).node.Striving := by
  let u := s.withNode { s.node with errands := s.node.errands.erase errand }
  have htaken : errand.seeks = false → u.node.Striving := fun hseeks =>
    h.steady (Node.steady_of_errands fun other hmem hother =>
      (List.mem_erase_of_ne fun heq => by rw [heq, hseeks] at hother; cases hother).2 hmem)
  cases errand with
  | repair dead => exact striving_search h hfree rfl (Or.inl rfl)
  | connect serial => exact striving_search h hfree rfl (Or.inr ⟨serial, rfl, rfl⟩)
  | join url => exact striving_join (s := u) (htaken rfl) hfree url
  | reroot => exact striving_reroot (s := u) (htaken rfl) hfree

/-! ## The owner and the timers -/

omit [Transport σ] in
theorem striving_start (h : s.node.Striving) : s.start.node.Striving := by
  unfold start
  split
  · rename_i hstopped
    have hnone : s.node.connector = none := h.content (Or.inl hstopped)
    dsimp only
    split
    · rename_i hroot
      exact Node.striving_of_connecting rfl (Option.isNone_iff_eq_none.1 hroot) rfl
    · rename_i hfather
      refine Node.striving_of_none hnone fun _ hroot => absurd ?_ hfather
      exact Option.isNone_iff_eq_none.2 hroot
  · exact h

omit [Transport σ] in
theorem striving_tick (h : s.node.Striving) : s.tick.node.Striving := by
  unfold tick
  split
  · exact h
  · rename_i c hc
    split
    · rename_i hwaits
      dsimp only
      split
      · rename_i hcontent
        -- A node that is stopped or has a father has no connector that could wait.
        have hnone : s.node.connector = none := by
          refine h.content ?_
          simpa [Position.isRoot, ← Option.not_isSome] using hcontent
        rw [hc] at hnone
        cases hnone
      · rename_i hroot
        have hphase : c.ticker.fire.phase = .running := by simp [Ticker.fire, hwaits]
        refine ⟨fun hcontent => absurd ?_ hroot, fun _ _ => Or.inr (Or.inr ?_)⟩
        · simpa [Position.isRoot, ← Option.not_isSome] using hcontent
        · exact ⟨_, rfl, hphase, Or.inl (List.mem_append_right _ (List.mem_singleton.2 rfl))⟩
    · exact h

/-- **Every act keeps a node striving.** -/
theorem striving_run {a : Act} (h : s.node.Striving) (possible : a.Possible s.node) :
    (a.run s).node.Striving := by
  have hqueue : ∀ errand, (s.queue errand).node.Striving := fun errand =>
    h.steady (Node.steady_of_errands fun _ hmem _ => List.mem_append_left _ hmem)
  cases a with
  | event event => exact striving_onEvent h event
  | start => exact striving_start h
  | stop => exact Node.striving_of_none rfl fun hstopped => by cases hstopped
  | requestJoin url =>
      simp only [Act.run, requestJoin]
      split
      · exact h
      · split
        · exact h
        · exact hqueue _
  | requestReroot => exact hqueue .reroot
  | leave peer =>
      simp only [Act.run, leave_eq]
      split
      · exact striving_depart (s := s.tell peer .noLongerChild) h peer
      · exact h
  | tick => exact striving_tick h
  | gossip =>
      change s.gossip.node.Striving
      rwa [node_gossip]
  | begin errand => exact striving_begin h possible.2
  | advance => exact striving_advance h
  | resume => exact striving_resume h

end Session

/-! ## All that can happen to a node -/

/-- In every life the node strives. -/
theorem Life.striving {cond : Episode → Prop} {history : List Episode} {n : Node}
    (life : Life cond history n) : n.Striving := by
  induction life with
  | birth settings self ws => exact Node.striving_of_none rfl fun hstopped => by cases hstopped
  | act life outside ws possible _ ih => exact Session.striving_run ih possible

/-- **In every life a node with a father has no root connector, and a root that runs, once
nothing goes on and no repair waits, has one that waits for its next interval.** -/
theorem Life.connecting_of_root {history : List Episode} {n : Node}
    (life : Life (fun _ => True) history n) :
    (n.position.father.isSome = true → n.connector = none) ∧
      (n.AtRest → n.stopped = false → n.position.father = none →
        (∀ dead, .repair dead ∉ n.errands) → n.isConnecting = true) := by
  have hstrives := life.striving
  refine ⟨fun hfather => hstrives.content (Or.inr hfather), fun hrest hruns hroot hnone => ?_⟩
  have hholder : n.slot.holder = none := by simpa [Slot.isBusy] using hrest.1
  have hsearch : n.search? = none := by simp [Node.search?, hholder]
  have hstays : n.isLeaving = false := by simp [Node.isLeaving, hholder]
  have hmending : ∀ errand ∈ n.errands, errand.isRepair = true → False := by
    intro errand hmem hrepair
    cases errand with
    | repair dead => exact hnone dead hmem
    | connect | join | reroot => cases hrepair
  rcases hstrives.root hruns hroot with hwaits |
    (⟨errand, hmem, hrepair⟩ | ⟨_, hgoing, _⟩ | hleaves) | ⟨c, _, _, hmem | ⟨_, hgoing, _⟩⟩
  · exact hwaits
  · exact absurd hrepair (hmending errand hmem)
  · rw [hsearch] at hgoing
    cases hgoing
  · rw [hstays] at hleaves
    cases hleaves
  · exact absurd (hrest.2 _ hmem) (hmending _ hmem)
  · rw [hsearch] at hgoing
    cases hgoing

namespace Rehearsal

/-- A broker that has been accepted by a second has no connector; once the second is dead and
the third, to whom the repair turns, is too, the broker is the root of a new tree and its
connector waits. -/
theorem connecting_of_root_of_widow :
    let marriage := courtship ++ [.resume]
    let mourning : List Act := marriage ++
      [.event (.dead (broker 2 "y")), .begin (.repair (broker 2 "y")), .advance, .advance,
        .advance, .event (.dead (broker 3 "z")), .resume, .advance, .advance]
    let married := newborn.grown trio still marriage
    let widow := newborn.grown trio still mourning
    Life (fun _ => True) (newborn.story trio still marriage) married ∧
      married.position.father = some (broker 2 "y") ∧ married.connector = none ∧
        Life (fun _ => True) (newborn.story trio still mourning) widow ∧
          widow.AtRest ∧ widow.stopped = false ∧ widow.position.father = none ∧
            widow.errands = [] ∧ widow.isConnecting = true := by
  intro marriage mourning married widow
  have hmarriage : ∀ e ∈ newborn.story trio still marriage,
      e.act.Possible e.before ∧ (fun _ : Episode => True) e := by decide +kernel
  have hmourning : ∀ e ∈ newborn.story trio still mourning,
      e.act.Possible e.before ∧ (fun _ : Episode => True) e := by decide +kernel
  have birth : Life (fun _ => True) [] newborn := .birth .standard (broker 1 "x") still
  have wed : Life (fun _ => True) (newborn.story trio still marriage) married :=
    birth.story trio still hmarriage
  have left : Life (fun _ => True) (newborn.story trio still mourning) widow :=
    birth.story trio still hmourning
  have hfather : married.position.father = some (broker 2 "y") := by decide +kernel
  have hrest : widow.AtRest := ⟨by decide +kernel, by decide +kernel⟩
  have hruns : widow.stopped = false := by decide +kernel
  have hroot : widow.position.father = none := by decide +kernel
  have hnone : widow.errands = [] := by decide +kernel
  refine ⟨wed, hfather, wed.connecting_of_root.1 (by rw [hfather]; rfl), left, hrest, hruns,
    hroot, hnone, left.connecting_of_root.2 hrest hruns hroot fun dead hmem => ?_⟩
  rw [hnone] at hmem
  cases hmem

end Rehearsal

end BrokerForest
