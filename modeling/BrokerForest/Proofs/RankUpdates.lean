import BrokerForest.Proofs.SearchSteps
/-!
# When a node tells of a new rank

An update tells the children of a node of its rank.  A node passes on the updates of its
father.  Of its own accord it tells of a new rank only if it is a root and takes the color of
a new child, or when a reconfiguration of it ends.

Main statements:

* `Conduct.discreet` — the rule to send no update;
* `Session.discreet_onEvent` — what a node experiences makes it break the rule in two cases
  only;
* `Session.discreet_begin`, **`Session.goesOn_advance`**, `Session.goesOn_resume` — it keeps to
  the rule while a reconfiguration begins and goes on.
-/

namespace BrokerForest

/-- Whether an event brings an update. -/
def Event.isUpdate : Event → Bool
  | .message _ m => m.isUpdate
  | .opened _ | .closed _ | .dead _ => false

/-- The rule to tell of no new rank. -/
def Conduct.discreet : Conduct where
  opens _ := True
  sends _ message _ := message.isUpdate = false

namespace Session

variable {σ : Type} [Transport σ] {rule : Conduct} {s t : Session σ}

/-! ## What a node experiences -/

/-- A root that takes a new child's color tells its children so. -/
theorem discreet_examine (s : Session σ) {requester : Peer} (hbroker : requester.broker = true)
    (request : Request) :
    s.Keeps .discreet (s.examine requester request) ∨
      (s.examine requester request).node.position.father = none ∧
        (s.examine requester request).node.position.has requester.id = true := by
  rw [examine_eq]
  generalize hjudge : s.node.judge requester request s.words = judged
  obtain ⟨verdict, ws⟩ := judged
  have hstart : s.Keeps .discreet (s.withWords ws) := keeps_withWords s ws
  rcases verdict with _ | ⟨refusal, _ | _ | root⟩ | admission
  · exact Or.inl hstart
  · exact Or.inl (hstart.trans (keeps_refuse _ fun _ => rfl))
  · exact Or.inl ((hstart.trans (keeps_withPosition _ _)).trans (keeps_refuse _ fun _ => rfl))
  · exact Or.inl ((hstart.trans (keeps_refuse _ fun _ => rfl)).trans
      (keeps_sendTransient _ (fun _ _ => trivial) fun _ _ => rfl))
  · change s.Keeps _ ((s.withWords ws).accept requester admission) ∨
      ((s.withWords ws).accept requester admission).node.position.father = none ∧
        ((s.withWords ws).accept requester admission).node.position.has requester.id = true
    have hsend : s.Keeps .discreet ((s.withWords ws).send requester
        ((s.withWords ws).node.offer admission) .control).2 := hstart.trans (keeps_send _ rfl)
    cases hsent : ((s.withWords ws).send requester ((s.withWords ws).node.offer admission)
        .control).1 with
    | false =>
        rw [accept_of_not_sent hsent]
        exact Or.inl hsend
    | true =>
        rw [accept_of_sent hsent]
        cases hadopts : admission.adopts with
        | false =>
            exact Or.inl (hsend.trans (keeps_welcome _ (fun _ _ => trivial) (fun _ _ _ => rfl)
              fun htrue => absurd htrue (by simp [hadopts])))
        | true =>
            right
            rw [node_welcome]
            refine ⟨?_, (Position.has_add hbroker _).trans (by simp)⟩
            rcases Position.admission_cases (Node.admission_of_judge hjudge).2.1 with
              ⟨hroot, _, _⟩ | ⟨_, hkin⟩ | ⟨_, rfl⟩
            · exact (by simpa [Position.isRoot] using hroot : s.node.position.father = none)
            · rcases Position.admissionOfKin_cases hkin with ⟨rfl, _⟩ | ⟨d, rfl, _⟩ <;>
                cases hadopts
            · cases hadopts

/-- What a node experiences makes it tell of a new rank only if it is told of one itself, or
if it is a root and accepts a child. -/
theorem discreet_onEvent (s : Session σ) {e : Event} (hbroker : e.source.broker = true) :
    s.Keeps .discreet (s.onEvent e) ∨ e.isUpdate = true ∨
      ∃ request, e = .message e.source (.request request) ∧
        (s.onEvent e).node.position.father = none ∧
          (s.onEvent e).node.position.has e.source.id = true := by
  have hgone : ∀ peer, s.Keeps .discreet
      ((s.withNode { s.node with mailbox := s.node.mailbox.cancel peer }).depart peer) :=
    fun peer => (keeps_withNode _ _).trans (keeps_depart _ fun _ _ => rfl)
  cases e with
  | opened peer =>
      left
      simp only [onEvent]
      split
      · exact .refl s
      · exact keeps_withPosition _ _
  | closed peer => exact Or.inl (hgone peer)
  | dead peer => exact Or.inl (hgone peer)
  | message origin message =>
      cases message with
      | request request =>
          exact (discreet_examine s hbroker request).imp_right fun h => Or.inr ⟨request, rfl, h⟩
      | response response =>
          exact Or.inl (keeps_onResponse s (fun _ _ => trivial) fun _ _ => rfl)
      | update news => exact Or.inr (Or.inl rfl)
      | siblingDead news =>
          left
          simp only [onEvent, onMessage]
          split
          · exact keeps_withPosition _ _
          · exact .refl s
      | newSibling news =>
          left
          simp only [onEvent, onMessage]
          split
          · exact keeps_withPosition _ _
          · exact .refl s
      | candidates peers => exact Or.inl (keeps_withPosition _ _)
      | goodCandidate peer => exact Or.inl (keeps_withPosition _ _)
      | noLongerChild => exact Or.inl (keeps_depart _ fun _ _ => rfl)

/-! ## Reconfigurations -/

/-- A search begins without a word. -/
theorem keeps_search (s : Session σ) (dead : Option Peer) (asRoot : Bool)
    (connector : Option Nat) : s.Keeps rule (s.search dead asRoot connector) := by
  unfold search
  split
  · exact (keeps_withNode _ _).trans (keeps_finish _ _)
  · dsimp only
    split
    · exact (keeps_withNode _ _).trans (keeps_finish _ _)
    · exact ((keeps_withPosition _ _).trans (keeps_note _ _)).trans (keeps_withNode _ _)

/-- A node that is to join a tree says nothing yet. -/
theorem keeps_join (s : Session σ) (url : String) : s.Keeps rule (s.join url) := by
  unfold join
  split
  · exact keeps_finish _ _
  · exact keeps_withNode _ _

/-- An errand begins without a word of a new rank. -/
theorem discreet_begin (s : Session σ) (errand : Errand) :
    s.Keeps .discreet (s.begin errand) := by
  cases errand with
  | repair dead => exact keeps_search s _ _ _
  | connect connector => exact keeps_search s _ _ _
  | reroot => exact keeps_reroot s fun _ _ => rfl
  | join url => exact keeps_join s url

/-- A reconfiguration goes on without a word of a new rank, and is after no other loss than
before. -/
structure GoesOn (s t : Session σ) : Prop where
  keeps : s.Keeps .discreet t
  dead : t.node.slot.holder.bind Holder.dead = s.node.slot.holder.bind Holder.dead ∨
    t.node.slot.holder.bind Holder.dead = none

omit [Transport σ] in
/-- A search that is to go on after a negotiation is after the same loss. -/
theorem dead_settle (s : Session σ) (purpose : Purpose) (result : NegotiationResult) :
    (s.settle purpose result).node.isEngaged = false ∨
      (s.settle purpose result).node.slot.holder.bind Holder.dead =
        purpose.search?.bind Search.dead := by
  cases purpose with
  | ask => exact Or.inl rfl
  | join =>
      left
      obtain ⟨global, outcome, hend, -⟩ := s.release.endJoin_eq result
      rw [settle, hend]
      rfl
  | search search source =>
      cases result with
      | accepted father =>
          left
          obtain ⟨connector, hnode⟩ := s.node_settle_accepted (.search search source) father
          rw [hnode]
          rfl
      | selfConnect | failed _ | refused _ _ _ => exact Or.inr rfl

/-- What comes of a negotiation ends the reconfiguration, or it goes on. -/
theorem goesOn_settle {t : Session σ} (hkeeps : s.Keeps .discreet t) {purpose : Purpose}
    (hdead : s.node.slot.holder.bind Holder.dead = purpose.search?.bind Search.dead)
    (result : NegotiationResult) :
    (t.settle purpose result).node.isEngaged = false ∨ s.GoesOn (t.settle purpose result) :=
  (t.dead_settle purpose result).imp_right fun hsame =>
    ⟨hkeeps.trans (keeps_settle t _ _), Or.inl (hsame.trans hdead.symm)⟩

/-- A search that ends is over, or goes on to found a tree. -/
theorem goesOn_endSearch {t : Session σ} (hkeeps : s.Keeps .discreet t) (search : Search) :
    (t.endSearch search none).node.isEngaged = false ∨ s.GoesOn (t.endSearch search none) := by
  obtain ⟨connector, hnode⟩ := t.node_endSearch search none
  cases hroot : search.asRoot with
  | true =>
      left
      rw [hnode, hroot]
      rfl
  | false =>
      right
      refine ⟨hkeeps.trans (keeps_endSearch t _ _), Or.inr ?_⟩
      rw [hnode, hroot]
      rfl

/-- A step ends the reconfiguration, or it goes on without a word of a new rank. -/
theorem goesOn_advance (s : Session σ) :
    s.advance.node.isEngaged = false ∨ s.GoesOn s.advance := by
  match hslot : s.node.slot.holder with
  | none | some .outsider | some (.negotiating _) =>
      rw [advance_of_not_ready (by simp [Node.isReady, hslot, Holder.isReady])]
      exact Or.inr ⟨.refl s, Or.inl rfl⟩
  | some (.searching search) =>
      rw [advance_of_searching hslot]
      rcases s.draw_cases search with ⟨-, heq⟩ | ⟨-, ⟨-, heq⟩ | ⟨c, -, heq⟩⟩ <;> rw [heq]
      · exact goesOn_endSearch (.refl s) search
      · exact goesOn_endSearch (keeps_afterDraw s search) _
      · refine Or.inr ⟨(keeps_afterDraw s search).trans (keeps_withNode _ _), Or.inl ?_⟩
        simp only [node_hold, hslot, Option.bind_some, Holder.dead, Candidate.search?_holder]
        rfl
  | some (.opening attempt) =>
      rw [advance_of_opening hslot]
      have hdead : s.node.slot.holder.bind Holder.dead =
          attempt.purpose.search?.bind Search.dead := by
        rw [hslot]
        rfl
      have hopen : s.Keeps .discreet (s.openLink attempt.url).2 := keeps_openLink s trivial
      rcases s.approach_cases attempt with
        ⟨error, -, heq⟩ | ⟨peer, -, ⟨-, heq⟩ | ⟨-, heq⟩⟩ <;> rw [heq]
      · exact goesOn_settle hopen hdead _
      · exact goesOn_settle (hopen.trans (keeps_closeLink _ _)) hdead _
      · exact Or.inr ⟨hopen.trans (keeps_withNode _ _), Or.inl hdead.symm⟩
  | some (.asking negotiation request) =>
      rw [advance_of_asking hslot]
      refine Or.inr ⟨keeps_submit s fun _ => rfl, Or.inl ?_⟩
      obtain ⟨holder, hnode, hholder⟩ := s.submit_cases negotiation request
      rw [hnode, hslot]
      rcases hholder with ⟨rfl, -⟩ | ⟨rfl, -⟩ <;> rfl
  | some (.retreating negotiation) =>
      rw [advance_of_retreating hslot, retreat_eq]
      exact goesOn_settle ((keeps_withNode s _).trans (keeps_closeLink _ _)) (by rw [hslot]; rfl) _
  | some (.leaving father) =>
      rw [advance_of_leaving hslot]
      exact Or.inr ⟨keeps_forsake s father, Or.inr rfl⟩
  | some (.founding repair) =>
      left
      rw [advance_of_founding hslot, node_found]
      rfl

/-- A reconfiguration that goes on to ask someone was there to do so. -/
theorem looking_of_advance (h : s.advance.node.isLooking = true) : s.node.isLooking = true := by
  match hslot : s.node.slot.holder with
  | none | some .outsider =>
      rwa [advance_of_not_ready (by simp [Node.isReady, hslot, Holder.isReady])] at h
  | some (.leaving father) =>
      rw [advance_of_leaving hslot] at h
      cases h
  | some (.founding repair) =>
      rw [advance_of_founding hslot, Node.isLooking, node_found] at h
      cases h
  | some (.searching _) | some (.opening _) | some (.asking _ _) | some (.negotiating _)
  | some (.retreating _) => simp [Node.isLooking, hslot, Holder.isLooking]

/-- A negotiation that is over ends the reconfiguration, or it goes on without a word of a new
rank. -/
theorem goesOn_resume {negotiation : Negotiation}
    (hslot : s.node.slot.holder = some (.negotiating negotiation)) :
    s.resume.node.isEngaged = false ∨ s.GoesOn s.resume := by
  rw [resume_of_negotiating hslot]
  rcases s.conclude_cases negotiation.peer with
    ⟨response, acceptance, _, _, heq⟩ | ⟨result, heq, hother⟩
  · rw [heq]
    obtain ⟨connector, hnode⟩ := node_settle_accepted
      ((s.withMailbox .empty).attach negotiation.peer response.rank acceptance)
      negotiation.purpose negotiation.peer
    exact Or.inl (by simp [Node.isEngaged, hnode, Slot.free])
  · rw [heq]
    exact goesOn_settle ((keeps_withNode _ _).trans (keeps_closeLink _ _)) (by rw [hslot]; rfl) _

end Session

end BrokerForest
