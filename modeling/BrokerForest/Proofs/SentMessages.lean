import BrokerForest.Proofs.RankUpdates
import BrokerForest.Proofs.Shifts
/-!
# Messages sent: all that a node can say in one act

Facts about the messages of a node are facts about all acts.  This module runs through the
acts once and says which messages each of them can lead to, with the rank that stands in
them: the one that the node has before the act, the one that it has afterwards, where it asks,
the one that it had when it opened the link, or, where a requester is accepted, the one that
the admission leads to.  The last of them is told also if the message does not go out and
nothing comes of the admission.

Main statements:

* `Node.Says` — what a node can say in an act;
* `Session.says_onEvent`, `Session.says_begin`, `Session.says_advance`, `Session.says_resume`
  — the acts that have something to say;
* **`Session.says_run`** — in every act a node says only this.
-/

namespace BrokerForest

/-- What a node can say in an act that leaves it at a certain rank. -/
inductive Node.Says (n : Node) : Act → Rank → Message → Prop where
  /-- It asks whom it is to ask, as it stood when it found it. -/
  | ask {negotiation : Negotiation} {request : Request} (later : Rank)
      (asks : n.slot.holder = some (.asking negotiation request)) :
      n.Says .advance later (.request request)
  /-- It refuses a requester as it stands before the act. -/
  | refuse {requester : Peer} {request : Request} (later : Rank) (refusal : Refusal) :
      n.Says (.event (.message requester (.request request))) later
        (.response ⟨n.position.rank, .refused refusal⟩)
  /-- It accepts a requester at the rank that the admission leads to, which it takes only if
  the message goes out. -/
  | accept {requester : Peer} {request : Request} {admission : Admission} {ws ws' : Words}
      (later : Rank) (verdict : n.judge requester request ws = (.accept admission, ws')) :
      n.Says (.event (.message requester (.request request))) later (n.offer admission)
  /-- It tells its children of a new one, at the rank that it has then. -/
  | greet {requester : Peer} {request : Request} {admission : Admission} {ws ws' : Words}
      (later : Rank) (verdict : n.judge requester request ws = (.accept admission, ws')) :
      n.Says (.event (.message requester (.request request))) later
        (.newSibling ⟨admission.rank n.position.rank, n.chain, n.position.children,
          n.position.global.snapshot, requester⟩)
  /-- It tells them of a color that it has taken from a requester. -/
  | adopt {requester : Peer} {request : Request} {admission : Admission} {ws ws' : Words}
      (later : Rank) (verdict : n.judge requester request ws = (.accept admission, ws')) :
      n.Says (.event (.message requester (.request request))) later
        (.update ⟨admission.rank n.position.rank, n.chain, n.settings.hops⟩)
  /-- It tells its root of a requester. -/
  | recommend {requester : Peer} {request : Request} (later : Rank) :
      n.Says (.event (.message requester (.request request))) later (.goodCandidate requester)
  /-- It tells its children of one that is gone. -/
  | bury {a : Act} {gone : Peer} (later : Rank) (parts : a.Parts gone) :
      n.Says a later (.siblingDead ⟨n.position.rank, n.position.global.snapshot, gone⟩)
  /-- It tells its children of the rank that it has come to. -/
  | update (a : Act) (later : Rank) (upstream : List Peer) (hops : UInt32) :
      n.Says a later (.update ⟨later, upstream, hops⟩)
  /-- It takes its leave. -/
  | farewell (a : Act) (later : Rank) : n.Says a later .noLongerChild
  /-- It tells candidates of others. -/
  | gossip (later : Rank) (peers : List Peer) : n.Says .gossip later (.candidates peers)

/-- The rule to say only what a node can say in an act. -/
def Conduct.saying (n : Node) (a : Act) (later : Rank) : Conduct where
  opens _ := True
  sends _ message _ := n.Says a later message

namespace Session

variable {σ : Type} [Transport σ] {s : Session σ} {n : Node} {a : Act} {later : Rank}

/-! ## What a node experiences -/

theorem says_depart {gone : Peer} (parts : a.Parts gone) (hplace : s.node.position = n.position) :
    s.Keeps (.saying n a later) (s.depart gone) :=
  keeps_depart s fun _ _ => by
    rw [hplace]
    exact .bury later parts

theorem says_accept {child : Peer} {request : Request} {admission : Admission} {ws ws' : Words}
    (verdict : s.node.judge child request ws = (.accept admission, ws')) :
    s.Keeps (.saying s.node (.event (.message child (.request request))) later)
      (s.accept child admission) := by
  have hsend : s.Keeps (.saying s.node (.event (.message child (.request request))) later)
      (s.send child (s.node.offer admission) .control).2 :=
    keeps_send s (.accept later verdict)
  cases hsent : (s.send child (s.node.offer admission) .control).1 with
  | false =>
      rw [accept_of_not_sent hsent]
      exact hsend
  | true =>
      rw [accept_of_sent hsent]
      exact hsend.trans (keeps_welcome _ (fun _ _ => trivial) (fun _ _ _ => .greet later verdict)
        fun _ _ _ _ => .adopt later verdict)

theorem says_examine (s : Session σ) (requester : Peer) (request : Request) :
    s.Keeps (.saying s.node (.event (.message requester (.request request))) later)
      (s.examine requester request) := by
  rw [examine_eq]
  generalize hjudge : s.node.judge requester request s.words = judged
  obtain ⟨verdict, ws⟩ := judged
  have hwords : s.Keeps (.saying s.node (.event (.message requester (.request request))) later)
      (s.withWords ws) := keeps_withWords s ws
  rcases verdict with _ | ⟨refusal, _ | _ | root⟩ | admission
  · exact hwords
  · exact hwords.trans (keeps_refuse _ fun _ => .refuse later refusal)
  · exact (hwords.trans (keeps_withPosition _ _)).trans (keeps_refuse _ fun _ =>
      .refuse later refusal)
  · exact (hwords.trans (keeps_refuse _ fun _ => .refuse later refusal)).trans
      (keeps_sendTransient _ (fun _ _ => trivial) fun _ _ => .recommend later)
  · exact hwords.trans (says_accept (s := s.withWords ws) hjudge)

theorem says_onEvent (s : Session σ) (event : Event) :
    s.Keeps (.saying s.node (.event event) (s.onEvent event).node.position.rank)
      (s.onEvent event) := by
  cases event with
  | opened peer =>
      simp only [onEvent]
      split
      · exact .refl s
      · exact keeps_withPosition _ _
  | closed peer | dead peer => exact (keeps_withNode s _).trans (says_depart rfl rfl)
  | message origin message =>
      cases message with
      | request request => exact says_examine s origin request
      | response response =>
          exact keeps_onResponse s (fun _ _ => trivial) fun _ _ => .farewell _ _
      | update news => exact keeps_onUpdate s fun _ _ => .update _ _ _ _
      | siblingDead news | newSibling news =>
          simp only [onEvent, onMessage]
          split
          · exact keeps_withPosition _ _
          · exact .refl s
      | candidates peers => exact keeps_withPosition _ _
      | goodCandidate peer => exact keeps_withPosition _ _
      | noLongerChild => exact says_depart rfl rfl

/-! ## Reconfigurations -/

theorem says_begin (s : Session σ) (errand : Errand) :
    s.Keeps (.saying n a later) (s.begin errand) := by
  cases errand with
  | repair dead => exact keeps_search s _ _ _
  | connect connector => exact keeps_search s _ _ _
  | join url => exact keeps_join s url
  | reroot => exact keeps_reroot s fun _ _ => .farewell a later

theorem says_advance (s : Session σ) :
    s.Keeps (.saying s.node .advance s.advance.node.position.rank) s.advance := by
  match hholder : s.node.slot.holder with
  | none | some .outsider | some (.negotiating _) =>
      rw [advance_of_not_ready (by simp [Node.isReady, hholder, Holder.isReady])]
      exact .refl s
  | some (.searching search) =>
      rw [advance_of_searching hholder]
      exact keeps_draw s search
  | some (.opening attempt) =>
      rw [advance_of_opening hholder]
      exact keeps_approach s trivial
  | some (.asking negotiation request) =>
      rw [advance_of_asking hholder]
      exact keeps_submit s fun _ => .ask _ hholder
  | some (.retreating negotiation) =>
      rw [advance_of_retreating hholder]
      exact keeps_retreat s negotiation
  | some (.leaving father) =>
      rw [advance_of_leaving hholder]
      exact keeps_forsake s father
  | some (.founding repair) =>
      rw [advance_of_founding hholder]
      exact keeps_found s repair fun _ _ _ => .update _ _ _ _

theorem says_resume (s : Session σ) :
    s.Keeps (.saying s.node .resume s.resume.node.position.rank) s.resume := by
  by_cases hn : ∃ negotiation, s.node.slot.holder = some (.negotiating negotiation)
  · obtain ⟨negotiation, hslot⟩ := hn
    have hempty (later : Rank) :
        s.Keeps (.saying s.node .resume later) (s.withMailbox .empty) := keeps_withNode _ _
    rw [resume_of_negotiating hslot]
    refine Keeps.trans ?_ (keeps_settle _ _ _)
    rcases s.conclude_cases negotiation.peer with
      ⟨response, acceptance, _, _, heq⟩ | ⟨result, heq, _⟩
    · obtain ⟨_, hnode⟩ := node_settle_accepted (s.conclude negotiation.peer).2
        negotiation.purpose negotiation.peer
      rw [heq] at hnode ⊢
      dsimp only at hnode ⊢
      rw [hnode]
      exact (hempty _).trans (keeps_attach _ fun _ _ => .update _ _ _ _)
    · rw [heq]
      exact (hempty _).trans (keeps_closeLink _ _)
  · rw [resume_of_not_negotiating (by simpa using hn)]
    exact .refl s

/-! ## Every act -/

theorem says_gossip (s : Session σ) :
    s.Keeps (.saying s.node .gossip later) s.gossip := by
  obtain ⟨payload, recipients, ws, heq | heq⟩ := s.gossip_eq
  · rw [heq]
    exact keeps_withWords s ws
  · have htell : (s.withWords ws).Keeps (.saying s.node .gossip later)
        ((s.withWords ws).tellCandidates payload recipients) :=
      keeps_tellCandidates _ (fun _ _ _ _ => trivial) fun _ _ => .gossip later payload
    rw [heq]
    exact ((keeps_withWords s ws).trans htell).trans (keeps_note _ _)

theorem says_leave (s : Session σ) (peer : Peer) :
    s.Keeps (.saying s.node (.leave peer) later) (s.leave peer) := by
  rw [leave_eq]
  split
  · exact (keeps_tell s fun _ => Node.Says.farewell _ _).trans (says_depart rfl rfl)
  · exact .refl s

/-- **In every act a node says only what it can say.** -/
theorem says_run (s : Session σ) (a : Act) :
    s.Keeps (.saying s.node a (a.run s).node.position.rank) (a.run s) := by
  cases a with
  | event event => exact says_onEvent s event
  | leave peer => exact says_leave s peer
  | gossip => exact says_gossip s
  | begin errand =>
      exact (keeps_withNode s _).trans (says_begin _ errand)
  | advance => exact says_advance s
  | resume => exact says_resume s
  | start | stop | requestJoin _ | requestReroot | tick => exact keeps_of_prepares s rfl

end Session

end BrokerForest
