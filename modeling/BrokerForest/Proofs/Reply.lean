import BrokerForest.Proofs.ChildrenNews
import BrokerForest.Proofs.LinkBalance
/-!
# Reply: one answer to each request

A request is looked at in several ways, one after another, and may change the rank of the node
that is asked, its hint and its neighbors, and what its children are told.  But only one answer
is given, the first for which there is a ground, and either all of this happens or nothing of it:
if the answer is no acceptance, or the acceptance does not go out, the node is as it was but for
its hint, and no child hears of anything.

Main statements:

* `Node.grounds` — the kinds of answers, each with what it takes for it;
* `Node.judge_cases` — a verdict is of the first kind that applies;
* `Session.Answers` — one response is handed over, and besides a rule is kept;
* `Session.Welcomes`, `Session.Spares` — all of it, or nothing;
* `Session.examine_of_neighbor`, `Session.examine_of_new` — the two sorts of requesters;
* **`Session.examine_answers_once`** — a request has one answer, and all of it happens or nothing.
-/

namespace BrokerForest

/-- The response that an effect hands over, to whom, and whether it goes out. -/
def Effect.reply? : Effect → Option (Peer × Response × Bool)
  | .sent peer (.response response) _ delivered => some (peer, response, delivered)
  | _ => none

/-- The kinds of answers to a request of one that is no neighbor, in their order, each with
whether it applies. -/
def Node.grounds (n : Node) (request : Request) (ws : Words) : List (String × Bool) :=
  let degree := n.position.neighbors.degree
  [("NOT_DEPTH_OR_COLOR", (n.position.admission request.rank ws).1.isNone),
    ("BUSY", n.slot.isBusy && !n.position.rank.color.canJoin request.rank.color),
    ("NOT_MAX_DEGREE", n.settings.maxDegree ≤ degree && !request.force.maxDegree),
    ("NOT_MIN_DEGREE", degree < n.settings.minDegree && !request.force.minDegree),
    ("CONNECTION_ACCEPTED", true)]

/-- The first kind of answer that applies. -/
def Node.ground (n : Node) (request : Request) (ws : Words) : Option String :=
  ((n.grounds request ws).find? Prod.snd).map Prod.fst

/-- The rule to give no answer. -/
def Conduct.mute : Conduct where
  opens _ := True
  sends _ message _ := ∀ response, message ≠ .response response

/-- The rule to send nothing but recommendations. -/
def Conduct.terse : Conduct where
  opens _ := True
  sends _ message _ := ∃ candidate, message = .goodCandidate candidate

/-- What keeps the rule hands over no response. -/
theorem Conduct.reply?_of_mute {e : Effect} (h : Conduct.mute.Allows e) : e.reply? = none := by
  cases e with
  | sent peer message traffic delivered =>
      cases message with
      | response response => exact absurd rfl (h response)
      | request | siblingDead | update | newSibling | candidates | goodCandidate
      | noLongerChild => rfl
  | opened | closed | noted | paused | ended => rfl

/-- Whoever only recommends gives no answer. -/
theorem Conduct.mute_of_terse {e : Effect} (h : Conduct.terse.Allows e) :
    Conduct.mute.Allows e := by
  cases e with
  | sent peer message traffic delivered =>
      obtain ⟨candidate, rfl⟩ := h
      exact fun _ => Message.noConfusion
  | opened | closed | noted | paused | ended => trivial

/-! ## The verdict -/

/-- Another color is taken if and only if the color changes. -/
theorem Position.adopts_iff {p : Position} {requester : Rank} {ws ws' : Words} {a : Admission}
    (h : p.admission requester ws = (some a, ws')) :
    a.adopts = true ↔ (a.rank p.rank).color ≠ p.rank.color := by
  rcases admission_cases h with ⟨-, hjoin, rfl⟩ | ⟨-, hkin⟩ | ⟨-, rfl⟩
  · have hother : requester.color ≠ p.rank.color := by
      intro heq
      rw [heq, Color.canJoin_irrefl] at hjoin
      cases hjoin
    simp [Admission.adopts, Admission.rank, hother]
  · rcases admissionOfKin_cases hkin with ⟨rfl, -⟩ | ⟨depth, rfl, -⟩ <;>
      simp [Admission.adopts, Admission.rank]
  · simp [Admission.adopts, Admission.rank]

/-- Of one that is no neighbor a request is refused, or it is accepted, and this is the first
kind of answer that applies. -/
theorem Node.judge_cases {n : Node} {requester : Peer}
    (hnew : n.position.neighbors.contains requester = false) (request : Request) (ws : Words) :
    (∃ refusal tip, (n.judge requester request ws).1 = .refuse refusal tip ∧
        ∀ rank, n.ground request ws = some (Response.subject ⟨rank, .refused refusal⟩)) ∨
      ∃ admission ws', n.judge requester request ws = (.accept admission, ws') ∧
        n.ground request ws = some "CONNECTION_ACCEPTED" := by
  unfold judge ground grounds
  rw [hnew, if_neg Bool.false_ne_true]
  rcases hadmission : n.position.admission request.rank ws with ⟨_ | admission, ws'⟩
  · left
    unfold refuseRank
    dsimp only
    split <;> exact ⟨_, _, rfl, fun _ => rfl⟩
  · unfold refuseDegree
    dsimp only
    by_cases hbusy : (n.slot.isBusy && !n.position.rank.color.canJoin request.rank.color) = true
    · rw [if_pos hbusy]
      exact Or.inl ⟨_, _, rfl, fun _ => by simp [hbusy, Response.subject]⟩
    by_cases hmany : (decide (n.settings.maxDegree ≤ n.position.neighbors.degree) &&
        !request.force.maxDegree) = true
    · rw [if_neg hbusy, if_pos hmany]
      exact Or.inl ⟨_, _, rfl, fun _ => by simp [hbusy, hmany, Response.subject]⟩
    by_cases hfew : (decide (n.position.neighbors.degree < n.settings.minDegree) &&
        !request.force.minDegree) = true
    · rw [if_neg hbusy, if_neg hmany, if_pos hfew]
      exact Or.inl ⟨_, _, rfl, fun _ => by simp [hbusy, hmany, hfew, Response.subject]⟩
    · rw [if_neg hbusy, if_neg hmany, if_neg hfew]
      exact Or.inr ⟨admission, ws', rfl, by simp [hbusy, hmany, hfew]⟩

namespace Session

variable {σ : Type} {s t u : Session σ} {rule : Conduct} {requester : Peer} {response : Response}
  {delivered : Bool}

/-! ## One response -/

/-- Between two sessions one response is handed over, and all that is done before and after it
keeps to a rule. -/
def Answers (rule : Conduct) (s t : Session σ) (requester : Peer) (response : Response)
    (delivered : Bool) : Prop :=
  ∃ before after,
    s.since t = before ++ .sent requester (.response response) .control delivered :: after ∧
      ∀ e ∈ before ++ after, rule.Allows e

/-- If the rule is to give no answer, the response is the only one. -/
theorem Answers.replies (h : s.Answers rule t requester response delivered)
    (hmute : ∀ e, rule.Allows e → Conduct.mute.Allows e) :
    (s.since t).filterMap Effect.reply? = [(requester, response, delivered)] := by
  obtain ⟨before, after, hsince, hrule⟩ := h
  have hnone : ∀ es : List Effect, (∀ e ∈ es, rule.Allows e) →
      es.filterMap Effect.reply? = [] := fun es hes =>
    List.filterMap_eq_nil_iff.2 fun e he => Conduct.reply?_of_mute (hmute e (hes e he))
  obtain ⟨hbefore, hafter⟩ := List.forall_mem_append.1 hrule
  rw [hsince, List.filterMap_append, List.filterMap_cons, hnone before hbefore,
    hnone after hafter]
  rfl

variable [Transport σ]

/-- A response that is sent between two pieces of work that keep to a rule. -/
theorem answers_of_keeps (hbefore : s.Keeps rule u)
    (hafter : (u.send requester (.response response) .control).2.Keeps rule t) :
    s.Answers rule t requester response
      (u.send requester (.response response) .control).1 := by
  obtain ⟨before, htrace, -, hrule⟩ := hbefore
  obtain ⟨after, htrace', -, hrule'⟩ := hafter
  refine ⟨before, after, since_of_trace_eq ?_, List.forall_mem_append.2 ⟨hrule, hrule'⟩⟩
  rw [htrace']
  change (u.trace ++ [_]) ++ after = _
  rw [htrace, List.append_assoc, List.append_assoc]
  rfl

/-- A refusal is an answer, whatever recommendation follows it. -/
theorem answers_refuse (s : Session σ) (requester : Peer) (refusal : Refusal)
    (h : (s.refuse requester refusal).Keeps rule t) :
    ∃ delivered, s.Answers rule t requester ⟨s.node.position.rank, .refused refusal⟩ delivered := by
  exact ⟨_, answers_of_keeps (keeps_note s (.rejectChild requester.id refusal.kind)) h⟩

/-- What a node sends between two sessions it has sent in the end, and not before. -/
theorem posts_since (h : s.Keeps rule t) {posts : List (Peer × Message)}
    (hposts : t.posts = s.posts ++ posts) : (s.since t).filterMap Effect.post? = posts := by
  obtain ⟨later, htrace, -⟩ := h
  rw [since_of_trace_eq htrace]
  rw [Session.posts, htrace, List.filterMap_append] at hposts
  exact List.append_cancel_left hposts

/-! ## All or nothing -/

/-- A requester is beside the node, at the rank that the response tells, and each child that was
there before is told of it, and then of another color; nobody is told of anything else. -/
structure Welcomes (s t : Session σ) (requester : Peer) (response : Response) : Prop where
  node : t.node = { s.node with
    position := { s.node.position with
      rank := response.rank
      neighbors := s.node.position.neighbors.add requester } }
  beside : t.node.position.neighbors.contains requester = true
  posts : (s.since t).filterMap Effect.post? = (requester, .response response) ::
    (s.node.position.children.map fun child => (child, .newSibling
      ⟨t.node.position.rank, s.node.chain, s.node.position.children,
        s.node.position.global.snapshot, requester⟩)) ++
    if t.node.position.rank.color = s.node.position.rank.color then []
    else s.node.position.children.map fun child => (child, .update
      ⟨t.node.position.rank, s.node.chain, s.node.settings.hops⟩)

/-- A node is as it was, but that the requester may be its hint, and no child is told of a
sibling or of a rank. -/
structure Spares (s t : Session σ) (requester : Peer) : Prop where
  node : t.node = s.node ∨ t.node = { s.node with
    position := { s.node.position with global := s.node.position.global.setHint requester } }
  posts : ∀ post ∈ (s.since t).filterMap Effect.post?,
    post.2.isFamily = false ∧ post.2.isUpdate = false

omit [Transport σ] in
/-- Besides the response only recommendations are sent, so no child is told of anything. -/
theorem Answers.silent (h : s.Answers .terse t requester response delivered) :
    ∀ post ∈ (s.since t).filterMap Effect.post?,
      post.2.isFamily = false ∧ post.2.isUpdate = false := by
  obtain ⟨before, after, hsince, hrule⟩ := h
  intro post hpost
  obtain ⟨e, he, hsent⟩ := List.mem_filterMap.1 hpost
  rw [hsince, List.mem_append, List.mem_cons] at he
  have hterse : e = .sent requester (.response response) .control delivered ∨
      Conduct.terse.Allows e := by
    rcases he with he | he | he
    · exact Or.inr (hrule e (List.mem_append_left _ he))
    · exact Or.inl he
    · exact Or.inr (hrule e (List.mem_append_right _ he))
  rcases hterse with rfl | hterse
  · cases hsent
    exact ⟨rfl, rfl⟩
  · cases e with
    | sent peer message traffic delivered =>
        cases hsent
        obtain ⟨candidate, rfl⟩ := hterse
        exact ⟨rfl, rfl⟩
    | opened | closed | noted | paused | ended => cases hsent

/-- A requester that is refused has this one answer, and the node is spared. -/
theorem spares_refuse (s : Session σ) (requester : Peer) (refusal : Refusal) (tip : Tip) :
    (∃ delivered, s.Answers .terse (s.pronounce requester (.refuse refusal tip)) requester
        ⟨s.node.position.rank, .refused refusal⟩ delivered) ∧
      ((s.pronounce requester (.refuse refusal tip)).node = s.node ∨
        (s.pronounce requester (.refuse refusal tip)).node = { s.node with
          position := { s.node.position with
            global := s.node.position.global.setHint requester } }) := by
  cases tip with
  | none => exact ⟨answers_refuse s requester refusal (.refl _), Or.inl (node_refuse ..)⟩
  | keep =>
      refine ⟨answers_refuse (s.withPosition { s.node.position with
        global := s.node.position.global.setHint requester }) requester refusal (.refl _), ?_⟩
      exact Or.inr (node_refuse ..)
  | pass root =>
      refine ⟨answers_refuse s requester refusal ?_, Or.inl (by simp [pronounce])⟩
      exact keeps_sendTransient _ (fun _ _ => trivial) fun _ _ => ⟨requester, rfl⟩

/-- The answer to a requester that is admitted. -/
def offered (s : Session σ) (admission : Admission) : Response :=
  ⟨admission.rank s.node.position.rank, .accepted ⟨s.node.chain, s.node.position.children⟩⟩

/-- An acceptance that does not go out is the one answer, and the node is spared. -/
theorem spares_accept {admission : Admission}
    (hsent : (s.send requester (s.node.offer admission) .control).1 = false) :
    s.Answers .terse (s.accept requester admission) requester (s.offered admission) false ∧
      (s.accept requester admission).node = s.node := by
  rw [accept_of_not_sent hsent]
  refine ⟨?_, rfl⟩
  rw [← hsent]
  exact answers_of_keeps (.refl s) (.refl _)

/-- An acceptance that goes out is the one answer, and the requester is welcomed. -/
theorem welcomes_accept {request : Request} {admission : Admission} {ws ws' : Words}
    (hadmission : s.node.position.admission request.rank ws = (some admission, ws'))
    (hsent : (s.send requester (s.node.offer admission) .control).1 = true) :
    s.Answers .mute (s.accept requester admission) requester (s.offered admission) true ∧
      s.Welcomes (s.accept requester admission) requester (s.offered admission) := by
  have hfirst : (s.send requester (s.node.offer admission) .control).2.posts =
      s.posts ++ [(requester, s.node.offer admission)] :=
    posts_tell s requester (s.node.offer admission)
  have hsend : s.Keeps .free (s.send requester (s.node.offer admission) .control).2 :=
    keeps_send s trivial
  have hwelcome : ∀ {rule : Conduct}, (∀ url, rule.opens url) →
      (∀ peer news delivered, rule.sends peer (.newSibling news) delivered) →
      (∀ peer news delivered, rule.sends peer (.update news) delivered) →
      (s.send requester (s.node.offer admission) .control).2.Keeps rule
        (s.accept requester admission) := by
    intro rule hopens hnews hupdate
    rw [accept_of_sent hsent]
    exact keeps_welcome _ (fun url _ => hopens url) (fun _ _ _ => hnews _ _ _)
      fun _ _ _ _ => hupdate _ _ _
  have hnode : (s.accept requester admission).node = { s.node with
      position := s.node.position.welcome requester admission } := by
    rw [accept_of_sent hsent, node_welcome]
    rfl
  refine ⟨?_, hnode, ?_, ?_⟩
  · rw [← hsent]
    exact answers_of_keeps (.refl s) (hwelcome (fun _ => trivial)
      (fun _ _ _ _ => Message.noConfusion) fun _ _ _ _ => Message.noConfusion)
  · rw [hnode]
    exact s.node.position.contains_add_self requester
  · have hkeeps : s.Keeps .free (s.accept requester admission) :=
      hsend.trans (hwelcome (fun _ => trivial) (fun _ _ _ => trivial) fun _ _ _ => trivial)
    have hcolor := Position.adopts_iff hadmission
    refine posts_since hkeeps ?_
    rw [hnode, accept_of_sent hsent, posts_welcome, hfirst, List.append_assoc, List.append_assoc]
    cases hadopts : admission.adopts with
    | true =>
        rw [if_pos rfl, if_neg (by simpa [Position.welcome] using hcolor.1 hadopts)]
        rfl
    | false =>
        rw [if_neg Bool.false_ne_true, if_pos (by simpa [Position.welcome, hadopts] using hcolor)]
        rfl

/-- Nothing comes of a request of a neighbor. -/
theorem examine_of_neighbor {s : Session σ}
    (h : s.node.position.neighbors.contains requester = true) (request : Request) :
    s.examine requester request = s := by
  unfold examine Node.judge
  rw [if_pos h]
  rfl

/-- A request of one that is no neighbor has one answer, of the first kind that applies.  An
acceptance tells the rank of the admission; and all of it happens, or nothing. -/
theorem examine_of_new {s : Session σ}
    (hnew : s.node.position.neighbors.contains requester = false) (request : Request) :
    ∃ response delivered,
      (s.since (s.examine requester request)).filterMap Effect.reply? =
          [(requester, response, delivered)] ∧
        s.node.ground request s.words = some response.subject ∧
        (response.isAcceptance = true → ∃ admission ws,
          s.node.judge requester request s.words = (.accept admission, ws) ∧
            response.rank = admission.rank s.node.position.rank) ∧
        if response.isAcceptance && delivered then
          s.Welcomes (s.examine requester request) requester response
        else s.Spares (s.examine requester request) requester := by
  rcases Node.judge_cases hnew request s.words with
    ⟨refusal, tip, hjudge, hground⟩ | ⟨admission, ws, hjudge, hground⟩
  · rw [examine_eq, hjudge]
    generalize (s.node.judge requester request s.words).2 = ws
    obtain ⟨⟨delivered, hanswers⟩, hnode⟩ := spares_refuse (s.withWords ws) requester refusal tip
    have hanswers : s.Answers .terse _ requester _ delivered := hanswers
    have hrefused : (⟨s.node.position.rank, .refused refusal⟩ : Response).isAcceptance ≠ true :=
      Bool.false_ne_true
    exact ⟨_, delivered, hanswers.replies fun _ => Conduct.mute_of_terse, hground _,
      fun haccepted => absurd haccepted hrefused, hnode, hanswers.silent⟩
  · obtain ⟨-, hadmission, -⟩ := Node.admission_of_judge hjudge
    have hexamine : s.examine requester request =
        (s.withWords ws).accept requester admission := by
      rw [examine_eq, hjudge]
      rfl
    rw [hexamine]
    cases hsent : ((s.withWords ws).send requester (s.node.offer admission) .control).1 with
    | true =>
        obtain ⟨hanswers, hwelcomes⟩ := welcomes_accept (s := s.withWords ws) hadmission hsent
        have htaken : (((s.withWords ws).offered admission).isAcceptance && true) = true := rfl
        refine ⟨_, true, Answers.replies (s := s) hanswers fun _ => id, hground,
          fun _ => ⟨admission, ws, hjudge, rfl⟩, ?_⟩
        rw [if_pos htaken]
        exact ⟨hwelcomes.node, hwelcomes.beside, hwelcomes.posts⟩
    | false =>
        obtain ⟨hanswers, hnode⟩ := spares_accept (s := s.withWords ws) hsent
        exact ⟨_, false, Answers.replies (s := s) hanswers fun _ => Conduct.mute_of_terse, hground,
          fun _ => ⟨admission, ws, hjudge, rfl⟩, Or.inl hnode, Answers.silent (s := s) hanswers⟩

/-- A request has one answer, of the first kind that applies, and all of it happens or nothing,
whatever becomes of what is sent; one of a neighbor has no answer, and nothing happens. -/
theorem examine_answers_once (s : Session σ) (requester : Peer) (request : Request) :
    if s.node.position.neighbors.contains requester then s.examine requester request = s
    else ∃ response delivered,
      (s.since (s.examine requester request)).filterMap Effect.reply? =
          [(requester, response, delivered)] ∧
        s.node.ground request s.words = some response.subject ∧
        if response.isAcceptance && delivered then
          s.Welcomes (s.examine requester request) requester response
        else s.Spares (s.examine requester request) requester := by
  split
  · rename_i hneighbor
    exact examine_of_neighbor hneighbor request
  · rename_i hother
    obtain ⟨response, delivered, hreplies, hground, -, houtcome⟩ :=
      examine_of_new (by simpa using hother) request
    exact ⟨response, delivered, hreplies, hground, houtcome⟩

end Session

end BrokerForest
