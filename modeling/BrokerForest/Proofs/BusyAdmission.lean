import BrokerForest.Proofs.Admission
import BrokerForest.Proofs.Reply
/-!
# Admission while busy: what a busy node still accepts

A node whose slot is held has asked somebody to be its father, or is about to, and the rank that
it told may not change then.  It refuses requests as busy, but not those of a color that its own
can join.  By the color alone there are three ways to be accepted: a colorless root takes the
color of the request, a node of the same color moves or stays, and a node of a color that the
request's can join stays.  No color can join itself, and no two colors can join each other, so
only the first way is left open: the node yields to another tree, and nobody is put in beneath
it.

Main statements:

* `Position.admission_adopt` — whose color is taken, and by whom;
* `Node.yields_of_judge` — a busy node accepts only what it yields to;
* `Session.accepted_of_sent`, `Session.stays_of_examine` — one request of a busy node;
* `Session.Beset` — requests come one after another while the slot is held;
* **`Session.yields_only`** — a busy node only yields, and one that cannot yield stays as it is.
-/

namespace BrokerForest

/-! ## One verdict -/

/-- Only a colorless root takes a color, and only one that has tokens. -/
theorem Position.admission_adopt {p : Position} {requester : Rank} {ws ws' : Words}
    {a : Admission} (h : p.admission requester ws = (some a, ws'))
    (hjoin : p.rank.color.canJoin requester.color = true) :
    p.father = none ∧ p.rank.color.isColorless = true ∧ requester.color.isColorless = false ∧
      ∃ depth, a = .adopt requester.color depth := by
  unfold admission at h
  split at h
  · rename_i hc
    cases h
    have hc : (p.father = none ∧ p.rank.color.isColorless = true) ∧
        requester.color.isColorless = false := by simpa [isRoot] using hc
    exact ⟨hc.1.1, hc.1.2, hc.2, _, rfl⟩
  · split at h
    · rename_i hsame
      rw [hsame, Color.canJoin_irrefl] at hjoin
      cases hjoin
    · rw [Color.canJoin_asymm hjoin, if_neg Bool.false_ne_true] at h
      cases h

/-- A busy node accepts a request only if it takes its color, which it has not had. -/
theorem Node.yields_of_judge {n : Node} (busy : n.slot.isBusy = true) {requester : Peer}
    {request : Request} {ws ws' : Words} {a : Admission}
    (h : n.judge requester request ws = (.accept a, ws')) :
    n.position.father = none ∧ n.position.rank.color.isColorless = true ∧
      request.rank.color.isColorless = false ∧
        ∃ depth, a = .adopt request.rank.color depth := by
  obtain ⟨-, hadmission, hdegree⟩ := Node.admission_of_judge h
  refine Position.admission_adopt hadmission ?_
  unfold refuseDegree at hdegree
  rw [busy, Bool.true_and] at hdegree
  cases hjoin : n.position.rank.color.canJoin request.rank.color with
  | true => rfl
  | false => simp [hjoin] at hdegree

namespace Session

variable {σ : Type} [Transport σ]

/-! ## One request -/

/-- An acceptance that a request is answered with tells the rank of an admission, and if it goes
out this is the node's own from then on. -/
theorem accepted_of_sent {s : Session σ} {requester peer : Peer} {request : Request}
    {response : Response} {traffic : TrafficClass} {delivered : Bool}
    (h : .sent peer (.response response) traffic delivered ∈
      s.since (s.examine requester request))
    (haccepted : response.isAcceptance = true) :
    (∃ a ws, s.node.judge requester request s.words = (.accept a, ws) ∧
        response.rank = a.rank s.node.position.rank) ∧
      (delivered = true → (s.examine requester request).node.position.rank = response.rank) := by
  have hreply : (peer, response, delivered) ∈
      (s.since (s.examine requester request)).filterMap Effect.reply? :=
    List.mem_filterMap.2 ⟨_, h, rfl⟩
  cases hneighbor : s.node.position.neighbors.contains requester with
  | true =>
      rw [examine_of_neighbor hneighbor] at hreply
      simp [since] at hreply
  | false =>
      obtain ⟨answer, sent, hreplies, -, hadmission, houtcome⟩ := examine_of_new hneighbor request
      rw [hreplies, List.mem_singleton] at hreply
      cases hreply
      refine ⟨hadmission haccepted, ?_⟩
      rintro rfl
      rw [haccepted, Bool.and_true, if_pos rfl] at houtcome
      rw [houtcome.node]

/-- A busy node that cannot yield keeps its rank and its father, whoever asks it. -/
theorem stays_of_examine {s : Session σ} (busy : s.node.slot.isBusy = true)
    (fixed : s.node.position.rank.color.isColorless = false ∨
      s.node.position.father.isSome = true) (requester : Peer) (request : Request) :
    (s.examine requester request).node.position.rank = s.node.position.rank ∧
      (s.examine requester request).node.position.father = s.node.position.father := by
  have hshift := (turns_examine s requester request).shift
  generalize (s.examine requester request).node.position = p at hshift ⊢
  cases hshift with
  | stay | keepHint => exact ⟨rfl, rfl⟩
  | welcome verdict =>
      obtain ⟨hroot, hcolorless, -⟩ := Node.yields_of_judge busy verdict
      rw [hroot, hcolorless] at fixed
      simp at fixed
  | forget parts | lose parts => exact parts.elim

/-! ## Requests while the slot is held -/

/-- Requests come one after another while the slot is held, and what is seen of the node while it
looks at them.  Whatever else happens in the meantime leaves the slot held, and the rank and the
father as they are. -/
inductive Beset (start : Session σ) : Session σ → List Effect → Prop where
  | begin (busy : start.node.slot.isBusy = true) : Beset start start []
  | meanwhile {s t : Session σ} {seen : List Effect} (beset : Beset start s seen)
      (busy : t.node.slot.isBusy = true)
      (rank : t.node.position.rank = s.node.position.rank)
      (father : t.node.position.father = s.node.position.father) : Beset start t seen
  | request {s : Session σ} {seen : List Effect} (beset : Beset start s seen) (requester : Peer)
      (request : Request) :
      Beset start (s.examine requester request) (seen ++ s.since (s.examine requester request))

/-- What a busy node hands out an acceptance for. -/
theorem yields_of_accepted {s : Session σ} (busy : s.node.slot.isBusy = true)
    {requester peer : Peer} {request : Request} {response : Response} {traffic : TrafficClass}
    {delivered : Bool}
    (h : .sent peer (.response response) traffic delivered ∈
      s.since (s.examine requester request))
    (haccepted : response.isAcceptance = true) :
    s.node.position.father = none ∧ s.node.position.rank.color.isColorless = true ∧
      request.rank.color.isColorless = false ∧ response.rank.color = request.rank.color := by
  obtain ⟨⟨a, ws, hjudge, hrank⟩, -⟩ := accepted_of_sent h haccepted
  obtain ⟨hroot, hcolorless, hcolored, depth, rfl⟩ := Node.yields_of_judge busy hjudge
  exact ⟨hroot, hcolorless, hcolored, by rw [hrank]; rfl⟩

/-- A node that is beset and cannot yield accepts nobody, and keeps its rank and its father. -/
theorem Beset.stays {s t : Session σ} {seen : List Effect} (h : s.Beset t seen)
    (fixed : s.node.position.rank.color.isColorless = false ∨
      s.node.position.father.isSome = true) :
    t.node.slot.isBusy = true ∧ t.node.position.rank = s.node.position.rank ∧
      t.node.position.father = s.node.position.father ∧
        ∀ peer response traffic delivered,
          .sent peer (.response response) traffic delivered ∈ seen →
            response.isAcceptance = false := by
  induction h with
  | begin busy => exact ⟨busy, rfl, rfl, by simp⟩
  | meanwhile _ busy rank father ih =>
      obtain ⟨-, hrank, hfather, hseen⟩ := ih
      exact ⟨busy, rank.trans hrank, father.trans hfather, hseen⟩
  | @request u seen _ requester request ih =>
      obtain ⟨busy, hrank, hfather, hseen⟩ := ih
      have fixed' := fixed
      rw [← hrank, ← hfather] at fixed'
      obtain ⟨hrank', hfather'⟩ := stays_of_examine busy fixed' requester request
      refine ⟨?_, hrank'.trans hrank, hfather'.trans hfather, ?_⟩
      · rw [(meanwhile_examine u requester request).2]
        exact busy
      · intro peer response traffic delivered hmem
        rcases List.mem_append.1 hmem with hmem | hmem
        · exact hseen peer response traffic delivered hmem
        · rw [Bool.eq_false_iff]
          intro haccepted
          obtain ⟨hroot, hcolorless, -⟩ := yields_of_accepted busy hmem haccepted
          rw [hroot, hcolorless] at fixed'
          simp at fixed'

/-- **While the slot is held a request is accepted only by a colorless root, and only one of a
color, which the root takes; a node that has a color or a father accepts none, however many come,
and keeps its color and its depth.** -/
theorem yields_only (s : Session σ) (busy : s.node.slot.isBusy = true) :
    (∀ requester request peer response traffic delivered,
      .sent peer (.response response) traffic delivered ∈ s.since (s.examine requester request) →
        response.isAcceptance = true →
          s.node.position.father = none ∧ s.node.position.rank.color.isColorless = true ∧
            request.rank.color.isColorless = false ∧ response.rank.color = request.rank.color ∧
              (delivered = true →
                (s.examine requester request).node.position.rank.color = request.rank.color)) ∧
      (s.node.position.rank.color.isColorless = false ∨ s.node.position.father.isSome = true →
        ∀ t seen, s.Beset t seen →
          t.node.position.rank = s.node.position.rank ∧
            ∀ peer response traffic delivered,
              .sent peer (.response response) traffic delivered ∈ seen →
                response.isAcceptance = false) := by
  refine ⟨?_, ?_⟩
  · intro requester request peer response traffic delivered hmem haccepted
    obtain ⟨hroot, hcolorless, hcolored, hcolor⟩ := yields_of_accepted busy hmem haccepted
    refine ⟨hroot, hcolorless, hcolored, hcolor, ?_⟩
    rintro rfl
    rw [(accepted_of_sent hmem haccepted).2 rfl, hcolor]
  · intro fixed t seen hbeset
    obtain ⟨-, hrank, -, hseen⟩ := hbeset.stays fixed
    exact ⟨hrank, hseen⟩

end Session

namespace Rehearsal

/-- A colorless root whose slot is held takes the color of its first suitor, and turns the second
down, although it is of this color too and deeper. -/
theorem yields_only_of_suitors :
    let s := (colorlessAt (broker 1 "x") 5.0 none none).hold .outsider
    let first : Request := ⟨⟨⟨["y"]⟩, ⟨7.0⟩⟩, .none⟩
    let second : Request := ⟨⟨⟨["y"]⟩, ⟨20.0⟩⟩, .none⟩
    let t := s.examine (broker 2 "y") first
    let u := t.examine (broker 3 "z") second
    s.node.slot.isBusy = true ∧ t.node.slot.isBusy = true ∧
      t.node.position.neighbors.contains (broker 2 "y") = true ∧
        t.node.position.rank.color = ⟨["y"]⟩ ∧ u.node.position.rank = t.node.position.rank := by
  intro s first second t u
  have hyields := s.yields_only rfl
  have haccepted : .sent (broker 2 "y")
      (.response ⟨t.node.position.rank, .accepted ⟨[], []⟩⟩) .control true ∈ s.since t := by
    decide +kernel
  have hcolor := (hyields.1 (broker 2 "y") first _ _ _ true haccepted rfl).2.2.2.2 rfl
  have hbusy : t.node.slot.isBusy = true := by decide +kernel
  have hbeset : t.Beset u ([] ++ t.since u) :=
    .request (.begin hbusy) (broker 3 "z") second
  have hstays := (t.yields_only hbusy).2 (Or.inl (by rw [hcolor]; rfl)) u _ hbeset
  exact ⟨rfl, hbusy, by decide +kernel, hcolor, hstays.1⟩

end Rehearsal

end BrokerForest
