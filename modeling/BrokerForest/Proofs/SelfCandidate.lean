import BrokerForest.Proofs.Pools
import BrokerForest.Proofs.Shifts
/-!
# Whether a node is a candidate of its own

Candidates come to a node from many sides: with the father's news, with gossip, as a hint, in
a refusal, and out of its own neighborhood when it becomes the root of a new tree.  Any of
them may be told of the node itself, and each looks out for that on its own.

One does not.  A node that asks the peer at a URL to join its tree writes down whom the
refusal names, whoever that is; a search that is refused in the same words does not take the
node's own name.  So a node is never its own hint, and it comes into its own pool only by
being sent back to itself in this one way.

Main statements:

* `Node.Misled` — a node that is to join a tree is told to ask itself;
* `Node.Shift.hint_other`, `Node.Shift.pool_other` — what each way of moving leaves true;
* **`Life.not_self_among_candidates`** — a node caches itself only after it was misled;
* `Life.exists_self_among_candidates` — after that it does.
-/

namespace BrokerForest

/-- Whether an act is to experience a message from a peer. -/
def Act.comesFrom (peer : Peer) : Act → Bool
  | event (.message origin _) => origin.same peer
  | _ => false

/-- No message of an episode comes from the node itself. -/
def Episode.FromOthers (e : Episode) : Prop := e.act.comesFrom e.before.self = false

instance (e : Episode) : Decidable e.FromOthers := inferInstanceAs (Decidable (_ = false))

/-- The wait for an answer ends, and the peer whose tree the node was to join has sent it to
itself. -/
def Node.Misled (n : Node) (a : Act) : Prop :=
  a = .resume ∧ ∃ negotiation response hint,
    n.slot.holder = some (.negotiating negotiation) ∧ negotiation.purpose = .join ∧
      n.mailbox.collect = .ok response ∧
        response.answer = .refused (.depthOrColor (some hint)) ∧ hint.same n.self = true

/-! ## Each way of moving -/

namespace Position

variable {p : Position} {self : Peer}

/-- A node does not hear of itself. -/
theorem hear_other (h : p.global.pool.All fun q => q.id ≠ self.id) (peers : List Peer)
    (excluded : Peer → Bool) :
    (p.hear self peers excluded).global.pool.All fun q => q.id ≠ self.id := by
  refine Pool.all_addAll _ h fun q hq hid => ?_
  have hkept := (List.mem_filter.1 hq).2
  have hsame : q.same self = true := Peer.same_iff.2 hid
  simp [knows, hsame] at hkept

/-- The root of a new tree does not take itself from its former neighborhood. -/
theorem newTree_other (h : p.global.pool.All fun q => q.id ≠ self.id) (ws : Words) :
    (p.newTree self ws).1.global.pool.All fun q => q.id ≠ self.id := by
  refine Pool.all_addAll _ h fun q hq hid => ?_
  have hkept := (List.mem_filter.1 hq).2
  simp [Peer.same_iff.2 hid.symm] at hkept

theorem global_attach (p : Position) (self father : Peer) (rank : Rank) (acceptance : Acceptance)
    (ws : Words) :
    (p.attach self father rank acceptance ws).1.global = p.global.remove father := by
  obtain ⟨own, heq⟩ := p.attach_eq self father rank acceptance ws
  rw [heq]

end Position

namespace Node

variable {n : Node} {a : Act} {p : Position}

/-- Wherever an act takes a node, it is not its own hint unless it hears from itself. -/
theorem Shift.hint_other (h : n.Shift a p) (hothers : a.comesFrom n.self = false)
    (hhint : ∀ q, n.position.global.hint = some q → q.id ≠ n.self.id) :
    ∀ q, p.global.hint = some q → q.id ≠ n.self.id := by
  cases h with
  | stay | welcome | hear | bury | greet | serve | forget | forsake | lose | found | learn =>
      exact hhint
  | @keepHint requester request =>
      intro q hq
      cases hq
      exact fun hid => by simp [Act.comesFrom, Peer.same_iff.2 hid] at hothers
  | takeHint other =>
      intro q hq
      cases hq
      exact fun hid => by simp [Peer.same_iff.2 hid] at other
  | heed father =>
      rw [(n.position.heed_frame ..).2.2.2]
      exact hhint
  | fork root =>
      intro q hq
      cases hq
  | attach =>
      intro q hq
      rw [Position.global_attach, Global.remove] at hq
      dsimp only at hq
      split at hq
      · cases hq
      · exact hhint q hq

/-- Wherever an act takes a node, it is not in its own pool unless it is misled. -/
theorem Shift.pool_other (h : n.Shift a p)
    (hpool : n.position.global.pool.All fun q => q.id ≠ n.self.id) :
    (p.global.pool.All fun q => q.id ≠ n.self.id) ∨ n.Misled a := by
  cases h with
  | stay | welcome | keepHint | takeHint | serve | forget | forsake | lose | fork =>
      exact Or.inl hpool
  | hear | bury | greet => exact Or.inl (Position.hear_other (by exact hpool) _ _)
  | heed father =>
      rw [(n.position.heed_frame ..).2.2.2]
      exact Or.inl hpool
  | found => exact Or.inl (Position.newTree_other hpool _)
  | @learn negotiation response hint negotiating collected refused other =>
      cases hself : hint.same n.self with
      | false =>
          refine Or.inl (Pool.all_add _ hpool fun hid => ?_)
          rw [Peer.same_iff.2 hid] at hself
          cases hself
      | true =>
          have hjoin : negotiation.purpose = .join := other.resolve_left (by simp [hself])
          exact Or.inr ⟨rfl, negotiation, response, hint, negotiating, hjoin, collected, refused,
            hself⟩
  | attach =>
      rw [Position.global_attach]
      exact Or.inl (Pool.all_remove _ hpool)

end Node

/-! ## All that can happen to a node -/

/-- **A node that no message reaches from itself is never its own hint, and it is in its own
pool only if, asked to join a tree, it was once sent back to itself.** -/
theorem Life.not_self_among_candidates {history : List Episode} {n : Node}
    (life : Life Episode.FromOthers history n) :
    n.self.isThe n.position.global.hint = false ∧
      (n.self.among n.position.global.snapshot = true →
        ∃ e ∈ history, e.before.Misled e.act) := by
  have hmodest : (∀ q, n.position.global.hint = some q → q.id ≠ n.self.id) ∧
      ((n.position.global.pool.All fun q => q.id ≠ n.self.id) ∨
        ∃ e ∈ history, e.before.Misled e.act) := by
    induction life with
    | birth settings self ws =>
        exact ⟨fun q hq => (by cases hq), Or.inl Pool.all_empty⟩
    | @act history n a σ _ life outside ws possible meets ih =>
        obtain ⟨hself, -, hshift, -, -⟩ := Session.turns_run ⟨n, outside, ws, []⟩ possible
        obtain ⟨hhint, hpool⟩ := ih
        rw [hself]
        refine ⟨hshift.hint_other meets hhint, ?_⟩
        rcases hpool with hpool | ⟨e, he, hmisled⟩
        · exact (hshift.pool_other hpool).imp_right fun hmisled =>
            ⟨_, List.mem_append_right _ (List.mem_singleton.2 rfl), hmisled⟩
        · exact Or.inr ⟨e, List.mem_append_left _ he, hmisled⟩
  obtain ⟨hhint, hpool⟩ := hmodest
  constructor
  · rw [Bool.eq_false_iff, ne_eq, Peer.isThe_iff]
    rintro ⟨q, hq, hid⟩
    exact hhint q hq hid.symm
  · intro hamong
    obtain ⟨q, hq, hid⟩ := Peer.among_iff.1 hamong
    exact hpool.resolve_left fun hall => hall q hq hid.symm

namespace Rehearsal

/-- A broker is told of itself in gossip and as a candidate, and the peer that its search
asks sends it back to itself: it remembers only others. -/
theorem not_self_among_candidates_of_courted :
    let acts : List Act :=
      [.event (.message (broker 3 "z") (.candidates [broker 1 "x", broker 2 "y"])),
        .event (.message (broker 3 "z") (.goodCandidate (broker 1 "x"))),
        .start, .tick, .begin (.connect 0), .advance, .advance, .advance,
        .event (.message (broker 2 "y")
          (.response ⟨⟨.colorless, ⟨1.0⟩⟩, .refused (.depthOrColor (some (broker 1 "x")))⟩)),
        .resume]
    let courted := newborn.grown trio still acts
    Life Episode.FromOthers (newborn.story trio still acts) courted ∧
      courted.isSeeking = true ∧ courted.position.global.snapshot = [broker 2 "y"] ∧
        (courted.self.isThe courted.position.global.hint = false ∧
          (courted.self.among courted.position.global.snapshot = true →
            ∃ e ∈ newborn.story trio still acts, e.before.Misled e.act)) := by
  intro acts courted
  have hpossible : ∀ e ∈ newborn.story trio still acts,
      e.act.Possible e.before ∧ e.FromOthers := by decide +kernel
  have life : Life Episode.FromOthers (newborn.story trio still acts) courted :=
    (Life.birth .standard (broker 1 "x") still).story trio still hpossible
  exact ⟨life, by decide +kernel, by decide +kernel, life.not_self_among_candidates⟩

end Rehearsal

/-- A broker that is to join a tree, and whose request is refused with its own name, is a
candidate of its own. -/
theorem Life.exists_self_among_candidates :
    ∃ history n, Life Episode.FromOthers history n ∧
      n.self.among n.position.global.snapshot = true := by
  let acts : List Act :=
    [.start, .requestJoin "y", .begin (.join "y"), .advance, .advance,
      .event (.message (Rehearsal.broker 2 "y")
        (.response ⟨⟨.colorless, ⟨1.0⟩⟩,
          .refused (.depthOrColor (some (Rehearsal.broker 1 "x")))⟩)),
      .resume]
  have hpossible : ∀ e ∈ Rehearsal.newborn.story Rehearsal.trio Rehearsal.still acts,
      e.act.Possible e.before ∧ e.FromOthers := by decide +kernel
  exact ⟨_, _, (Life.birth .standard (Rehearsal.broker 1 "x") Rehearsal.still).story
    Rehearsal.trio Rehearsal.still hpossible, by decide +kernel⟩

end BrokerForest
