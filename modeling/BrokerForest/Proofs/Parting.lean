import BrokerForest.Proofs.Fatherhood
import BrokerForest.Proofs.Neighborhood
/-!
# Parting: what is left of a peer that a node parts from

A node takes a peer off its neighbors when it parts from it, or finds it gone.  Brokers and
clients are kept apart, and the father is noted down besides, so that one peer may be there
in three ways.  Of these a node gives up the broker, and the father with it; a client only if
there was no broker of that identity.

Main statements:

* `Session.position_of_parts` — every way of parting leads to the same place;
* **`Life.left_of_parted`** — of a peer that was a broker the client may be left, of one that
  was none the father;
* `Life.parted` — nothing is left where every link leads to a broker, no client is a broker too,
  and the father is not being left just then.
-/

namespace BrokerForest

namespace Neighbors

variable {n : Neighbors} {peers : List Peer}

theorem among_iff_mem {p : Peer} : p.among peers = true ↔ p.id ∈ peers.map Peer.id := by
  rw [Peer.among_iff, List.mem_map]
  exact exists_congr fun _ => and_congr_right fun _ => eq_comm

/-- Whoever is taken out of peers that are there once is not among them. -/
theorem not_among_eraseP (h : Peer.InOrder peers) (p : Peer) :
    p.among (peers.eraseP p.same) = false := by
  rw [Bool.eq_false_iff, ne_eq, among_iff_mem, mem_erase h.nodup]
  exact fun hmem => hmem.2 rfl

/-- No broker of a peer is left that is removed, and the client only if there was a broker. -/
theorem left_of_remove (n : Neighbors) (p : Peer) :
    (n.remove p).isBroker p = false ∧
      ((n.remove p).contains p = true ↔ n.isBroker p = true ∧ p.among n.clients = true) := by
  unfold contains Neighbors.remove
  cases hbroker : n.isBroker p with
  | true => simp [isBroker, not_among_eraseP n.brokers_inOrder]
  | false =>
      rw [isBroker] at hbroker
      simp [hbroker, isBroker, not_among_eraseP n.clients_inOrder]

end Neighbors

/-! ## Parting -/

/-- The position of a node that has parted from a peer. -/
def Position.parted (p : Position) (peer : Peer) : Position :=
  if p.neighbors.isBroker peer && p.isFather peer then (p.forget peer).orphan else p.forget peer

namespace Position

variable {p : Position} {peer : Peer}

/-- Whoever is no neighbor is as good as parted from. -/
theorem parted_of_stranger (h : p.neighbors.contains peer = false) : p.parted peer = p := by
  obtain ⟨hbroker, hclient⟩ := Bool.or_eq_false_iff.1 h
  have hnone : p.neighbors.clients.eraseP peer.same = p.neighbors.clients :=
    List.eraseP_of_forall_not fun q hq hsame => by
      rw [Peer.among, List.any_eq_false] at hclient
      exact hclient q hq hsame
  simp [parted, forget, Neighbors.remove, Neighbors.isBroker, hbroker, hnone]

/-- A peer that a node parts from is a neighbor still only as a client, and only if it was a
broker beside it as well. -/
theorem contains_parted (p : Position) (peer : Peer) :
    (p.parted peer).neighbors.isBroker peer = false ∧
      ((p.parted peer).neighbors.contains peer = true ↔
        p.neighbors.isBroker peer = true ∧ peer.among p.neighbors.clients = true) := by
  unfold parted
  split <;> exact p.neighbors.left_of_remove peer

/-- A peer that a node parts from is its father still only if it was, and was no broker beside
it. -/
theorem isFather_parted (p : Position) (peer : Peer) :
    (p.parted peer).isFather peer = true ↔
      p.isFather peer = true ∧ p.neighbors.isBroker peer = false := by
  unfold parted
  cases hbroker : p.neighbors.isBroker peer <;> cases hfather : p.isFather peer <;>
    simp_all [isFather, forget, orphan, Peer.isThe]

end Position

namespace Session

variable {σ : Type} [Transport σ]

theorem position_depart (s : Session σ) (peer : Peer) :
    (s.depart peer).node.position = s.node.position.parted peer := by
  unfold Position.parted
  by_cases h : s.node.position.neighbors.isBroker peer = true ∧
      s.node.position.isFather peer = true
  · rw [node_depart_of_father h.1 h.2]
    simp [h]
  · rw [node_depart_of_not_father (by simpa [Classical.or_iff_not_imp_left] using h)]
    simpa using fun hbroker hfather => absurd ⟨hbroker, hfather⟩ h

/-- **Whether a node parts from a peer, is told to do so, or finds it gone**, it comes to
stand in one place. -/
theorem position_of_parts {a : Act} {peer : Peer} (s : Session σ) (parts : a.Parts peer) :
    (a.run s).node.position = s.node.position.parted peer := by
  cases a with
  | event event =>
      cases event with
      | closed p | dead p =>
          obtain rfl : p = peer := parts
          exact position_depart _ p
      | message origin message =>
          cases message with
          | noLongerChild =>
              obtain rfl : origin = peer := parts
              exact position_depart s origin
          | _ => exact parts.elim
      | opened p => exact parts.elim
  | leave p =>
      obtain rfl : p = peer := parts
      simp only [Act.run, leave_eq]
      split
      · exact position_depart _ p
      · rename_i hstranger
        exact (Position.parted_of_stranger (by simpa using hstranger)).symm
  | _ => exact parts.elim

end Session

/-! ## All that can happen to a node -/

section

variable {cond : Episode → Prop} {past later : List Episode} {e : Episode} {n : Node} {peer : Peer}

/-- In a life an act that parts from a peer leads to the place of a node that has parted from
it. -/
theorem Life.position_of_parts (life : Life cond (past ++ e :: later) n)
    (parts : e.act.Parts peer) :
    e.after.position = e.before.position.parted peer := by
  obtain ⟨-, -, σ, _, outside, ws, -, hepisode⟩ := life.split rfl
  exact (congrArg (fun e => e.after.position) hepisode).trans
    (Session.position_of_parts ⟨e.before, outside, ws, []⟩ parts)

/-- **A node that parts from a peer, or finds it gone, has it no longer as a broker beside
it**; it has it as a client only if it had it as a broker and as a client, and as its father
only if it had it as its father and not as a broker. -/
theorem Life.left_of_parted (life : Life cond (past ++ e :: later) n)
    (parts : e.act.Parts peer) :
    e.after.position.neighbors.isBroker peer = false ∧
      (e.after.position.neighbors.contains peer = true ↔
        e.before.position.neighbors.isBroker peer = true ∧
          peer.among e.before.position.neighbors.clients = true) ∧
      (e.after.position.isFather peer = true ↔
        e.before.position.isFather peer = true ∧
          e.before.position.neighbors.isBroker peer = false) := by
  obtain ⟨hbroker, hcontains⟩ := Position.contains_parted e.before.position peer
  rw [life.position_of_parts parts]
  exact ⟨hbroker, hcontains, Position.isFather_parted _ peer⟩

end

namespace Rehearsal

/-- A broker whose father closes the link is left without it. -/
theorem left_of_parted_of_deserted :
    let attached := newborn.grown trio still (courtship ++ [.resume])
    let parting := attached.live trio still (.event (.closed (broker 2 "y")))
    Life (fun _ => True)
        (newborn.story trio still (courtship ++ [.resume]) ++ parting :: []) parting.after ∧
      parting.before.position.father = some (broker 2 "y") ∧
      parting.before.position.neighbors.isBroker (broker 2 "y") = true ∧
        (parting.after.position.neighbors.isBroker (broker 2 "y") = false ∧
          (parting.after.position.neighbors.contains (broker 2 "y") = true ↔
            parting.before.position.neighbors.isBroker (broker 2 "y") = true ∧
              (broker 2 "y").among parting.before.position.neighbors.clients = true) ∧
          (parting.after.position.isFather (broker 2 "y") = true ↔
            parting.before.position.isFather (broker 2 "y") = true ∧
              parting.before.position.neighbors.isBroker (broker 2 "y") = false)) := by
  intro attached parting
  have hpossible : ∀ e ∈ newborn.story trio still
      ((courtship ++ [.resume]) ++ [.event (.closed (broker 2 "y"))]),
      e.act.Possible e.before ∧ True := by decide +kernel
  have life : Life (fun _ => True)
      (newborn.story trio still (courtship ++ [.resume]) ++ parting :: []) parting.after :=
    (Life.birth .standard (broker 1 "x") still).story_of_append trio still hpossible
  exact ⟨life, by decide +kernel, by decide +kernel, life.left_of_parted rfl⟩

end Rehearsal

/-- A child that is linked as a client as well remains a client when its link is closed; and a
father at the end of a link to a client remains the father. -/
theorem Life.exists_left_of_parted :
    (∃ past e n peer, Life (fun _ => True) (past ++ e :: []) n ∧ e.act.Parts peer ∧
        n.position.neighbors.contains peer = true) ∧
      ∃ past e n peer, Life (fun _ => True) (past ++ e :: []) n ∧ e.act.Parts peer ∧
        n.position.isFather peer = true := by
  let client : Peer := { Rehearsal.broker 2 "y" with broker := false }
  let clients : Directory := ⟨[client]⟩
  have birth : Life (fun _ => True) [] Rehearsal.newborn :=
    .birth .standard (Rehearsal.broker 1 "x") Rehearsal.still
  constructor
  · let acts : List Act :=
      [.event (.message (Rehearsal.broker 2 "y") (.request ⟨⟨.colorless, ⟨100.0⟩⟩, .none⟩)),
        .event (.opened client)]
    have hpossible : ∀ e ∈ Rehearsal.newborn.story clients Rehearsal.still
        (acts ++ [.event (.closed client)]), e.act.Possible e.before ∧ True := by decide +kernel
    exact ⟨_, _, _, client, birth.story_of_append clients Rehearsal.still hpossible, rfl,
      by decide +kernel⟩
  · let acts : List Act :=
      [.start, .requestJoin "y", .begin (.join "y"), .advance, .advance,
        .event (.message client (.response ⟨⟨.colorless, ⟨1.0⟩⟩, .accepted ⟨[], []⟩⟩)), .resume]
    have hpossible : ∀ e ∈ Rehearsal.newborn.story clients Rehearsal.still
        (acts ++ [.event (.closed client)]), e.act.Possible e.before ∧ True := by decide +kernel
    exact ⟨_, _, _, client, birth.story_of_append clients Rehearsal.still hpossible, rfl,
      by decide +kernel⟩

/-- **Nothing is left of a peer that a node has parted from**, if every link of the node led to
a broker, the peer was not there as a client besides, and the node was not in the middle of
leaving its father. -/
theorem Life.parted {past later : List Episode} {e : Episode} {n : Node} {peer : Peer}
    (life : Life Episode.LinksToBrokers (past ++ e :: later) n) (parts : e.act.Parts peer)
    (sort : e.before.position.neighbors.isBroker peer = true →
      peer.among e.before.position.neighbors.clients = false)
    (settled : e.before.isUprooted = false) :
    e.after.position.neighbors.contains peer = false ∧
      e.after.position.isFather peer = false := by
  rw [life.position_of_parts parts, Bool.eq_false_iff, Bool.eq_false_iff, ne_eq, ne_eq,
    (Position.contains_parted _ peer).2, Position.isFather_parted]
  constructor
  · rintro ⟨hbroker, hclient⟩
    simp [sort hbroker] at hclient
  · rintro ⟨hfather, hbroker⟩
    -- The father is a broker beside the node, since a link to a broker led to it.
    obtain ⟨father, heq, hid⟩ := Peer.isThe_iff.1 hfather
    have hbeside := ((life.split rfl).1.anchored.position settled).beside father heq
    rw [Neighbors.isBroker_iff, ← hid, ← Neighbors.isBroker_iff, hbroker] at hbeside
    cases hbeside

end BrokerForest
