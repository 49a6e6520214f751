import BrokerForest.Proofs.Neighborhood
import BrokerForest.Proofs.Pools
import BrokerForest.Proofs.Shifts
/-!
# Fatherhood: what goes with having a father

A node writes down its father, the depth that the father told of, its neighbors and its
global pool in many places, and each of them touches only some of the four.  They agree all
the same after every act: the depth is known exactly while there is a father, and the father
is another node, a broker beside the node, no child of it, and nobody whom the node
recommends to others.

A father is taken beneath a link, so all this rests on what links lead to: a client at the
end of one would be written down among the clients.  A node that is told to leave its father
forgets it first and becomes the root of a new tree after that, and in between it has a father
that is not beside it.

Main statements:

* `Position.Sound`, `Position.Anchored` — what goes with a father;
* `Node.Shift.sound`, `Node.Shift.anchored` — each way in which an act moves a node keeps it;
* `Life.anchored` — so it holds after all that can happen to a node;
* **`Life.father_beside_and_apart`** — the father of a node in terms of what it is asked about.
-/

namespace BrokerForest

/-! ## What goes with a father -/

/-- What goes with having a father or none, and that the global pool is a set. -/
structure Position.Sound (own : Peer) (p : Position) : Prop where
  depth : p.fatherDepth.isSome = p.father.isSome
  distinct : p.global.pool.Distinct
  other : ∀ father, p.father = some father → father.id ≠ own.id

/-- The father is beside the node, and not among those whom it recommends. -/
structure Position.Anchored (p : Position) : Prop where
  beside : ∀ father, p.father = some father → p.neighbors.isBroker father = true
  apart : ∀ father, p.father = some father → p.global.pool.All fun q => q.id ≠ father.id

/-- A node is sound, anchored unless it has forgotten its father, and asks only brokers other
than itself. -/
structure Node.Anchored (n : Node) : Prop where
  sound : n.position.Sound n.self
  position : n.isUprooted = false → n.position.Anchored
  asked : ∀ negotiation, n.negotiation? = some negotiation →
    negotiation.peer.id ≠ n.self.id ∧ negotiation.peer.broker = true

/-- Every link that was opened in an episode led to a broker. -/
def Episode.LinksToBrokers (e : Episode) : Prop :=
  ∀ effect ∈ e.seen, ∀ peer ∈ effect.resolved, peer.broker = true

instance (e : Episode) : Decidable e.LinksToBrokers :=
  inferInstanceAs (Decidable (∀ effect ∈ e.seen, ∀ peer ∈ effect.resolved, peer.broker = true))

/-! ## The global pool -/

/-- Nobody is left in a pool who was removed from it, if nobody was there twice. -/
theorem Pool.all_ne_remove {q : Pool} (h : q.Distinct) (p : Peer) :
    (q.remove p).All fun r => r.id ≠ p.id :=
  fun _ hr => ((Neighbors.mem_erase h).1 (List.mem_map_of_mem hr)).2

namespace Position

variable {p q : Position} {self peer father : Peer}

/-- Who is a broker beside a node is not heard of. -/
theorem apart_hear {peers : List Peer} {excluded : Peer → Bool}
    (hbeside : p.neighbors.isBroker father = true)
    (hapart : p.global.pool.All fun q => q.id ≠ father.id) :
    (p.hear self peers excluded).global.pool.All fun q => q.id ≠ father.id := by
  refine Pool.all_addAll _ hapart fun r hr hid => ?_
  have hunknown := (List.mem_filter.1 hr).2
  -- Whoever has the father's identity is known, as the father is a neighbor.
  have hknown : p.knows self r = true := by
    have hbroker : p.neighbors.isBroker r = true := by
      rw [Neighbors.isBroker_iff] at hbeside ⊢
      rwa [hid]
    have hneighbor : p.neighbors.contains r = true := Bool.or_eq_true_iff.2 (Or.inl hbroker)
    simp [knows, hneighbor]
  simp [hknown] at hunknown

/-- The father is no child. -/
theorem not_among_children (h : p.father = some father) :
    father.among p.children = false := by
  rw [Bool.eq_false_iff]
  intro hamong
  obtain ⟨child, hchild, hid⟩ := Peer.among_iff.1 hamong
  have hunder := (mem_children_iff.1 (List.mem_map_of_mem hchild)).2
  rw [← hid, under_id, isFather, Bool.eq_false_iff, ne_eq, Peer.isThe_iff] at hunder
  exact hunder ⟨father, h, rfl⟩

/-! ## Each way of moving -/

/-- A position without a father is anchored. -/
theorem anchored_of_root (hfather : p.father = none) : p.Anchored where
  beside father h := by rw [hfather] at h; cases h
  apart father h := by rw [hfather] at h; cases h

/-- What keeps the father, keeps it beside the node and does not take it into the pool. -/
theorem Anchored.mono (h : p.Anchored) (hfather : q.father = p.father)
    (hbeside : ∀ father, p.father = some father → p.neighbors.isBroker father = true →
      q.neighbors.isBroker father = true)
    (hapart : ∀ father, p.father = some father → p.neighbors.isBroker father = true →
      (p.global.pool.All fun r => r.id ≠ father.id) → q.global.pool.All fun r => r.id ≠ father.id) :
    q.Anchored where
  beside father hf := hbeside father (hfather ▸ hf) (h.beside father (hfather ▸ hf))
  apart father hf :=
    hapart father (hfather ▸ hf) (h.beside father (hfather ▸ hf)) (h.apart father (hfather ▸ hf))

/-- Another peer is forgotten. -/
theorem Anchored.forget (h : p.Anchored)
    (hother : p.neighbors.isBroker peer = false ∨ p.isFather peer = false) :
    (p.forget peer).Anchored := by
  refine h.mono rfl (fun father hf hbeside => ?_) fun _ _ _ hapart => hapart
  refine Neighbors.isBroker_remove hbeside fun hid => ?_
  rcases hother with hnot | hnot
  · rw [Neighbors.isBroker_iff, hid, ← Neighbors.isBroker_iff, hnot] at hbeside
    cases hbeside
  · rw [Bool.eq_false_iff, isFather, ne_eq, Peer.isThe_iff] at hnot
    exact hnot ⟨father, hf, hid.symm⟩

/-- What a node has once it takes its place beneath a father. -/
theorem attach_frame (p : Position) (self father : Peer) (rank : Rank) (acceptance : Acceptance)
    (ws : Words) :
    let q := (p.attach self father rank acceptance ws).1
    q.father = some father ∧ q.fatherDepth = some rank.depth ∧
      q.neighbors = p.neighbors.add father ∧ q.global = p.global.remove father := by
  obtain ⟨own, heq⟩ := p.attach_eq self father rank acceptance ws
  rw [heq]
  exact ⟨rfl, rfl, rfl, rfl⟩

end Position

namespace Node

variable {n : Node} {a : Act} {p : Position}

/-- However an act moves a node that asks nobody but others, what goes with a father goes with
one. -/
theorem Shift.sound (h : n.Shift a p) (hn : n.Anchored) : p.Sound n.self := by
  obtain ⟨hdepth, hdistinct, hother⟩ := hn.sound
  -- Whoever hears from the father knows its depth.
  have hknown : ∀ peer, n.position.isFather peer = true → n.position.father.isSome = true := by
    intro peer hpeer
    obtain ⟨father, hf, -⟩ := Peer.isThe_iff.1 hpeer
    simp [hf]
  cases h with
  | stay | keepHint | takeHint | fork | welcome | serve | forget | forsake =>
      exact ⟨hdepth, hdistinct, hother⟩
  | hear => exact ⟨hdepth, Pool.distinct_addAll _ hdistinct _, hother⟩
  | bury father | greet father =>
      exact ⟨(hknown _ father).symm, Pool.distinct_addAll _ hdistinct _, hother⟩
  | @heed origin news ws father =>
      obtain ⟨hfather, -, -, hglobal⟩ := n.position.heed_frame news ws
      refine ⟨?_, ?_, ?_⟩
      · rw [Position.fatherDepth_heed, hfather, hknown _ father]
        rfl
      · rw [hglobal]
        exact hdistinct
      · rw [hfather]
        exact hother
  | lose => exact ⟨rfl, hdistinct, by simp [Position.orphan]⟩
  | found => exact ⟨rfl, Pool.distinct_addAll _ hdistinct _, by simp [Position.newTree]⟩
  | learn => exact ⟨hdepth, Pool.distinct_add _ hdistinct _, hother⟩
  | @attach negotiation response acceptance ws negotiating =>
      obtain ⟨hfather, hdepth', -, hglobal⟩ :=
        n.position.attach_frame n.self negotiation.peer response.rank acceptance ws
      obtain ⟨hpeer, -⟩ := hn.asked negotiation (by simp [negotiation?, negotiating,
        Holder.negotiation?])
      refine ⟨?_, ?_, ?_⟩
      · rw [hfather, hdepth']
        rfl
      · rw [hglobal]
        exact Pool.distinct_remove hdistinct _
      · intro father hf
        rw [hfather] at hf
        cases hf
        exact hpeer

/-- However an act moves an anchored node that has no father while it looks for one, it remains
anchored, unless it leaves its father. -/
theorem Shift.anchored (h : n.Shift a p) (hn : n.Anchored) (hup : n.isUprooted = false)
    (hseeking : n.isSeeking = true → n.position.father = none)
    (hstays : ∀ father, n.slot.holder = some (.leaving father) → a ≠ .advance) :
    p.Anchored := by
  have hp := hn.position hup
  cases h with
  | stay => exact hp
  | keepHint | takeHint | fork =>
      exact hp.mono rfl (fun _ _ hbeside => hbeside) fun _ _ _ hapart => hapart
  | welcome | serve =>
      exact hp.mono rfl (fun _ _ hbeside => Neighbors.isBroker_add hbeside _)
        fun _ _ _ hapart => hapart
  | hear | bury | greet =>
      exact hp.mono rfl (fun _ _ hbeside => hbeside) fun _ _ hbeside hapart =>
        Position.apart_hear hbeside hapart
  | @heed origin news ws father =>
      obtain ⟨hfather, hneighbors, -, hglobal⟩ := n.position.heed_frame news ws
      refine hp.mono hfather (fun _ _ hbeside => ?_) fun _ _ _ hapart => ?_
      · rw [hneighbors]
        exact hbeside
      · rw [hglobal]
        exact hapart
  | forget parts other => exact hp.forget other
  | lose | found => exact Position.anchored_of_root rfl
  | forsake leaving => exact absurd rfl (hstays _ leaving)
  | learn negotiating =>
      -- While it negotiates the node has no father, whom the name could be.
      exact Position.anchored_of_root (hseeking (isSeeking_of_holder negotiating rfl))
  | @attach negotiation response acceptance ws negotiating =>
      obtain ⟨hfather, -, hneighbors, hglobal⟩ :=
        n.position.attach_frame n.self negotiation.peer response.rank acceptance ws
      obtain ⟨-, hbroker⟩ := hn.asked negotiation (by simp [negotiation?, negotiating,
        Holder.negotiation?])
      constructor
      · intro father hf
        rw [hfather] at hf
        cases hf
        rw [hneighbors]
        exact Neighbors.isBroker_add_self hbroker
      · intro father hf
        rw [hfather] at hf
        cases hf
        rw [hglobal]
        exact Pool.all_ne_remove hn.sound.distinct _

end Node

/-! ## All that can happen to a node -/

/-- An act keeps a node anchored if all links lead to brokers. -/
theorem Session.anchored_run {σ : Type} [Transport σ] {n : Node} {a : Act} (outside : σ)
    (ws : Words) (possible : a.Possible n)
    (hlinks : (Session.episode ⟨n, outside, ws, []⟩ a).LinksToBrokers) (hn : n.Anchored)
    (hseeking : n.isSeeking = true → n.position.father = none) :
    (a.run ⟨n, outside, ws, []⟩).node.Anchored := by
  obtain ⟨hself, -, hshift, hwaits, -⟩ := Session.turns_run ⟨n, outside, ws, []⟩ possible
  refine ⟨hself ▸ hshift.sound hn, fun hup => ?_, fun negotiation hnegotiation => ?_⟩
  · cases hbefore : n.isUprooted with
    | true =>
        rcases Session.isUprooted_run ⟨n, outside, ws, []⟩ possible hbefore with h | hroot
        · rw [h] at hup
          cases hup
        · exact Position.anchored_of_root hroot
    | false =>
        refine hshift.anchored hn hbefore hseeking fun father hleaving hact => ?_
        subst hact
        have h := Session.isUprooted_of_leaving (s := ⟨n, outside, ws, []⟩) hleaving
        rw [show (Act.run ⟨n, outside, ws, []⟩ .advance).node.isUprooted = true from h] at hup
        cases hup
  · rw [hself]
    rcases hwaits.negotiation hnegotiation with hasked | ⟨hother, effect, heffect, hpeer⟩
    · exact hn.asked negotiation hasked
    · exact ⟨by simpa [Peer.same] using hother, hlinks effect heffect _ hpeer⟩

/-- A node whose links all lead to brokers is anchored after all that happens to it. -/
theorem Life.anchored {history : List Episode} {n : Node}
    (life : Life Episode.LinksToBrokers history n) : n.Anchored := by
  induction life with
  | birth settings self ws =>
      refine ⟨⟨rfl, Pool.distinct_empty, by simp [Node.start, Position.start]⟩,
        fun _ => Position.anchored_of_root rfl, ?_⟩
      simp [Node.start, Node.negotiation?, Slot.free]
  | act life outside ws possible meets ih =>
      exact Session.anchored_run outside ws possible meets ih life.father_of_seeking

/-- **After all that can happen to a node whose links lead to brokers**, it knows of a
father's depth if and only if it has a father; and the father is not the node itself and none
of its children.  It is among the brokers beside the node, and nobody in the pool that the node
tells others of, unless the node is in the middle of leaving it: it has forgotten it, and what
it does next is to found a tree of its own. -/
theorem Life.father_beside_and_apart {history : List Episode} {n : Node}
    (life : Life Episode.LinksToBrokers history n) :
    (n.position.fatherDepth.isSome = true ↔ n.position.father.isSome = true) ∧
      ∀ father, n.position.father = some father →
        father.same n.self = false ∧ father.among n.position.children = false ∧
          (n.isUprooted = false → n.position.neighbors.isBroker father = true ∧
            father.among n.position.global.snapshot = false) := by
  obtain ⟨⟨hdepth, -, hother⟩, hanchored, -⟩ := life.anchored
  refine ⟨by rw [hdepth], fun father hfather => ⟨by simpa [Peer.same] using hother father hfather,
    Position.not_among_children hfather, fun hup => ?_⟩⟩
  obtain ⟨hbeside, hapart⟩ := hanchored hup
  refine ⟨hbeside father hfather, ?_⟩
  rw [Bool.eq_false_iff, ne_eq, Peer.among_iff]
  rintro ⟨candidate, hcandidate, hid⟩
  exact hapart father hfather candidate hcandidate hid.symm

namespace Rehearsal

/-- A broker that has heard of its father before and after it was accepted does not
recommend it. -/
theorem father_beside_and_apart_of_courtship :
    let acts := courtship ++
      [.resume, .event (.message (broker 3 "z") (.candidates [broker 2 "y"]))]
    let n := newborn.grown trio still acts
    Life Episode.LinksToBrokers (newborn.story trio still acts) n ∧
      n.position.father = some (broker 2 "y") ∧ n.position.fatherDepth.isSome = true ∧
        n.position.neighbors.isBroker (broker 2 "y") = true ∧
          (broker 2 "y").among n.position.children = false ∧
            (broker 2 "y").among n.position.global.snapshot = false := by
  intro acts n
  have hlinks : ∀ e ∈ newborn.story trio still acts,
      e.act.Possible e.before ∧ e.LinksToBrokers := by decide +kernel
  have life : Life Episode.LinksToBrokers (newborn.story trio still acts) n :=
    (Life.birth .standard (broker 1 "x") still).story trio still hlinks
  have hfather : n.position.father = some (broker 2 "y") := by decide +kernel
  obtain ⟨hdepth, hanchor⟩ := life.father_beside_and_apart
  obtain ⟨-, hchild, hsettled⟩ := hanchor _ hfather
  obtain ⟨hbeside, hapart⟩ := hsettled (by decide +kernel)
  exact ⟨life, hfather, hdepth.2 (by rw [hfather]; rfl), hbeside, hchild, hapart⟩

end Rehearsal

end BrokerForest
