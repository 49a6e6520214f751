import BrokerForest.Proofs.Consent
import BrokerForest.Proofs.Magnitude
import BrokerForest.Proofs.MessageRoundTrip
import BrokerForest.Proofs.RankOrder
import BrokerForest.Proofs.SentMessages
/-!
# Numeric: no depth is ever no number

A depth that is no number compares with none, and has no written form.  Depths come in with
messages, are moved past one another, and go out with messages again.  Every way of moving
them leads from numbers to numbers, infinite ones included: a stride and a jitter are finite,
and whatever is found beneath a floor is less than something, even where the midpoint that
was tried before is the difference of two infinities.

Main statements:

* `Depth.isNaN_initial`, `Depth.isNaN_beneath`, `Depth.isNaN_above`,
  `Depth.isNaN_of_undercut` — new depths;
* `Position.Numeric`, `Node.Numeric` — the nodes whose depths are numbers;
* `Node.Shift.numeric` — no act takes such a node anywhere else;
* `Node.Says.numeric` — whatever it says has a number for its depth;
* **`Life.depths_numeric`** — so it is throughout every life in which no other depth arrives.
-/

namespace BrokerForest

namespace Depth

variable {d bound : Depth} {ws : Words}

/-- The depth of a node on its own is a number. -/
theorem isNaN_initial : (initial ws).1.isNaN = false :=
  Double.isNaN_of_isFinite (Double.isFinite_jitter ws)

/-- A depth for a child is a number if the father's is, be it infinite. -/
theorem isNaN_beneath (h : bound.isNaN = false) : (beneath bound ws).1.isNaN = false := by
  have hstride : stride.isFinite = true := by decide +kernel
  exact Double.isNaN_add (Double.isNaN_add h hstride) (Double.isFinite_jitter ws)

/-- A depth above another is a number if the other is. -/
theorem isNaN_above (h : bound.isNaN = false) : (above bound ws).1.isNaN = false := by
  have hstride : stride.isFinite = true := by decide +kernel
  exact Double.isNaN_sub (Double.isNaN_sub h hstride) (Double.isFinite_jitter ws)

theorem isNaN_rise (hd : d.isNaN = false) (h : bound.isNaN = false) :
    (d.rise bound ws).1.isNaN = false := by
  unfold rise
  split
  · exact hd
  · exact isNaN_above h

/-- Whatever a depth is replaced with so that it is greater than a number is a number. -/
theorem isNaN_of_exceed {e : Depth} {ws' : Words} (h : bound.isNaN = false)
    (he : d.exceed bound ws = (some e, ws')) : e.isNaN = false := by
  unfold exceed at he
  split at he
  · cases he
  · cases he
    exact isNaN_beneath h

/-- Whatever a depth is replaced with so that it is less than a number is a number: with a
floor it is less than something, although the midpoint itself need not be a number. -/
theorem isNaN_of_undercut {e : Depth} {floor : Option Depth} {ws' : Words} (hd : d.isNaN = false)
    (h : bound.isNaN = false) (he : d.undercut bound floor ws = (some e, ws')) :
    e.isNaN = false := by
  cases floor with
  | none =>
      cases he
      exact isNaN_rise hd h
  | some floor => exact isNaN_of_lt_left (between_of_undercut he).2

end Depth

/-- A rank whose depth is a number. -/
def Rank.Numeric (r : Rank) : Prop := r.depth.isNaN = false

/-- A position whose depths are numbers. -/
structure Position.Numeric (p : Position) : Prop where
  rank : p.rank.Numeric
  father : ∀ d, p.fatherDepth = some d → d.isNaN = false

namespace Position

variable {p : Position} {rank : Rank} {ws ws' : Words} {a : Admission}

/-- The rank after an admission is numeric. -/
theorem Numeric.admission (h : p.Numeric) (hrank : rank.Numeric)
    (hadmission : p.admission rank ws = (some a, ws')) : (a.rank p.rank).Numeric := by
  rcases admission_cases hadmission with ⟨_, _, rfl⟩ | ⟨_, hkin⟩ | ⟨_, rfl⟩
  · exact Depth.isNaN_rise h.rank hrank
  · rcases admissionOfKin_cases hkin with ⟨rfl, _⟩ | ⟨d, rfl, hdepth⟩
    · exact h.rank
    · exact Depth.isNaN_of_undercut h.rank hrank hdepth
  · exact h.rank

/-- So is the rank beneath a father, and what is known of the father's depth. -/
theorem Numeric.settle (h : p.Numeric) (hrank : rank.Numeric) :
    (p.settle rank ws).2.1.Numeric := by
  have hfather : ∀ d, some rank.depth = some d → d.isNaN = false := by
    rintro _ ⟨⟩
    exact hrank
  simp only [Position.settle]
  split
  · split
    · rename_i hexceed
      exact ⟨Depth.isNaN_of_exceed hrank hexceed, hfather⟩
    · exact ⟨h.rank, hfather⟩
  · exact ⟨Depth.isNaN_beneath hrank, hfather⟩

end Position

/-- A node whose depths are numbers, and those of the response that it has collected and of the
request that it is to send. -/
structure Node.Numeric (n : Node) : Prop where
  position : n.position.Numeric
  delivered : ∀ response, n.mailbox.delivered = some response → response.rank.Numeric
  asks : ∀ negotiation request, n.slot.holder = some (.asking negotiation request) →
    request.rank.Numeric

/-- The rank that an act makes a node hear of. -/
def Act.heard? : Act → Option Rank
  | event (.message _ message) => message.rank?
  | _ => none

/-- An act in which a message arrives, if any, that has a number for its depth.  An infinity
is a number here. -/
def Act.Numeric (a : Act) : Prop := ∀ rank ∈ a.heard?, rank.Numeric

instance : DecidablePred Rank.Numeric := fun r =>
  inferInstanceAs (Decidable (r.depth.isNaN = false))

instance : DecidablePred Act.Numeric := fun a =>
  inferInstanceAs (Decidable (∀ rank ∈ a.heard?, rank.Numeric))

namespace Node

variable {n : Node} {a : Act} {p : Position}

theorem Numeric.collected (h : n.Numeric) {response : Response}
    (hcollect : n.mailbox.collect = .ok response) : response.rank.Numeric :=
  h.delivered response (Mailbox.delivered_of_collect hcollect)

/-- Wherever an act takes a node, its depths remain numbers. -/
theorem Shift.numeric (h : n.Shift a p) (ha : a.Numeric) (hn : n.Numeric) : p.Numeric := by
  have hp := hn.position
  cases h with
  | stay | keepHint | takeHint | hear | serve | forget | fork | forsake | learn =>
      exact ⟨hp.rank, hp.father⟩
  | welcome verdict =>
      have hrank := ha _ rfl
      exact ⟨hp.admission hrank (admission_of_judge verdict).2.1, hp.father⟩
  | bury | greet =>
      refine ⟨hp.rank, ?_⟩
      rintro _ ⟨⟩
      exact ha _ rfl
  | heed => exact Position.Numeric.settle ⟨hp.rank, hp.father⟩ (ha _ rfl)
  | lose => exact ⟨hp.rank, nofun⟩
  | found => exact ⟨Depth.isNaN_initial, nofun⟩
  | @attach negotiation response _ ws _ collected _ =>
      let beneath : Position := { n.position with
        father := some negotiation.peer
        neighbors := n.position.neighbors.add negotiation.peer
        global := n.position.global.remove negotiation.peer }
      have hbeneath : beneath.Numeric := ⟨hp.rank, hp.father⟩
      have hsettle : (beneath.settle response.rank ws).2.1.Numeric :=
        hbeneath.settle (hn.collected collected)
      exact ⟨hsettle.rank, hsettle.father⟩

/-- Whatever a node says has a depth that is a number. -/
theorem Says.numeric {later r : Rank} {message : Message} (h : n.Says a later message)
    (ha : a.Numeric) (hn : n.Numeric) (hlater : later.Numeric)
    (hrank : message.rank? = some r) : r.Numeric := by
  have hadmission {requester : Peer} {request : Request} {admission : Admission}
      {ws ws' : Words} (ha : Act.Numeric (.event (.message requester (.request request))))
      (verdict : n.judge requester request ws = (.accept admission, ws')) :
      (admission.rank n.position.rank).Numeric :=
    hn.position.admission (ha _ rfl) (admission_of_judge verdict).2.1
  cases h with
  | ask _ asks =>
      cases hrank
      exact hn.asks _ _ asks
  | refuse | bury =>
      cases hrank
      exact hn.position.rank
  | accept _ verdict | greet _ verdict | adopt _ verdict =>
      cases hrank
      exact hadmission ha verdict
  | update =>
      cases hrank
      exact hlater
  | recommend | farewell | gossip => cases hrank

/-- What becomes of the mailbox and of the slot in an act has numbers as depths. -/
theorem Numeric.of_waits {σ : Type} [Transport σ] {s t : Session σ} (h : s.node.Numeric)
    (hposition : t.node.position.Numeric) (ha : a.Numeric) (hwaits : s.Waits t a) :
    t.node.Numeric := by
  cases hwaits with
  | aside _ hslot hmailbox => exact ⟨hposition, by rw [hmailbox]; exact h.delivered,
      by rw [hslot]; exact h.asks⟩
  | deliver hslot hdelivered =>
      refine ⟨hposition, fun response hresponse => ?_, by rw [hslot]; exact h.asks⟩
      rcases (Mailbox.deliver_eq_ok hdelivered).2.2 response hresponse with hbefore | rfl
      · exact h.delivered response hbefore
      · exact ha _ rfl
  | cancel _ peer hslot hmailbox =>
      refine ⟨hposition, ?_, by rw [hslot]; exact h.asks⟩
      rw [hmailbox, (Mailbox.cancel_frame _ peer).2]
      exact h.delivered
  | step _ _ _ _ hmailbox meets =>
      refine ⟨hposition, by rw [hmailbox]; exact h.delivered, fun negotiation request hasking => ?_⟩
      rw [(meets negotiation request hasking).1]
      exact h.position.rank
  | forsake _ founding hmailbox =>
      exact ⟨hposition, by rw [hmailbox]; exact h.delivered, by simp [founding]⟩
  | found _ free hmailbox =>
      exact ⟨hposition, by rw [hmailbox]; exact h.delivered, by simp [free, Slot.free]⟩
  | ask _ hmailbox asked =>
      refine ⟨hposition, fun response hresponse => ?_, ?_⟩
      · rw [hmailbox] at hresponse
        cases hresponse
      · rcases asked with ⟨hholder, -⟩ | hholder <;> simp [hholder]
  | rest _ _ hafter hmailbox =>
      refine ⟨hposition, fun response hresponse => ?_, ?_⟩
      · rw [hmailbox] at hresponse
        cases hresponse
      · rcases hafter with hholder | ⟨search, hholder⟩ <;> simp [hholder]

end Node

/-- An episode in which whatever arrives has a number for its depth. -/
def Episode.Numeric (e : Episode) : Prop := e.act.Numeric

instance : DecidablePred Episode.Numeric := fun e => inferInstanceAs (Decidable e.act.Numeric)

namespace Life

variable {past later history : List Episode} {n : Node}

/-- The depths of a node remain numbers. -/
theorem numeric (life : Life Episode.Numeric history n) : n.Numeric := by
  induction life with
  | birth settings self ws =>
      exact ⟨⟨Depth.isNaN_initial, nofun⟩, nofun, by simp [Node.start, Slot.free]⟩
  | @act history n a σ _ life outside ws possible meets ih =>
      have hturns := Session.turns_run ⟨n, outside, ws, []⟩ possible
      exact ih.of_waits (hturns.shift.numeric meets ih) meets hturns.waits

/-- **No depth is ever no number**, neither that of the node, nor what it knows of its
father's, nor any that it tells of, if none arrives.  So whatever a node says has a written
form, unless it is too long for one. -/
theorem depths_numeric (life : Life Episode.Numeric history n) :
    (n.position.rank.depth.isNaN = false ∧
      ∀ d, n.position.fatherDepth = some d → d.isNaN = false) ∧
    ∀ e ∈ history, ∀ peer message traffic delivered,
      .sent peer message traffic delivered ∈ e.seen →
        (∀ rank, message.rank? = some rank → rank.depth.isNaN = false) ∧
          (message.Short → ∃ bytes, Wire.message.write message = some bytes) := by
  refine ⟨⟨life.numeric.position.rank, life.numeric.position.father⟩, ?_⟩
  intro e he peer message traffic delivered hsent
  obtain ⟨past, later, rfl⟩ := List.append_of_mem he
  obtain ⟨hbefore, hact, σ, _, outside, ws, possible, hepisode⟩ := life.split rfl
  let s : Session σ := ⟨e.before, outside, ws, []⟩
  have hafter := (Session.turns_run s possible).shift.numeric hact hbefore.numeric
  have hsays : e.before.Says e.act (e.act.run s).node.position.rank message := by
    have hseen : e.seen = s.since (e.act.run s) := by
      rw [hepisode]
      exact List.drop_zero.symm
    rw [hseen] at hsent
    exact (Session.says_run s e.act).allows hsent
  have hdepth := fun rank => hsays.numeric (r := rank) hact hbefore.numeric hafter.rank
  exact ⟨hdepth, fun hshort => (Wire.exact_message.writes message).2 ⟨hshort, hdepth⟩⟩

end Life

namespace Rehearsal

/-- A broker that joins a tree infinitely deep has no finite depth itself, and tells so whoever
asks it; it goes on with numbers all the same. -/
theorem depths_numeric_of_abyss :
    let abyss : Depth := ⟨Float.ofBits 0x7FF0000000000000⟩
    let acts : List Act :=
      [.start, .requestJoin "y", .begin (.join "y"), .advance, .advance,
        .event (.message (broker 2 "y") (.response ⟨⟨.colorless, abyss⟩, .accepted ⟨[], []⟩⟩)),
        .resume,
        .event (.message (broker 3 "z") (.request ⟨⟨.colorless, abyss⟩, .none⟩))]
    let fallen := newborn.grown trio still acts
    Life Episode.Numeric (newborn.story trio still acts) fallen ∧
      fallen.position.rank.depth = abyss ∧ fallen.position.fatherDepth = some abyss ∧
      (abyss.isNaN = false ∧ ∀ e ∈ newborn.story trio still acts,
        ∀ peer message traffic delivered, .sent peer message traffic delivered ∈ e.seen →
          ∀ rank, message.rank? = some rank → rank.depth.isNaN = false) := by
  intro abyss acts fallen
  have hpossible : ∀ e ∈ newborn.story trio still acts,
      e.act.Possible e.before ∧ e.Numeric := by decide +kernel
  have life : Life Episode.Numeric (newborn.story trio still acts) fallen :=
    (Life.birth .standard (broker 1 "x") still).story trio still hpossible
  have hdeep : fallen.position.rank.depth = abyss := by decide +kernel
  obtain ⟨⟨hown, -⟩, htold⟩ := life.depths_numeric
  exact ⟨life, hdeep, by decide +kernel, hdeep ▸ hown,
    fun e he peer message traffic delivered hsent => (htold e he peer message _ _ hsent).1⟩

end Rehearsal

end BrokerForest
