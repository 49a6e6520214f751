import BrokerForest.Proofs.Consent
import BrokerForest.Proofs.Rounding
import Mathlib.Data.List.Perm.Subperm
/-!
# Gossip: a round is a sound sample

In a round of gossip a node draws a payload from the candidates it has heard of, and recipients
from those of them that are not in the payload.  Either draw shuffles a list no further than it
needs: the member that a word points to changes places with the first, which is thereby drawn.
So what is drawn and what is left are the list in another order, whatever the words are.

Main statements:

* `Words.choose_subperm`, `Words.length_choose` — how a draw from a list comes out;
* `Global.append_subperm` — the payload and the recipients are drawn from one pool;
* `Session.payload`, `Session.recipients` — whom a round tells of, and whom it tells;
* `Session.trace_tellCandidates` — the recipients are told one after another, whatever becomes of
  it;
* **`Session.gossip_sound`** — a round of gossip, for every pool, fraction and stream of words.
-/

namespace BrokerForest

namespace Words

variable {α : Type}

/-- The member drawn and the others, once the first has changed places with it. -/
theorem cons_set_perm (head : α) (tail : List α) (place : Nat) :
    (tail.getD place head :: tail.set place head).Perm (head :: tail) := by
  induction tail generalizing place with
  | nil => simp
  | cons next tail ih =>
      cases place with
      | zero => exact .swap head next tail
      | succ place =>
          have hothers := (ih place).cons next
          exact (List.Perm.swap next _ _).trans (hothers.trans (.swap head next tail))

/-- Whoever is drawn from a list is in it, and drawn no more often than it is there. -/
theorem choose_subperm (amount : Nat) (l : List α) (ws : Words) :
    (choose amount l ws).1.Subperm l := by
  induction amount generalizing l ws with
  | zero => exact List.nil_subperm
  | succ amount ih =>
      cases l with
      | nil => exact List.nil_subperm
      | cons head tail =>
          simp only [choose]
          split
          · exact (List.subperm_cons head).2 (ih tail ws.next.2)
          · rename_i place _
            have hothers := ih (tail.set place head) ws.next.2
            exact ((List.subperm_cons _).2 hothers).trans (cons_set_perm head tail place).subperm

/-- As many are drawn as are to be, or all. -/
theorem length_choose (amount : Nat) (l : List α) (ws : Words) :
    (choose amount l ws).1.length = min amount l.length := by
  induction amount generalizing l ws with
  | zero => simp [choose]
  | succ amount ih =>
      cases l with
      | nil => simp [choose]
      | cons head tail =>
          simp only [choose]
          split
          · simp [ih]
          · simp [ih]

end Words

namespace Global

variable {g : Global} {ignored payload recipients : List Peer} {p : Peer}

theorem mem_eligible : p ∈ g.eligible ignored ↔ p ∈ g.pool.entries ∧ p.among ignored = false := by
  simp [eligible]

/-- Of a pool of which nobody is ignored everyone is eligible. -/
theorem eligible_nil (g : Global) : g.eligible [] = g.pool.entries := by
  simp [eligible, Peer.among]

/-- Whoever is sampled is eligible. -/
theorem sample_subperm (g : Global) (fraction : Float) (ignored : List Peer) (ws : Words) :
    (g.sample fraction ignored ws).1.Subperm (g.eligible ignored) :=
  Words.choose_subperm ..

/-- A sample is the share of those who are eligible, or all of them. -/
theorem length_sample (g : Global) (fraction : Float) (ignored : List Peer) (ws : Words) :
    (g.sample fraction ignored ws).1.length =
      min (share (g.eligible ignored).length fraction) (g.eligible ignored).length :=
  Words.length_choose ..

/-- A payload from a pool, and recipients from the rest of it, are drawn from the pool without
repetition. -/
theorem append_subperm (hpayload : payload.Subperm g.pool.entries)
    (hrecipients : recipients.Subperm (g.eligible payload)) :
    (payload ++ recipients).Subperm g.pool.entries := by
  have hself : payload.filter (fun p => p.among payload) = payload := by
    rw [List.filter_eq_self]
    intro p hp
    exact Peer.among_iff.2 ⟨p, hp, rfl⟩
  have hinside : payload.Subperm (g.pool.entries.filter fun p => p.among payload) := by
    have hfilter := hpayload.filter fun p => p.among payload
    rwa [hself] at hfilter
  have hparts := List.filter_append_perm (fun p : Peer => p.among payload) g.pool.entries
  exact (hinside.append hrecipients).trans hparts.subperm

/-- Nobody is drawn twice from a pool that holds nobody twice. -/
theorem nodup_of_subperm {drawn : List Peer} (hdistinct : g.pool.Distinct)
    (h : drawn.Subperm g.pool.entries) : (drawn.map Peer.id).Nodup := by
  obtain ⟨others, hperm, hsublist⟩ := h
  exact (hperm.map Peer.id).nodup_iff.1 (List.Nodup.sublist (hsublist.map Peer.id) hdistinct)

end Global

namespace Session

section

variable {σ : Type} (s : Session σ)

/-- Whom a round of gossip tells of. -/
def payload : List Peer :=
  (s.node.position.global.sample s.node.settings.payloadFraction [] s.words).1

/-- Whom a round of gossip tells. -/
def recipients : List Peer :=
  (s.node.position.global.sample s.node.settings.recipientFraction s.payload
    (s.node.position.global.sample s.node.settings.payloadFraction [] s.words).2).1

theorem payload_subperm : s.payload.Subperm s.node.position.global.pool.entries := by
  rw [← s.node.position.global.eligible_nil]
  exact Global.sample_subperm ..

theorem length_payload :
    s.payload.length = min (Global.share s.node.position.global.pool.size
      s.node.settings.payloadFraction) s.node.position.global.pool.size := by
  rw [Pool.size, ← s.node.position.global.eligible_nil]
  exact Global.length_sample ..

theorem recipients_subperm :
    s.recipients.Subperm (s.node.position.global.eligible s.payload) :=
  Global.sample_subperm ..

end

variable {σ : Type} [Transport σ]

/-- A round with nothing to tell or nobody to tell takes its words, and that is all. -/
theorem gossip_of_nobody {s : Session σ} (h : s.payload = [] ∨ s.recipients = []) :
    ∃ ws, s.gossip = s.withWords ws := by
  have hempty : (s.payload.isEmpty || s.recipients.isEmpty) = true := by simpa using h
  exact ⟨_, if_pos hempty⟩

/-- In any other round the recipients are told of the payload. -/
theorem gossip_of_somebody {s : Session σ} (hpayload : s.payload ≠ [])
    (hrecipients : s.recipients ≠ []) :
    ∃ ws, s.gossip = ((s.withWords ws).tellCandidates s.payload s.recipients).note
      (.gossip s.payload.length s.recipients.length) := by
  have hsome : ¬(s.payload.isEmpty || s.recipients.isEmpty) = true := by
    simp [hpayload, hrecipients]
  exact ⟨_, if_neg hsome⟩

/-- The recipients of a round are told one after another: each over a link of its own, and
whatever became of the others. -/
theorem trace_tellCandidates (s : Session σ) (payload recipients : List Peer) :
    ∃ attempts, recipients.Forall₂
        (fun p seen => Effect.Transient p (.candidates payload) .gossip seen) attempts ∧
      (s.tellCandidates payload recipients).trace = s.trace ++ attempts.flatten := by
  induction recipients generalizing s with
  | nil => exact ⟨[], .nil, by simp [tellCandidates]⟩
  | cons p recipients ih =>
      obtain ⟨seen, htrace, htransient⟩ := s.trace_sendTransient p (.candidates payload) .gossip
      obtain ⟨attempts, hattempts, hlater⟩ := ih (s.sendTransient p (.candidates payload) .gossip)
      refine ⟨seen :: attempts, .cons htransient hattempts, ?_⟩
      rw [htrace, List.append_assoc] at hlater
      exact hlater

/-- **A round of gossip is a sound sample.**  Whatever the pool, the fractions and the words are:
the payload and the recipients are drawn from the pool without repetition, no recipient is in the
payload, and as many are drawn as the fractions make of those who are eligible, which are never
more than are eligible.  The round leaves the node as it is.  It has nothing to tell, or
nobody to tell, and then does nothing; or the recipients are told of the payload in the order in
which they were drawn, once each, over a link that is open for it alone, even if others before
could not be told. -/
theorem gossip_sound (s : Session σ) :
    let g := s.node.position.global
    let settings := s.node.settings
    let rest := (g.eligible s.payload).length
    (s.payload ++ s.recipients).Subperm g.pool.entries ∧
      (g.pool.Distinct → ((s.payload ++ s.recipients).map Peer.id).Nodup) ∧
      (∀ p ∈ s.recipients, p.among s.payload = false) ∧
      s.payload.length = min (Global.share g.pool.size settings.payloadFraction) g.pool.size ∧
      s.recipients.length = min (Global.share rest settings.recipientFraction) rest ∧
      (g.pool.size < 2 ^ 53 →
        Global.share g.pool.size settings.payloadFraction ≤ g.pool.size ∧
          Global.share rest settings.recipientFraction ≤ rest) ∧
      s.gossip.node = s.node ∧
      (s.payload = [] ∨ s.recipients = [] →
        s.gossip.trace = s.trace ∧ s.gossip.outside = s.outside) ∧
      (s.payload ≠ [] → s.recipients ≠ [] →
        ∃ attempts, s.recipients.Forall₂
            (fun p seen => Effect.Transient p (.candidates s.payload) .gossip seen) attempts ∧
          s.gossip.trace = s.trace ++ attempts.flatten ++
            if settings.logEvents then [.noted (.gossip s.payload.length s.recipients.length)]
            else []) := by
  intro g settings rest
  have hall : (s.payload ++ s.recipients).Subperm g.pool.entries :=
    Global.append_subperm s.payload_subperm s.recipients_subperm
  refine ⟨hall, fun hdistinct => Global.nodup_of_subperm hdistinct hall, fun p hp => ?_,
    s.length_payload, Global.length_sample .., fun hsize => ?_, s.node_gossip, fun hnone => ?_,
    fun hpayload hrecipients => ?_⟩
  · exact (Global.mem_eligible.1 (s.recipients_subperm.subset hp)).2
  · have hrest : rest ≤ g.pool.size := List.length_filter_le ..
    exact ⟨Global.share_le hsize _, Global.share_le (hrest.trans_lt hsize) _⟩
  · obtain ⟨ws, hgossip⟩ := gossip_of_nobody hnone
    rw [hgossip]
    exact ⟨rfl, rfl⟩
  · obtain ⟨ws, hgossip⟩ := gossip_of_somebody hpayload hrecipients
    obtain ⟨attempts, hattempts, htrace⟩ :=
      (s.withWords ws).trace_tellCandidates s.payload s.recipients
    refine ⟨attempts, hattempts, ?_⟩
    rw [hgossip, trace_note, htrace, node_tellCandidates]
    rfl

end Session

namespace Rehearsal

/-- A broker that has heard of four others, and tells all those whom it does not tell of. -/
def rumor : Session Directory where
  node := { (Node.start { Settings.standard with recipientFraction := 1.0 } (broker 1 "x")
      still).1 with
    position := { (Node.start .standard (broker 1 "x") still).1.position with
      global := ⟨⟨[broker 4 "w", broker 5 "v", broker 6 "u", broker 2 "y"]⟩, none, 32⟩ } }
  outside := trio
  words := still
  trace := []

/-- Half of the four are told of, and the others told.  The first of these cannot be reached. -/
theorem gossip_sound_of_rumor :
    let payload := [broker 4 "w", broker 5 "v"]
    let recipients := [broker 6 "u", broker 2 "y"]
    ((payload ++ recipients).map Peer.id).Nodup ∧ Global.share 4 0.5 ≤ 4 ∧
      rumor.gossip.node = rumor.node ∧
      ∃ attempts, recipients.Forall₂
          (fun p seen => Effect.Transient p (.candidates payload) .gossip seen) attempts ∧
        rumor.gossip.trace = attempts.flatten ++ [.noted (.gossip 2 2)] := by
  intro payload recipients
  have hpayload : rumor.payload = payload := by decide +kernel
  have hrecipients : rumor.recipients = recipients := by decide +kernel
  have hdistinct : (rumor.node.position.global.pool.entries.map Peer.id).Nodup := by
    decide +kernel
  have hsound := rumor.gossip_sound
  dsimp only at hsound
  rw [hpayload, hrecipients] at hsound
  obtain ⟨-, hnodup, -, -, -, hshare, hnode, -, hround⟩ := hsound
  obtain ⟨attempts, hattempts, htrace⟩ :=
    hround (List.cons_ne_nil _ _) (List.cons_ne_nil _ _)
  exact ⟨hnodup hdistinct, (hshare (by decide)).1, hnode, attempts, hattempts, htrace⟩

end Rehearsal

end BrokerForest
