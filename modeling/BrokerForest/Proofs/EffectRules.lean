import BrokerForest.Session
/-!
# Rules for effects: what a node opens and sends while it works

Many facts about a node at work say of all its effects that they keep to some rule: it
opens links to certain URLs only, or sends certain messages only.  A rule is stated once,
and that a piece of work keeps to it is put together from its parts.

Main statements:

* `Conduct`, `Session.Keeps` — a rule, and that the node keeps to it between two sessions;
* `Session.Keeps.trans` — keeping to a rule goes on from one piece of work to the next;
* `Session.keeps_openLink`, `Session.keeps_send`, `Session.keeps_sendAll`,
  `Session.keeps_sendTransient` — what each operation needs of the rule.
-/

namespace BrokerForest

/-- A rule for the links that a node opens and the messages that it sends.  The rule for a
message may depend on whether it went out. -/
structure Conduct where
  opens : String → Prop
  sends : Peer → Message → Bool → Prop

/-- The rule that allows everything. -/
def Conduct.free : Conduct := ⟨fun _ => True, fun _ _ _ => True⟩

/-- Whether a rule allows an effect. -/
def Conduct.Allows (rule : Conduct) : Effect → Prop
  | .opened url _ => rule.opens url
  | .sent peer message _ delivered => rule.sends peer message delivered
  | .closed _ | .noted _ | .paused _ | .ended _ => True

/-- The world outside after an effect. -/
def Effect.follow {σ : Type} [Transport σ] (world : σ) : Effect → σ
  | .opened url _ => (Transport.openLink url world).2
  | .closed peer => Transport.closeLink peer world
  | .sent peer message traffic _ => (Transport.send peer message traffic world).2
  | .noted _ | .paused _ | .ended _ => world

namespace Session

variable {σ : Type} {rule : Conduct} {s t u : Session σ}

/-- What was seen of the node since a session. -/
def since (s t : Session σ) : List Effect := t.trace.drop s.trace.length

theorem since_of_trace_eq {later : List Effect} (h : t.trace = s.trace ++ later) :
    s.since t = later := by
  simp [since, h]

variable [Transport σ]

/-- All that was seen of the node between two sessions keeps to a rule, and nothing else was
done to the world outside. -/
def Keeps (rule : Conduct) (s t : Session σ) : Prop :=
  ∃ later, t.trace = s.trace ++ later ∧ t.outside = later.foldl Effect.follow s.outside ∧
    ∀ e ∈ later, rule.Allows e

/-- A node that did nothing to the world outside keeps to every rule. -/
theorem keeps_of_eq (htrace : t.trace = s.trace) (houtside : t.outside = s.outside) :
    s.Keeps rule t :=
  ⟨[], by simp [htrace], houtside, by simp⟩

/-- Doing nothing keeps to every rule. -/
@[simp]
theorem Keeps.refl (s : Session σ) : s.Keeps rule s := keeps_of_eq rfl rfl

/-- Keeping to a rule goes on from one piece of work to the next. -/
theorem Keeps.trans (hst : s.Keeps rule t) (htu : t.Keeps rule u) : s.Keeps rule u := by
  obtain ⟨es, hes, hfollow, hrule⟩ := hst
  obtain ⟨fs, hfs, hfollow', hrule'⟩ := htu
  refine ⟨es ++ fs, by rw [hfs, hes, List.append_assoc], ?_, ?_⟩
  · rw [hfollow', hfollow, List.foldl_append]
  · intro e he
    rcases List.mem_append.mp he with he | he
    · exact hrule e he
    · exact hrule' e he

/-- Whoever keeps to a rule keeps to one that allows more. -/
theorem Keeps.mono {looser : Conduct} (h : s.Keeps rule t)
    (hallows : ∀ e, rule.Allows e → looser.Allows e) : s.Keeps looser t := by
  obtain ⟨later, htrace, hfollow, hrule⟩ := h
  exact ⟨later, htrace, hfollow, fun e he => hallows e (hrule e he)⟩

/-- What was seen while the node kept to a rule was allowed. -/
theorem Keeps.allows (h : s.Keeps rule t) {e : Effect} (he : e ∈ s.since t) : rule.Allows e := by
  obtain ⟨later, hlater, _, hrule⟩ := h
  rw [since_of_trace_eq hlater] at he
  exact hrule e he

/-- Seeing one more effect, and what it makes of the world outside, keeps to a rule that
allows it. -/
theorem keeps_see {e : Effect} (s : Session σ) (h : rule.Allows e) :
    s.Keeps rule ({ s with outside := e.follow s.outside }.see e) :=
  ⟨[e], rfl, rfl, by simpa using h⟩

/-- Reporting keeps to every rule. -/
@[simp]
theorem keeps_note (s : Session σ) (notice : Notice) : s.Keeps rule (s.note notice) := by
  unfold note
  split
  · exact keeps_see (e := .noted notice) s trivial
  · exact .refl s

/-- Pausing keeps to every rule. -/
@[simp]
theorem keeps_pause (s : Session σ) (length : Option Nat) : s.Keeps rule (s.pause length) := by
  cases length with
  | none => exact .refl s
  | some n => exact keeps_see (e := .paused n) s trivial

/-- Finishing keeps to every rule. -/
@[simp]
theorem keeps_finish (s : Session σ) (outcome : Outcome) : s.Keeps rule (s.finish outcome) :=
  keeps_see (e := .ended outcome) s trivial

/-- What becomes of the node itself is no effect. -/
@[simp]
theorem keeps_withNode (s : Session σ) (n : Node) : s.Keeps rule (s.withNode n) :=
  keeps_of_eq rfl rfl

/-- Where the node comes to stand is no effect. -/
@[simp]
theorem keeps_withPosition (s : Session σ) (p : Position) : s.Keeps rule (s.withPosition p) :=
  keeps_of_eq rfl rfl

/-- Taking words is no effect. -/
@[simp]
theorem keeps_withWords (s : Session σ) (ws : Words) : s.Keeps rule (s.withWords ws) :=
  keeps_of_eq rfl rfl

/-- Opening a link keeps to a rule that allows its URL. -/
theorem keeps_openLink (s : Session σ) {url : String} (h : rule.opens url) :
    s.Keeps rule (s.openLink url).2 := by
  rcases ho : Transport.openLink url s.outside with ⟨result, outside⟩
  have hsee := @keeps_see _ rule _ (.opened url result) s h
  simp only [Effect.follow, ho] at hsee
  simp only [openLink, ho]
  split <;> exact hsee

/-- Closing a link keeps to every rule. -/
@[simp]
theorem keeps_closeLink (s : Session σ) (peer : Peer) : s.Keeps rule (s.closeLink peer) :=
  keeps_see (e := .closed peer) s trivial

/-- Sending a message keeps to a rule that allows it with what becomes of it. -/
theorem keeps_send (s : Session σ) {peer : Peer} {message : Message} {traffic : TrafficClass}
    (h : rule.sends peer message (s.send peer message traffic).1) :
    s.Keeps rule (s.send peer message traffic).2 :=
  keeps_see (e := .sent peer message traffic (s.send peer message traffic).1) s h

/-- Telling a peer something keeps to a rule that allows it. -/
theorem keeps_tell (s : Session σ) {peer : Peer} {message : Message}
    (h : ∀ delivered, rule.sends peer message delivered) :
    s.Keeps rule (s.tell peer message) :=
  keeps_send s (h _)

/-- Telling several peers something keeps to a rule that allows it for each. -/
theorem keeps_sendAll (s : Session σ) {peers : List Peer} {message : Message}
    (h : ∀ peer ∈ peers, ∀ delivered, rule.sends peer message delivered) :
    s.Keeps rule (s.sendAll peers message) := by
  induction peers generalizing s with
  | nil => exact .refl s
  | cons peer rest ih =>
      have hpeer := keeps_tell s (h peer (by simp))
      exact hpeer.trans (ih (s.tell peer message) fun p hp => h p (by simp [hp]))

/-- Releasing what a message was launched over keeps to every rule. -/
@[simp]
theorem keeps_land (s : Session σ) (linked : Option Peer) : s.Keeps rule (s.land linked) := by
  cases linked with
  | none => exact .refl s
  | some peer => exact keeps_closeLink s peer

/-- Launching a message keeps to a rule that allows the link, and the message over it. -/
theorem keeps_launch (s : Session σ) {peer : Peer} {message : Message} {traffic : TrafficClass}
    (ho : ∀ url, peer.primaryUrl = some url → rule.opens url)
    (hs : ∀ linked delivered, rule.sends linked message delivered) :
    s.Keeps rule (s.launch peer message traffic).2 := by
  unfold launch
  split
  · exact .refl s
  · rename_i url hurl
    have hopen := keeps_openLink s (ho url hurl)
    split
    · rename_i heq
      rwa [heq] at hopen
    · rename_i linked s' heq
      rw [heq] at hopen
      exact hopen.trans (keeps_send s' (hs linked _))

/-- A message over a link of its own keeps to a rule that allows the link, and the message
over it. -/
theorem keeps_sendTransient (s : Session σ) {peer : Peer} {message : Message}
    {traffic : TrafficClass}
    (ho : ∀ url, peer.primaryUrl = some url → rule.opens url)
    (hs : ∀ linked delivered, rule.sends linked message delivered) :
    s.Keeps rule (s.sendTransient peer message traffic) :=
  (keeps_launch s ho hs).trans (keeps_land _ _)

end Session

end BrokerForest
