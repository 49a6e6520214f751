import BrokerForest.Network.Grove
import BrokerForest.Proofs.OperationSpecs
/-!
# The transport of a grove: what a node's deeds put on its way

For each thing that a node does to the transport of a grove this module says what is on its
way to each other node afterwards, and how many references to the link with it there are.
Who the node is and where never changes.

Main statements:

* `Session.post_of_keeps` — a node stays where it is, whatever it does;
* `Session.out_sendAll`, `Session.refs_openLink`, `Session.out_closeLink` and the like — what
  becomes of the berth, one operation at a time;
* `Session.transient_cases` — a message over a link of its own.
-/

namespace BrokerForest

namespace Berth

variable (b : Berth)

@[simp]
theorem toPost_put (v : NodeId) (e : Event) : (b.put v e).toPost = b.toPost := rfl

@[simp]
theorem toPost_count (v : NodeId) (n : Nat) : (b.count v n).toPost = b.toPost := rfl

@[simp]
theorem refs_put (v : NodeId) (e : Event) : (b.put v e).refs = b.refs := rfl

@[simp]
theorem out_count (v : NodeId) (n : Nat) : (b.count v n).out = b.out := rfl

theorem out_put (v w : NodeId) (e : Event) :
    (b.put v e).out w = if w = v then b.out w ++ [e] else b.out w := by
  by_cases h : w = v
  · subst h
    simp [put]
  · simp [put, h]

theorem refs_count (v w : NodeId) (n : Nat) :
    (b.count v n).refs w = if w = v then n else b.refs w := by
  by_cases h : w = v
  · subst h
    simp [count]
  · simp [count, h]

@[simp]
theorem toPost_openLink (url : String) : (b.openLink url).2.toPost = b.toPost := by
  unfold openLink
  split
  · rfl
  · split
    · rfl
    · split
      · rfl
      · dsimp only
        split <;> rfl

@[simp]
theorem toPost_closeLink (p : Peer) : (b.closeLink p).toPost = b.toPost := by
  unfold closeLink
  split <;> rfl

@[simp]
theorem toPost_send (p : Peer) (m : Message) : (b.send p m).2.toPost = b.toPost := by
  unfold send
  split <;> rfl

@[simp]
theorem refs_send (p : Peer) (m : Message) : (b.send p m).2.refs = b.refs := by
  unfold send
  split <;> rfl

theorem out_send (p : Peer) (m : Message) (v : NodeId) :
    (b.send p m).2.out v =
      if v = p.id ∧ b.refs v ≠ 0 then b.out v ++ [.message b.own m] else b.out v := by
  unfold send
  by_cases h : b.refs p.id = 0
  · have hnot : ¬(v = p.id ∧ b.refs v ≠ 0) := by
      rintro ⟨rfl, hne⟩
      exact hne h
    simp [h, hnot]
  · by_cases hv : v = p.id
    · subst hv
      simp [h, out_put]
    · simp [h, hv, out_put]

/-- A message goes out if there is a link. -/
theorem sent_send (p : Peer) (m : Message) : (b.send p m).1 = decide (b.refs p.id ≠ 0) := by
  unfold send
  split <;> simp_all

theorem refs_closeLink (p : Peer) (v : NodeId) :
    (b.closeLink p).refs v = if v = p.id then b.refs v - 1 else b.refs v := by
  unfold closeLink
  by_cases hv : v = p.id
  · subst hv
    split <;> simp_all [refs_count]
  · split <;> simp [hv, refs_count]

theorem out_closeLink (p : Peer) (v : NodeId) :
    (b.closeLink p).out v =
      if v = p.id ∧ b.refs v = 1 then b.out v ++ [.closed b.own] else b.out v := by
  unfold closeLink
  by_cases hv : v = p.id
  · subst hv
    split <;> simp_all [out_put, count]
  · split <;> simp [hv, out_put]

/-- Without a link nothing is sent. -/
theorem send_of_refs_zero {p : Peer} (h : b.refs p.id = 0) (m : Message) :
    b.send p m = (false, b) := by
  simp [send, h]

/-- Without a link there is none to close. -/
theorem closeLink_of_refs_zero {p : Peer} (h : b.refs p.id = 0) : b.closeLink p = b := by
  simp [closeLink, h]

/-- The berth with another reference to a link. -/
def link (p : Peer) : Berth :=
  if b.refs p.id = 0 then (b.count p.id 1).put p.id (.opened b.own)
  else b.count p.id (b.refs p.id + 1)

@[simp]
theorem toPost_link (p : Peer) : (b.link p).toPost = b.toPost := by
  unfold link
  split <;> rfl

theorem refs_link (p : Peer) (v : NodeId) :
    (b.link p).refs v = if v = p.id then b.refs v + 1 else b.refs v := by
  unfold link
  by_cases hv : v = p.id
  · subst hv
    split <;> simp_all [refs_count]
  · split <;> simp [hv, refs_count]

theorem out_link (p : Peer) (v : NodeId) :
    (b.link p).out v =
      if v = p.id ∧ b.refs v = 0 then b.out v ++ [.opened b.own] else b.out v := by
  unfold link
  by_cases hv : v = p.id
  · subst hv
    split <;> simp_all [out_put, count]
  · split <;> simp [hv, out_put]

theorem refs_transient (q : Peer) (m : Message) (v : NodeId) :
    (((b.link q).send q m).2.closeLink q).refs v = b.refs v := by
  rw [refs_closeLink, refs_send, refs_link]
  by_cases hv : v = q.id <;> simp [hv]

theorem out_transient (q : Peer) (m : Message) (v : NodeId) :
    (((b.link q).send q m).2.closeLink q).out v =
      if v ≠ q.id then b.out v
      else if b.refs v = 0 then b.out v ++ [.opened b.own] ++ [.message b.own m] ++ [.closed b.own]
      else b.out v ++ [.message b.own m] := by
  have hown : (b.link q).own = b.own := congrArg Post.own (b.toPost_link q)
  have hown' : ((b.link q).send q m).2.own = b.own := by
    rw [congrArg Post.own ((b.link q).toPost_send q m), hown]
  rw [out_closeLink, out_send, refs_send, refs_link, out_link, hown, hown']
  by_cases hv : v = q.id
  · by_cases hrefs : b.refs v = 0 <;> simp_all
  · simp [hv]

/-- A URL that leads to another node that lives opens a link to it. -/
theorem openLink_of_resolve {url : String} {p : Peer} (hp : b.atlas.resolve url = some p)
    (hne : p.id ≠ b.own.id) (halive : b.alive p.id = true) :
    ((b.openLink url).1 = .ok p ∨ (b.openLink url).1 = .error (.alreadyLinked p)) ∧
      (b.openLink url).2 = b.link p := by
  have hown : p.same b.own = false := by simpa [Peer.same] using hne
  unfold openLink link
  by_cases hrefs : b.refs p.id = 0
  · exact ⟨Or.inl (by simp [hp, halive, hown, hrefs]), by simp [hp, halive, hown, hrefs]⟩
  · exact ⟨Or.inr (by simp [hp, halive, hown, hrefs]), by simp [hp, halive, hown, hrefs]⟩

/-- A URL leads to nobody who lives, to the node itself, or to another, and then there is one
more reference to the link with it. -/
theorem openLink_cases (url : String) :
    (∃ error, (b.openLink url).1 = .error (.refused error) ∧ (b.openLink url).2 = b) ∨
      ∃ p, b.atlas.resolve url = some p ∧
        ((b.openLink url).1 = .ok p ∨ (b.openLink url).1 = .error (.alreadyLinked p)) ∧
          (p.id = b.own.id ∧ (b.openLink url).2 = b ∨
            p.id ≠ b.own.id ∧ b.alive p.id = true ∧ (b.openLink url).2 = b.link p) := by
  cases hp : b.atlas.resolve url with
  | none => exact Or.inl ⟨url, by simp [openLink, hp], by simp [openLink, hp]⟩
  | some p =>
      cases halive : b.alive p.id with
      | false => exact Or.inl ⟨url, by simp [openLink, hp, halive], by simp [openLink, hp, halive]⟩
      | true =>
          refine Or.inr ⟨p, rfl, ?_⟩
          by_cases hown : p.id = b.own.id
          · have hsame : p.same b.own = true := Peer.same_iff.2 hown
            exact ⟨Or.inl (by simp [openLink, hp, halive, hsame]),
              Or.inl ⟨hown, by simp [openLink, hp, halive, hsame]⟩⟩
          · obtain ⟨hresult, hlink⟩ := b.openLink_of_resolve hp hown halive
            exact ⟨hresult, Or.inr ⟨hown, halive, hlink⟩⟩

/-- What an effect does to the berth leaves the node where it is. -/
theorem toPost_follow (e : Effect) : (e.follow b).toPost = b.toPost := by
  cases e with
  | opened url result => exact b.toPost_openLink url
  | closed p => exact b.toPost_closeLink p
  | sent p m traffic delivered => exact b.toPost_send p m
  | noted notice => rfl
  | paused n => rfl
  | ended outcome => rfl

theorem toPost_foldl (later : List Effect) : (later.foldl Effect.follow b).toPost = b.toPost := by
  induction later generalizing b with
  | nil => rfl
  | cons e rest ih => exact (ih (e.follow b)).trans (b.toPost_follow e)

/-- What an effect puts on its way. -/
theorem mem_out_follow {rule : Conduct} {e : Effect} (hrule : rule.Allows e) {v : NodeId}
    {event : Event} (h : event ∈ (e.follow b).out v) :
    event ∈ b.out v ∨ event = .opened b.own ∨ event = .closed b.own ∨
      ∃ peer m delivered, event = .message b.own m ∧ rule.sends peer m delivered := by
  cases e with
  | opened url result =>
      change event ∈ (b.openLink url).2.out v at h
      rcases b.openLink_cases url with ⟨_, _, hb⟩ | ⟨p, _, _, ⟨_, hb⟩ | ⟨_, _, hb⟩⟩
      · exact Or.inl (by rwa [hb] at h)
      · exact Or.inl (by rwa [hb] at h)
      · rw [hb, out_link] at h
        split at h
        · rcases List.mem_append.1 h with h | h
          · exact Or.inl h
          · exact Or.inr (Or.inl (by simpa using h))
        · exact Or.inl h
  | closed p =>
      change event ∈ (b.closeLink p).out v at h
      rw [out_closeLink] at h
      split at h
      · rcases List.mem_append.1 h with h | h
        · exact Or.inl h
        · exact Or.inr (Or.inr (Or.inl (by simpa using h)))
      · exact Or.inl h
  | sent p m traffic delivered =>
      change event ∈ (b.send p m).2.out v at h
      rw [out_send] at h
      split at h
      · rcases List.mem_append.1 h with h | h
        · exact Or.inl h
        · exact Or.inr (Or.inr (Or.inr ⟨p, m, delivered, by simpa using h, hrule⟩))
      · exact Or.inl h
  | noted notice => exact Or.inl h
  | paused n => exact Or.inl h
  | ended outcome => exact Or.inl h

theorem mem_out_foldl {rule : Conduct} {later : List Effect} (hrule : ∀ e ∈ later, rule.Allows e)
    {v : NodeId} {event : Event} (h : event ∈ (later.foldl Effect.follow b).out v) :
    event ∈ b.out v ∨ event = .opened b.own ∨ event = .closed b.own ∨
      ∃ peer m delivered, event = .message b.own m ∧ rule.sends peer m delivered := by
  induction later generalizing b with
  | nil => exact Or.inl h
  | cons e rest ih =>
      have hown : (e.follow b).own = b.own := congrArg Post.own (b.toPost_follow e)
      have hrest := ih (e.follow b) (fun e' he' => hrule e' (by simp [he'])) h
      rw [hown] at hrest
      rcases hrest with hold | hnew
      · exact b.mem_out_follow (hrule e (by simp)) hold
      · exact Or.inr hnew

end Berth

namespace Session

section

variable {σ : Type} (s : Session σ)

/-! What becomes of the node itself, and what it reports, does nothing to the world. -/

@[simp] theorem outside_see (e : Effect) : (s.see e).outside = s.outside := rfl

@[simp] theorem outside_withNode (n : Node) : (s.withNode n).outside = s.outside := rfl

@[simp] theorem outside_withPosition (p : Position) : (s.withPosition p).outside = s.outside := rfl

@[simp] theorem outside_withWords (ws : Words) : (s.withWords ws).outside = s.outside := rfl

@[simp] theorem outside_note (notice : Notice) : (s.note notice).outside = s.outside := by
  unfold note
  split <;> rfl

@[simp] theorem outside_pause (length : Option Nat) : (s.pause length).outside = s.outside := by
  cases length <;> rfl

@[simp] theorem outside_finish (outcome : Outcome) : (s.finish outcome).outside = s.outside := rfl

@[simp] theorem outside_queue (errand : Errand) : (s.queue errand).outside = s.outside := rfl

@[simp] theorem outside_startConnector : s.startConnector.outside = s.outside := rfl

@[simp] theorem outside_dropConnector : s.dropConnector.outside = s.outside := rfl

@[simp] theorem outside_hold (holder : Holder) : (s.hold holder).outside = s.outside := rfl

@[simp] theorem outside_release : s.release.outside = s.outside := rfl

@[simp] theorem outside_withMailbox (mailbox : Mailbox) :
    (s.withMailbox mailbox).outside = s.outside := rfl

end

variable (s : Session Berth)

@[simp]
theorem outside_tell (p : Peer) (m : Message) :
    (s.tell p m).outside = (s.outside.send p m).2 := rfl

@[simp]
theorem outside_send (p : Peer) (m : Message) (traffic : TrafficClass) :
    (s.send p m traffic).2.outside = (s.outside.send p m).2 := rfl

theorem sent_send (p : Peer) (m : Message) (traffic : TrafficClass) :
    (s.send p m traffic).1 = decide (s.outside.refs p.id ≠ 0) :=
  s.outside.sent_send p m

/-- What opening a link does to the berth. -/
@[simp]
theorem outside_openLink (url : String) :
    (s.openLink url).2.outside = (s.outside.openLink url).2 := by
  have hopen : Transport.openLink url s.outside = s.outside.openLink url := rfl
  generalize s.outside.openLink url = opened at hopen ⊢
  obtain ⟨result, outside⟩ := opened
  simp only [openLink, hopen]
  split <;> rfl

@[simp]
theorem outside_closeLink (p : Peer) : (s.closeLink p).outside = s.outside.closeLink p := rfl

/-- Opening a link fails, leads back to the node, or takes a reference. -/
theorem openLink_cases (url : String) :
    (∃ error, (s.openLink url).1 = .error error ∧ (s.openLink url).2.outside = s.outside) ∨
      ∃ p, s.outside.atlas.resolve url = some p ∧ (s.openLink url).1 = .ok p ∧
        (p.id = s.outside.own.id ∧ (s.openLink url).2.outside = s.outside ∨
          p.id ≠ s.outside.own.id ∧ s.outside.alive p.id = true ∧
            (s.openLink url).2.outside = s.outside.link p) := by
  have hcases := s.outside.openLink_cases url
  have hopen : Transport.openLink url s.outside = s.outside.openLink url := rfl
  generalize s.outside.openLink url = opened at hcases hopen
  obtain ⟨result, outside⟩ := opened
  rcases hcases with ⟨error, hresult, houtside⟩ | ⟨p, hp, hresult, houtside⟩
  · cases hresult
    exact Or.inl ⟨.refused error, by simp [openLink, hopen],
      by simpa [openLink, hopen] using houtside⟩
  · refine Or.inr ⟨p, hp, ?_, ?_⟩
    · rcases hresult with rfl | rfl <;> simp [openLink, hopen]
    · rcases hresult with rfl | rfl <;> simpa [openLink, hopen] using houtside

/-- A message over a link of its own is lost, or takes a reference to a link with another
node that lives, and releases it again. -/
theorem transient_cases {s : Session Berth} (h : s.outside.refs s.outside.own.id = 0) (p : Peer)
    (m : Message) (traffic : TrafficClass) :
    (s.sendTransient p m traffic).outside = s.outside ∨
      ∃ q, q.id ≠ s.outside.own.id ∧ s.outside.alive q.id = true ∧
        (s.sendTransient p m traffic).outside =
          (((s.outside.link q).send q m).2.closeLink q) := by
  unfold sendTransient launch
  cases p.primaryUrl with
  | none => exact Or.inl rfl
  | some url =>
      have hopen := s.openLink_cases url
      dsimp only
      generalize s.openLink url = opened at hopen
      obtain ⟨result, t⟩ := opened
      rcases hopen with ⟨error, hresult, ht⟩ | ⟨q, _, hresult, hq⟩
      · cases hresult
        exact Or.inl ht
      · cases hresult
        rcases hq with ⟨hown, ht⟩ | ⟨hne, halive, ht⟩
        · left
          have hrefs : s.outside.refs q.id = 0 := by rw [hown, h]
          change t.outside = s.outside at ht
          simp only [land, outside_closeLink, outside_send, ht]
          rw [s.outside.send_of_refs_zero hrefs, s.outside.closeLink_of_refs_zero hrefs]
        · right
          change t.outside = s.outside.link q at ht
          exact ⟨q, hne, halive, by simp only [land, outside_closeLink, outside_send, ht]⟩

@[simp]
theorem toPost_sendAll (peers : List Peer) (m : Message) :
    (s.sendAll peers m).outside.toPost = s.outside.toPost := by
  induction peers generalizing s with
  | nil => rfl
  | cons p rest ih => exact (ih (s.tell p m)).trans (by simp)

@[simp]
theorem own_sendAll (peers : List Peer) (m : Message) :
    (s.sendAll peers m).outside.own = s.outside.own :=
  congrArg Post.own (s.toPost_sendAll peers m)

@[simp]
theorem refs_sendAll (peers : List Peer) (m : Message) :
    (s.sendAll peers m).outside.refs = s.outside.refs := by
  induction peers generalizing s with
  | nil => rfl
  | cons p rest ih => exact (ih (s.tell p m)).trans (by simp)

/-- A message to several peers is on its way to each that is linked. -/
theorem out_sendAll {peers : List Peer} (hdistinct : (peers.map Peer.id).Nodup) (m : Message)
    (v : NodeId) :
    (s.sendAll peers m).outside.out v =
      if v ∈ peers.map Peer.id ∧ s.outside.refs v ≠ 0 then
        s.outside.out v ++ [.message s.outside.own m]
      else s.outside.out v := by
  induction peers generalizing s with
  | nil => simp [sendAll]
  | cons p rest ih =>
      rw [List.map_cons, List.nodup_cons] at hdistinct
      have hown : (s.tell p m).outside.own = s.outside.own :=
        congrArg Post.own (s.outside.toPost_send p m)
      have hrefs : (s.tell p m).outside.refs = s.outside.refs := s.outside.refs_send p m
      change ((s.tell p m).sendAll rest m).outside.out v = _
      rw [ih (s.tell p m) hdistinct.2, hown, hrefs, outside_tell, Berth.out_send]
      by_cases hv : v = p.id
      · subst hv
        simp [hdistinct.1]
      · simp [hv]

/-- A node stays where it is, whatever it does. -/
theorem post_of_keeps {s t : Session Berth} {rule : Conduct} (h : s.Keeps rule t) :
    t.outside.toPost = s.outside.toPost := by
  obtain ⟨later, _, houtside, _⟩ := h
  rw [houtside]
  exact Berth.toPost_foldl s.outside later

/-- What is on its way after some work was so before, or is the opening or closing of a link,
or a message that a rule allows which the node kept to. -/
theorem mem_out_of_keeps {s t : Session Berth} {rule : Conduct} (h : s.Keeps rule t) {v : NodeId}
    {e : Event} (he : e ∈ t.outside.out v) :
    e ∈ s.outside.out v ∨ e = .opened s.outside.own ∨ e = .closed s.outside.own ∨
      ∃ peer m delivered, e = .message s.outside.own m ∧ rule.sends peer m delivered := by
  obtain ⟨later, _, houtside, hrule⟩ := h
  rw [houtside] at he
  exact Berth.mem_out_foldl s.outside hrule he

end Session

end BrokerForest
