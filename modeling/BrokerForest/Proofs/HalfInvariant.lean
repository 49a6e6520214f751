import BrokerForest.Network.Grove
import BrokerForest.Proofs.DepthOrder
/-!
# The half invariant: two nodes and what is on its way between them

Two nodes never see each other: each has an idea of the other, and what it sent is on its
way.  The two ideas need not agree while something is on its way, but what is on its way
makes good for the difference: if a node has a father that does not have it for a child,
then the loss of that father is on its way to it, and all that the father has become since
it was last heard of is told by what is on its way.

Main statements:

* `Stance` — what one node's state says about another;
* `News` — what becomes of a rank by the news that are on their way;
* `HalfInvariant` — the one side of what holds between two nodes;
* `HalfInvariant.sent`, `HalfInvariant.heard`, `HalfInvariant.arrived`,
  `HalfInvariant.informed`, `HalfInvariant.replied`, `HalfInvariant.popped` —
  what is put on its way or experienced, at either end, preserves it.
-/

namespace BrokerForest

/-! ## What events are about -/

/-- What an event is about, as far as it matters between two nodes. -/
inductive Matter where
  | loss
  | request
  | response
  | news
  /-- Nothing that matters. -/
  | idle
deriving DecidableEq

namespace Event

/-- What an event is about. -/
def matter : Event → Matter
  | .message _ (.request _) => .request
  | .message _ (.response _) => .response
  | .message _ (.siblingDead _) | .message _ (.update _) | .message _ (.newSibling _) => .news
  | .message _ (.candidates _) | .message _ (.goodCandidate _) | .opened _ => .idle
  | .message _ .noLongerChild | .closed _ | .dead _ => .loss

/-- Whether an event tells of no other depth than a given one. -/
def restates (depth : Depth) : Event → Bool
  | .message _ (.siblingDead news) => news.rank.depth = depth
  | e => e.matter ≠ .news

theorem restates_of_not_news {e : Event} (depth : Depth) (h : e.matter ≠ .news) :
    e.restates depth = true := by
  unfold restates
  split
  · simp [matter] at h
  · simpa using h

end Event

/-- The rank of a father, if a response accepts. -/
def Response.grant? (r : Response) : Option Rank :=
  match r.answer with
  | .accepted _ => some r.rank
  | .refused _ => none

/-- The rank of a father, if an event brings its acceptance. -/
def Event.grant? : Event → Option Rank
  | .message _ (.response response) => response.grant?
  | _ => none

theorem Event.grant?_eq_none {e : Event} (h : e.matter ≠ .response) : e.grant? = none := by
  unfold grant?
  split
  · simp [matter] at h
  · rfl

/-! ## What is on its way -/

section

variable (queue later : List Event) (e : Event)

/-- Whether something about a matter is on its way. -/
def carries (m : Matter) : Bool := queue.any fun e => e.matter = m

/-- Whether all news on their way tell of one depth. -/
def Restates (depth : Depth) : Bool := queue.all (Event.restates depth)

@[simp] theorem carries_nil (m : Matter) : carries [] m = false := rfl

@[simp] theorem carries_cons (m : Matter) :
    carries (e :: later) m = (decide (e.matter = m) || carries later m) := rfl

@[simp] theorem carries_append (m : Matter) :
    carries (queue ++ later) m = (carries queue m || carries later m) :=
  List.any_append

@[simp] theorem restates_nil (depth : Depth) : Restates [] depth = true := rfl

@[simp] theorem restates_cons (depth : Depth) :
    Restates (e :: later) depth = (e.restates depth && Restates later depth) := rfl

@[simp] theorem restates_append (depth : Depth) :
    Restates (queue ++ later) depth = (Restates queue depth && Restates later depth) :=
  List.all_append

/-- Whether nothing on its way takes back a request before it, or answers one again. -/
def Tidy : List Event → Bool
  | [] => true
  | e :: later =>
    (e.matter ≠ .request || !(carries later .loss || carries later .request)) &&
      (e.matter ≠ .response || !carries later .response) && Tidy later

theorem tidy_append :
    Tidy (queue ++ later) =
      (Tidy queue && Tidy later &&
        (!carries queue .request || !(carries later .loss || carries later .request)) &&
          (!carries queue .response || !carries later .response)) := by
  induction queue with
  | nil => simp [Tidy]
  | cons e rest ih =>
      simp only [List.cons_append, Tidy, carries_append, carries_cons, ih]
      grind

/-- The rank of a father that accepts a node, if its acceptance is on its way or was
delivered. -/
def grant (taken : Option Response) (queue : List Event) : Option Rank :=
  (queue.findSome? Event.grant?).or (taken.bind Response.grant?)

variable {queue later e}

theorem restates_of_not_news (depth : Depth) (h : carries queue .news = false) :
    Restates queue depth = true := by
  induction queue with
  | nil => rfl
  | cons e rest ih =>
      simp only [carries_cons, Bool.or_eq_false_iff] at h
      rw [restates_cons, Event.restates_of_not_news depth (by simpa using h.1), ih h.2]
      rfl

@[simp] theorem grant_nil (taken : Option Response) :
    grant taken [] = taken.bind Response.grant? := rfl

@[simp] theorem grant_cons (taken : Option Response) :
    grant taken (e :: later) = (e.grant?).or (grant taken later) := by
  cases h : e.grant? <;> simp [grant, h]

/-- Only a response brings an acceptance. -/
theorem findSome?_grant?_of_not_response (h : carries queue .response = false) :
    queue.findSome? Event.grant? = none := by
  simp only [carries, List.any_eq_false, decide_eq_true_eq] at h
  exact List.findSome?_eq_none_iff.2 fun e he => Event.grant?_eq_none (h e he)

@[simp] theorem grant_append (taken : Option Response) (h : carries later .response = false) :
    grant taken (queue ++ later) = grant taken queue := by
  simp [grant, List.findSome?_append, findSome?_grant?_of_not_response h]

theorem grant_concat (taken : Option Response) (h : carries queue .response = false) :
    grant taken (queue ++ [e]) = (e.grant?).or (grant taken queue) := by
  cases he : e.grant? <;>
    simp [grant, List.findSome?_append, findSome?_grant?_of_not_response h, he]

/-- What is put on its way takes no acceptance back. -/
theorem grant_isSome_append {taken : Option Response} (h : (grant taken queue).isSome = true) :
    (grant taken (queue ++ later)).isSome = true := by
  simp only [grant, List.findSome?_append, Option.isSome_or, Bool.or_eq_true] at h ⊢
  exact h.imp_left Or.inl

/-- Where no response is on its way, an acceptance was delivered or there is none. -/
theorem grant_of_not_response (taken : Option Response) (h : carries queue .response = false) :
    grant taken queue = taken.bind Response.grant? := by
  simp [grant, findSome?_grant?_of_not_response h]

end

/-- What a node's father is to become by the news on their way to it, starting from what the
node takes it for.  After a loss nothing matters any more. -/
def News (self : Peer) (goal : Rank → Prop) : List Event → Rank → Prop
  | [], rank => goal rank
  | e :: later, rank =>
    e.matter = .loss ∨
      match e with
      | .message _ (.update news) => News self goal later news.rank
      | .message _ (.newSibling news) =>
        news.sibling.same self = false ∧
          (news.rank.depth = rank.depth ∨ news.rank.depth < rank.depth) ∧
            News self goal later ⟨rank.color, news.rank.depth⟩
      | .message _ (.siblingDead news) =>
        (news.rank.depth = rank.depth ∨ news.rank.depth < rank.depth) ∧
          News self goal later ⟨rank.color, news.rank.depth⟩
      | _ => News self goal later rank

section

variable {self : Peer} {goal goal' : Rank → Prop} {queue later : List Event} {rank : Rank}
  {e : Event}

theorem news_append :
    News self goal (queue ++ later) rank ↔ News self (News self goal later) queue rank := by
  induction queue generalizing rank with
  | nil => rfl
  | cons e rest ih =>
      simp only [List.cons_append, News]
      split <;> simp only [ih]

theorem News.mono (h : News self goal queue rank) (himp : ∀ r, goal r → goal' r) :
    News self goal' queue rank := by
  induction queue generalizing rank with
  | nil => exact himp rank h
  | cons e rest ih =>
      simp only [News] at h ⊢
      rcases h with h | h
      · exact Or.inl h
      · right
        split at h
        · exact ih h
        · exact ⟨h.1, h.2.1, ih h.2.2⟩
        · exact ⟨h.1, ih h.2⟩
        · exact ih h

/-- What is to come after a loss does not matter. -/
theorem News.of_loss (h : News self goal queue rank) (hloss : carries queue .loss = true) :
    News self goal' queue rank := by
  induction queue generalizing rank with
  | nil => simp at hloss
  | cons e rest ih =>
      simp only [News, carries_cons, Bool.or_eq_true, decide_eq_true_eq] at h hloss ⊢
      by_cases he : e.matter = .loss
      · exact Or.inl he
      · have hrest : carries rest .loss = true := by simpa [he] using hloss
        simp only [he, false_or] at h ⊢
        split at h
        · exact ih h hrest
        · exact ⟨h.1, h.2.1, ih h.2.2 hrest⟩
        · exact ⟨h.1, ih h.2 hrest⟩
        · exact ih h hrest

/-- Events that are no news change nothing. -/
theorem news_cons_of_not_news (hnews : e.matter ≠ .news) (hloss : e.matter ≠ .loss) :
    News self goal (e :: later) rank ↔ News self goal later rank := by
  rcases e with ⟨origin, message⟩ | _ | _ | _
  · cases message <;> simp_all [News, Event.matter]
  all_goals simp_all [News, Event.matter]

theorem news_concat_of_not_news (hnews : e.matter ≠ .news) (hloss : e.matter ≠ .loss) :
    News self goal (queue ++ [e]) rank ↔ News self goal queue rank := by
  rw [news_append]
  have hone : ∀ r, News self goal [e] r ↔ goal r := fun r => news_cons_of_not_news hnews hloss
  exact ⟨fun h => h.mono fun r => (hone r).1, fun h => h.mono fun r => (hone r).2⟩

/-- News that restate a depth change nothing. -/
theorem news_of_restates (h : Restates queue rank.depth = true) :
    News self (· = rank) queue rank := by
  induction queue with
  | nil => rfl
  | cons e rest ih =>
      simp only [restates_cons, Bool.and_eq_true] at h
      have hrest := ih h.2
      simp only [News]
      right
      split
      · simp [Event.restates, Event.matter] at h
      · simp [Event.restates, Event.matter] at h
      · rename_i news
        have hdepth : news.rank.depth = rank.depth := by simpa [Event.restates] using h.1
        exact ⟨Or.inl hdepth, by rw [hdepth]; exact hrest⟩
      · exact hrest

end

/-! ## Two nodes -/

/-- How a node stands towards another. -/
structure Stance where
  /-- Whether the other is among its brokers. -/
  has : Bool
  /-- Whether the other is its father. -/
  under : Bool
  rank : Rank
  /-- The depth that the other last told of, if it is the father. -/
  floor : Option Depth
  /-- Whether it holds a reference to the link with the other that is not for a neighbor. -/
  links : Bool
  /-- Whether it waits for an answer of the other. -/
  awaits : Bool
  /-- The response of the other that was delivered. -/
  taken : Option Response
  /-- Whether it looks for a father. -/
  engaged : Bool
  /-- Whether that is a search after the loss of the other. -/
  shuns : Bool

/-- What holds of a node and another, the one with an inbox from the other and the other
with one from it. -/
structure HalfInvariant (p : Peer) (a b : Stance) (inbox outbox : List Event) : Prop where
  beside : a.under = true → a.has = true
  oneway : a.under = true → b.under = false
  -- What the father has become since it was last heard of is on its way.
  told : a.under = true →
    ∃ floor, a.floor = some floor ∧ News p (· = b.rank) inbox ⟨a.rank.color, floor⟩
  kept : a.under = true → carries inbox .loss = false → b.has = true
  -- A child that does not take the node for its father is lost, or does not know yet.
  claimed : a.has = true → a.under = false →
    b.under = true ∨ carries inbox .loss = true ∨ (grant b.taken outbox).isSome = true
  lost : carries inbox .loss = true → b.has = false ∧ a.links = false
  tidy : Tidy inbox = true
  asked : carries inbox .request = true →
    b.awaits = true ∧ b.taken = none ∧ carries outbox .response = false
  answered : carries inbox .response = true → a.awaits = true ∧ a.taken = none
  idle : a.awaits = false → a.taken = none
  -- An acceptance is true of the father until the node takes note of it.
  granted : ∀ rank, grant a.taken inbox = some rank →
    a.has = false ∧ b.has = true ∧ b.under = false ∧ b.rank = rank ∧
      carries outbox .loss = false ∧ Restates inbox rank.depth = true
  linked : a.awaits = true → a.links = true ∧ a.engaged = true
  shunned : a.links = true → a.shuns = false
  -- Nothing of the past is on its way between a node that looks for a father and another
  -- that it may ask.
  calm : a.engaged = true → a.shuns = false →
    carries inbox .loss = false ∧ (carries outbox .loss = true → b.has = false) ∧
      ((grant a.taken inbox).isSome = true ∨ carries inbox .news = false)
  root : a.engaged = true → a.under = false

/-! ## What follows from the half invariant -/

variable {p : Peer} {a b : Stance} {inbox outbox : List Event} {e : Event}

/-- Whoever waits for an answer looks for a father, and not in place of the other. -/
theorem HalfInvariant.seeks (h : HalfInvariant p a b inbox outbox) (hawaits : a.awaits = true) :
    a.engaged = true ∧ a.shuns = false :=
  ⟨(h.linked hawaits).2, h.shunned (h.linked hawaits).1⟩

theorem HalfInvariant.awaits_of_grant {rank : Rank} (h : HalfInvariant p a b inbox outbox)
    (hgrant : grant a.taken inbox = some rank) : a.awaits = true := by
  by_cases hr : carries inbox .response = true
  · exact (h.answered hr).1
  · rw [grant_of_not_response a.taken (by simpa using hr)] at hgrant
    by_contra hawaits
    simp [h.idle (by simpa using hawaits)] at hgrant

/-- Only a node that looks for a father is accepted. -/
theorem HalfInvariant.grant_eq_none (h : HalfInvariant p a b inbox outbox)
    (hengaged : a.engaged = false) :
    grant a.taken inbox = none := by
  cases hgrant : grant a.taken inbox with
  | none => rfl
  | some rank =>
      have hseeks := h.seeks (h.awaits_of_grant hgrant)
      simp [hengaged] at hseeks

/-- A node that awaits nothing is not accepted. -/
theorem HalfInvariant.grant_eq_none_of_idle (h : HalfInvariant p a b inbox outbox)
    (hawaits : a.awaits = false) :
    grant a.taken inbox = none := by
  cases hgrant : grant a.taken inbox with
  | none => rfl
  | some rank =>
      rw [h.awaits_of_grant hgrant] at hawaits
      cases hawaits

/-- Nobody that a node has a link to is lost to it. -/
theorem HalfInvariant.loss_eq_false (h : HalfInvariant p a b inbox outbox)
    (hlinks : a.links = true) :
    carries inbox .loss = false := by
  by_contra hloss
  rw [(h.lost (by simpa using hloss)).2] at hlinks
  cases hlinks

/-- No response is on its way to a node that awaits none. -/
theorem HalfInvariant.response_eq_false (h : HalfInvariant p a b inbox outbox)
    (hawaits : a.awaits = false) :
    carries inbox .response = false := by
  by_contra hresponse
  rw [(h.answered (by simpa using hresponse)).1] at hawaits
  cases hawaits

/-- No request is on its way from a node that awaits no answer. -/
theorem HalfInvariant.request_eq_false (h : HalfInvariant p a b inbox outbox)
    (hawaits : b.awaits = false) :
    carries inbox .request = false := by
  by_contra hrequest
  rw [(h.asked (by simpa using hrequest)).1] at hawaits
  cases hawaits

/-! ## What is put on its way, and what is experienced -/

/-- A node sends something, which answers nothing that is still on its way, and is the loss
of a link only where no acceptance is. -/
theorem HalfInvariant.sent (h : HalfInvariant p a b inbox outbox)
    (hresponse : e.matter = .response → carries inbox .request = false)
    (hloss : e.matter = .loss → grant a.taken inbox = none ∧ b.has = false) :
    HalfInvariant p a b inbox (outbox ++ [e]) where
  __ := h
  claimed hhas hunder := (h.claimed hhas hunder).imp_right (Or.imp_right grant_isSome_append)
  asked hasked := by
    obtain ⟨hawaits, htaken, hnone⟩ := h.asked hasked
    have he : e.matter ≠ .response := fun he => by simp [hresponse he] at hasked
    exact ⟨hawaits, htaken, by simp [hnone, he]⟩
  granted rank hgrant := by
    obtain ⟨hhas, hhas', hunder, hrank, hnone, hrestates⟩ := h.granted rank hgrant
    have he : e.matter ≠ .loss := fun he => by simp [(hloss he).1] at hgrant
    exact ⟨hhas, hhas', hunder, hrank, by simp [hnone, he], hrestates⟩
  calm hengaged hshuns := by
    obtain ⟨hin, hout, hquiet⟩ := h.calm hengaged hshuns
    refine ⟨hin, fun hcarries => ?_, hquiet⟩
    by_cases he : e.matter = .loss
    · exact (hloss he).2
    · exact hout (by simpa [he] using hcarries)

/-- What a node sent is experienced, or delivered if it is a response. -/
theorem HalfInvariant.heard {taken : Option Response} (h : HalfInvariant p a b inbox (e :: outbox))
    (htaken : e.matter ≠ .response → taken = b.taken)
    (hgrant : (grant b.taken (e :: outbox)).isSome = true → (grant taken outbox).isSome = true) :
    HalfInvariant p a { b with taken := taken } inbox outbox where
  __ := h
  claimed hhas hunder := (h.claimed hhas hunder).imp_right (Or.imp_right hgrant)
  asked hasked := by
    obtain ⟨hawaits, hnone, hunanswered⟩ := h.asked hasked
    simp only [carries_cons, Bool.or_eq_false_iff, decide_eq_false_iff_not] at hunanswered
    exact ⟨hawaits, (htaken hunanswered.1).trans hnone, hunanswered.2⟩
  granted rank hgranted := by
    obtain ⟨hhas, hhas', hunder, hrank, hloss, hrestates⟩ := h.granted rank hgranted
    simp only [carries_cons, Bool.or_eq_false_iff] at hloss
    exact ⟨hhas, hhas', hunder, hrank, hloss.2, hrestates⟩
  calm hengaged hshuns := by
    obtain ⟨hin, hout, hquiet⟩ := h.calm hengaged hshuns
    exact ⟨hin, fun hloss => hout (by simp [hloss]), hquiet⟩

/-- What is no response is experienced. -/
theorem HalfInvariant.heard_of_not_response (h : HalfInvariant p a b inbox (e :: outbox))
    (hresponse : e.matter ≠ .response) : HalfInvariant p a b inbox outbox :=
  h.heard (fun _ => rfl) fun hgrant => by
    simpa [Event.grant?_eq_none hresponse] using hgrant

/-- Something that is neither news nor a response is put on its way to a node. -/
theorem HalfInvariant.arrived (h : HalfInvariant p a b inbox outbox) (hloss : e.matter ≠ .loss)
    (hresponse : e.matter ≠ .response) (hnews : e.matter ≠ .news)
    (hrequest : e.matter = .request → b.awaits = true ∧ b.taken = none ∧
      carries outbox .response = false ∧ carries inbox .request = false) :
    HalfInvariant p a b (inbox ++ [e]) outbox := by
  have hcarries : ∀ m, e.matter ≠ m → carries (inbox ++ [e]) m = carries inbox m := by
    intro m hm
    simp [hm]
  have hgrant : grant a.taken (inbox ++ [e]) = grant a.taken inbox :=
    grant_append a.taken (by simp [hresponse])
  exact { h with
    told := fun hunder => by
      obtain ⟨floor, hfloor, htold⟩ := h.told hunder
      exact ⟨floor, hfloor, (news_concat_of_not_news hnews hloss).2 htold⟩
    kept := fun hunder hnone => h.kept hunder (by rwa [hcarries _ hloss] at hnone)
    claimed := by rw [hcarries _ hloss]; exact h.claimed
    lost := by rw [hcarries _ hloss]; exact h.lost
    tidy := by
      rw [tidy_append, h.tidy]
      by_cases he : e.matter = .request
      · simp [Tidy, he, (hrequest he).2.2.2]
      · simp [Tidy, he, hloss, hresponse]
    asked := fun hasked => by
      by_cases he : e.matter = .request
      · obtain ⟨hawaits, htaken, hnone, _⟩ := hrequest he
        exact ⟨hawaits, htaken, hnone⟩
      · exact h.asked (by rwa [hcarries _ he] at hasked)
    answered := by rw [hcarries _ hresponse]; exact h.answered
    granted := fun rank hr => by
      rw [hgrant] at hr
      obtain ⟨hhas, hhas', hunder, hrank, hnone, hrestates⟩ := h.granted rank hr
      exact ⟨hhas, hhas', hunder, hrank, hnone,
        by simp [hrestates, Event.restates_of_not_news _ hnews]⟩
    calm := by rw [hcarries _ hloss, hcarries _ hnews, hgrant]; exact h.calm }

/-- News are put on their way to a node from another that may have a new rank. -/
theorem HalfInvariant.informed {rank : Rank} (h : HalfInvariant p a b inbox outbox)
    (he : e.matter = .news)
    (htold : ∀ r, News p (· = b.rank) inbox r → News p (· = rank) (inbox ++ [e]) r)
    (hgranted : ∀ r, grant a.taken inbox = some r → rank = r ∧ e.restates r.depth = true)
    (hcalm : a.engaged = true → a.shuns = false → (grant a.taken inbox).isSome = true) :
    HalfInvariant p a { b with rank := rank } (inbox ++ [e]) outbox := by
  have hcarries : ∀ m, m ≠ .news → carries (inbox ++ [e]) m = carries inbox m := by
    intro m hm
    simp [he, hm.symm]
  have hgrant : grant a.taken (inbox ++ [e]) = grant a.taken inbox :=
    grant_append a.taken (by simp [he])
  exact { h with
    told := fun hunder => by
      obtain ⟨floor, hfloor, hnews⟩ := h.told hunder
      exact ⟨floor, hfloor, htold _ hnews⟩
    kept := by rw [hcarries _ (by simp)]; exact h.kept
    claimed := by rw [hcarries _ (by simp)]; exact h.claimed
    lost := by rw [hcarries _ (by simp)]; exact h.lost
    tidy := by simp [tidy_append, h.tidy, Tidy, he]
    asked := by rw [hcarries _ (by simp)]; exact h.asked
    answered := by rw [hcarries _ (by simp)]; exact h.answered
    granted := fun r hr => by
      rw [hgrant] at hr
      obtain ⟨hhas, hhas', hunder, _, hnone, hrestates⟩ := h.granted r hr
      obtain ⟨hrank, hrestate⟩ := hgranted r hr
      exact ⟨hhas, hhas', hunder, hrank, hnone, by simp [hrestates, hrestate]⟩
    calm := fun hengaged hshuns => by
      obtain ⟨hin, hout, _⟩ := h.calm hengaged hshuns
      rw [hcarries _ (by simp), hgrant]
      exact ⟨hin, hout, Or.inl (hcalm hengaged hshuns)⟩ }

/-- A response is put on its way to a node that awaits it. -/
theorem HalfInvariant.replied {o : Peer} {response : Response}
    (h : HalfInvariant p a b inbox outbox)
    (hawaits : a.awaits = true) (htaken : a.taken = none)
    (hresponse : carries inbox .response = false)
    (hgranted : ∀ rank, response.grant? = some rank → a.has = false ∧ b.has = true ∧
      b.under = false ∧ b.rank = rank ∧ carries outbox .loss = false ∧
        Restates inbox rank.depth = true) :
    HalfInvariant p a b (inbox ++ [.message o (.response response)]) outbox := by
  have hcarries : ∀ m, m ≠ .response →
      carries (inbox ++ [.message o (.response response)]) m = carries inbox m := by
    intro m hm
    simp [Event.matter, hm.symm]
  have hnone : grant a.taken inbox = none := by
    rw [grant_of_not_response a.taken hresponse, htaken]
    rfl
  have hgrant : grant a.taken (inbox ++ [.message o (.response response)]) = response.grant? := by
    rw [grant_concat a.taken hresponse, hnone, Option.or_none]
    rfl
  exact { h with
    told := fun hunder => by
      obtain ⟨floor, hfloor, htold⟩ := h.told hunder
      exact ⟨floor, hfloor,
        (news_concat_of_not_news (by simp [Event.matter]) (by simp [Event.matter])).2 htold⟩
    kept := by rw [hcarries _ (by simp)]; exact h.kept
    claimed := by rw [hcarries _ (by simp)]; exact h.claimed
    lost := by rw [hcarries _ (by simp)]; exact h.lost
    tidy := by simp [tidy_append, h.tidy, Tidy, Event.matter, hresponse]
    asked := by rw [hcarries _ (by simp)]; exact h.asked
    answered := fun _ => ⟨hawaits, htaken⟩
    granted := fun rank hr => by
      rw [hgrant] at hr
      obtain ⟨hhas, hhas', hunder, hrank, hloss, hrestates⟩ := hgranted rank hr
      exact ⟨hhas, hhas', hunder, hrank, hloss,
        by simp [hrestates, Event.restates, Event.matter]⟩
    calm := fun hengaged hshuns => by
      obtain ⟨hin, hout, hquiet⟩ := h.calm hengaged hshuns
      rw [hcarries _ (by simp), hcarries _ (by simp)]
      exact ⟨hin, hout, hquiet.imp_left fun hsome => by simp [hnone] at hsome⟩ }

/-- A node experiences something that is neither a loss nor a response, and knows afterwards
what its father is to become. -/
theorem HalfInvariant.popped {rank : Rank} {floor : Option Depth}
    (h : HalfInvariant p a b (e :: inbox) outbox)
    (hloss : e.matter ≠ .loss) (hresponse : e.matter ≠ .response)
    (htold : a.under = true → ∃ depth, floor = some depth ∧
      News p (· = b.rank) inbox ⟨rank.color, depth⟩) :
    HalfInvariant p { a with rank := rank, floor := floor } b inbox outbox := by
  have hlosses : carries (e :: inbox) .loss = carries inbox .loss := by simp [hloss]
  have hresponses : carries (e :: inbox) .response = carries inbox .response := by
    simp [hresponse]
  have hgrant : grant a.taken (e :: inbox) = grant a.taken inbox := by
    rw [grant_cons, Event.grant?_eq_none hresponse, Option.none_or]
  exact { h with
    told := htold
    kept := by rw [← hlosses]; exact h.kept
    claimed := by rw [← hlosses]; exact h.claimed
    lost := by rw [← hlosses]; exact h.lost
    tidy := by
      have htidy := h.tidy
      simp only [Tidy, Bool.and_eq_true] at htidy
      exact htidy.2
    asked := fun hasked => h.asked (by simp [hasked])
    answered := by rw [← hresponses]; exact h.answered
    granted := fun r hr => by
      obtain ⟨hhas, hhas', hunder, hrank, hnone, hrestates⟩ := h.granted r (hgrant.trans hr)
      simp only [restates_cons, Bool.and_eq_true] at hrestates
      exact ⟨hhas, hhas', hunder, hrank, hnone, hrestates.2⟩
    calm := fun hengaged hshuns => by
      obtain ⟨hin, hout, hquiet⟩ := h.calm hengaged hshuns
      rw [hlosses] at hin
      rw [hgrant] at hquiet
      exact ⟨hin, hout, hquiet.imp_right fun hnone => by
        simp only [carries_cons, Bool.or_eq_false_iff] at hnone
        exact hnone.2⟩ }

end BrokerForest
