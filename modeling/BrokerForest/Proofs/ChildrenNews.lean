import BrokerForest.Proofs.Degree
import BrokerForest.Proofs.SentMessages
import BrokerForest.Proofs.UpdateHandling
/-!
# News of children: the children of a node, and what it tells them of one another

Children come to a node by its acceptance and leave it when it parts from them or finds them
gone.  Everything else that happens to a node leaves its children as they are: its father may
go, and leave the neighborhood with it, and another may come, and the children are still the
same.  And only with a child that comes or goes does a node tell its children of a sibling.

Main statements:

* `Episode.Fatherly` — whom a node accepts, and beneath whom it attaches;
* `Conduct.reticent` — the rule to tell of no sibling and to let no acceptance out;
* `Episode.Household` — what an episode makes of the children, and what it tells them;
* **`Life.household`** — in a fatherly life every episode is of this sort.
-/

namespace BrokerForest

/-- Whether a message tells of a sibling that has come or gone. -/
def Message.isFamily : Message → Bool
  | .newSibling _ | .siblingDead _ => true
  | _ => false

/-- Whether a message accepts a child. -/
def Message.accepts : Message → Bool
  | .response r => r.isAcceptance
  | _ => false

/-- Whether an effect lets an acceptance out. -/
def Effect.accepts : Effect → Bool
  | .sent _ message _ delivered => message.accepts && delivered
  | _ => false

/-- An acceptance that goes out is let out. -/
theorem Effect.accepts_of_mail? {e : Effect} {mail : Peer × Message} (h : e.mail? = some mail) :
    e.accepts = mail.2.accepts := by
  unfold mail? at h
  split at h
  · cases h
    exact Bool.and_true _
  · cases h

/-- The request that an act is to experience, and whose it is. -/
def Act.request? : Act → Option (Peer × Request)
  | event (.message origin (.request request)) => some (origin, request)
  | _ => none

theorem Act.request?_eq_none {a : Act}
    (h : ¬ ∃ requester request, a = .event (.message requester (.request request))) :
    a.request? = none := by
  unfold request?
  split
  · exact absurd ⟨_, _, rfl⟩ h
  · rfl

/-- The news of its siblings that are sent to a child. -/
def Peer.news (child : Peer) (posts : List (Peer × Message)) : List Message :=
  posts.filterMap fun post =>
    if child.same post.1 && post.2.isFamily then some post.2 else none

/-- The news of its siblings that are sent to a child in an episode, whether or not they go
out. -/
def Episode.tells (child : Peer) (e : Episode) : List Message :=
  child.news (e.seen.filterMap Effect.post?)

/-- The father that a node forgets in an episode, having told it that it leaves it. -/
def Episode.left? (e : Episode) : Option Peer :=
  match e.act, e.before.slot.holder with
  | .advance, some (.leaving father) => some father
  | _, _ => none

/-- Whom a node accepts is a broker and did not ask it to overlook the bound on its degree, and
nobody is its father and its child at once: it does not accept its father, does not attach
beneath its child, and does not forget, as the father it leaves, one that has become its child
meanwhile. -/
structure Episode.Fatherly (e : Episode) : Prop where
  accepts : ∀ asked ∈ e.act.request?, e.seen.any Effect.accepts = true →
    asked.2.force.maxDegree = false ∧ asked.1.broker = true ∧
      e.before.position.isFather asked.1 = false
  apart : ∀ father ∈ e.after.position.father, father.among e.before.position.children = false
  leaves : ∀ father ∈ e.left?, father.among e.before.position.children = false

instance (e : Episode) : Decidable e.Fatherly :=
  decidable_of_iff
    ((∀ asked ∈ e.act.request?, e.seen.any Effect.accepts = true →
        asked.2.force.maxDegree = false ∧ asked.1.broker = true ∧
          e.before.position.isFather asked.1 = false) ∧
      (∀ father ∈ e.after.position.father, father.among e.before.position.children = false) ∧
        ∀ father ∈ e.left?, father.among e.before.position.children = false)
    ⟨fun h => ⟨h.1, h.2.1, h.2.2⟩, fun h => ⟨h.1, h.2, h.3⟩⟩

/-- A child is accepted in an episode, its acceptance names the children before it, and each
of them is told of it. -/
structure Episode.Birth (e : Episode) (child : Peer) : Prop where
  new : child.id ∉ e.before.position.children.map Peer.id
  room : e.before.position.children.length < e.before.settings.maxDegree
  children : e.after.position.children.Perm (child :: e.before.position.children)
  response : ∀ response, (child, .response response) ∈ e.seen.filterMap Effect.mail? →
    response.answer = .accepted ⟨e.before.chain, e.before.position.children⟩
  told : ∃ news : NewSibling, news.siblings = e.before.position.children ∧ news.sibling = child ∧
    ∀ q : Peer, e.tells q =
      (e.before.position.children.filter q.same).map fun _ => .newSibling news

/-- A child is gone in an episode, and each of those that are left is told of it. -/
structure Episode.Death (e : Episode) (child : Peer) : Prop where
  was : child.id ∈ e.before.position.children.map Peer.id
  children : e.after.position.children = e.before.position.children.eraseP child.same
  told : ∃ news : SiblingDead, news.dead = child ∧
    ∀ q : Peer, e.tells q =
      (e.after.position.children.filter q.same).map fun _ => .siblingDead news

/-- The children stay in an episode, and nobody is told of a sibling. -/
structure Episode.Calm (e : Episode) : Prop where
  children : e.after.position.children = e.before.position.children
  told : ∀ q : Peer, e.tells q = []

/-- What an episode makes of the children of a node, and what it tells them of one another. -/
def Episode.Household (e : Episode) : Prop :=
  e.Calm ∨ (∃ child, e.Birth child) ∨ ∃ child, e.Death child

namespace Peer

variable {child : Peer} {posts : List (Peer × Message)}

theorem news_append (posts later : List (Peer × Message)) :
    child.news (posts ++ later) = child.news posts ++ child.news later :=
  List.filterMap_append

/-- Other messages bring no news of siblings. -/
theorem news_of_silent (h : ∀ post ∈ posts, post.2.isFamily = false) : child.news posts = [] :=
  List.filterMap_eq_nil_iff.2 fun post hpost => by simp [h post hpost]

/-- News that is sent to several peers reaches those of them that are the child. -/
theorem news_map {message : Message} (h : message.isFamily = true) (peers : List Peer) :
    child.news (peers.map fun q => (q, message)) =
      (peers.filter child.same).map fun _ => message := by
  induction peers with
  | nil => rfl
  | cons q rest ih => cases hsame : child.same q <;> simpa [news, hsame, h] using ih

end Peer

/-! ## The children after each way of moving -/

theorem Peer.same_comm (a b : Peer) : a.same b = b.same a := by
  rw [Bool.eq_iff_iff, same_iff, same_iff, eq_comm]

namespace Neighbors

variable {p : Peer} {peers : List Peer}

/-- Whoever is there once is taken out by taking out all descriptions of it. -/
theorem eraseP_eq_filter (h : (peers.map Peer.id).Nodup) :
    peers.eraseP p.same = peers.filter fun q => !p.same q := by
  induction peers with
  | nil => rfl
  | cons q rest ih =>
      rw [List.map_cons, List.nodup_cons] at h
      cases hsame : p.same q with
      | false => simp [hsame, ih h.2]
      | true =>
          have hothers : ∀ r ∈ rest, (!p.same r) = true := by
            intro r hr
            rw [Bool.not_eq_true', Bool.eq_false_iff, ne_eq, Peer.same_iff]
            rintro hid
            rw [Peer.same_iff.1 hsame] at hid
            exact h.1 (hid ▸ List.mem_map_of_mem hr)
          simp [hsame, List.filter_eq_self.2 hothers]

/-- Whoever is new is there besides all who were. -/
theorem insert_perm (h : p.id ∉ peers.map Peer.id) : (insert p peers).Perm (p :: peers) := by
  induction peers with
  | nil => exact .refl _
  | cons q rest ih =>
      rw [List.map_cons, List.mem_cons, not_or] at h
      have hsame : p.same q = false := by simpa [Peer.same] using h.1
      unfold insert
      rw [hsame, if_neg Bool.false_ne_true]
      split
      · exact .refl _
      · exact ((ih h.2).cons q).trans (.swap p q rest)

end Neighbors

namespace Position

variable {p : Position} {peer : Peer}

theorem children_of_father (h : p.isFather peer = true) :
    p.children = p.neighbors.brokers.filter fun q => !peer.same q := by
  obtain ⟨father, hfather, hid⟩ := Peer.isThe_iff.1 h
  simp only [children, Neighbors.children, hfather]
  exact List.filter_congr fun q _ => by rw [Peer.isThe, Option.any_some, Peer.same_comm, Peer.same,
    Peer.same, hid]

/-- The brokers beside a node without its father are its children. -/
theorem brokers_remove_father (h : p.isFather peer = true) :
    (p.neighbors.remove peer).brokers = p.children := by
  unfold Neighbors.remove
  cases hbroker : p.neighbors.isBroker peer with
  | true =>
      exact (Neighbors.eraseP_eq_filter p.neighbors.brokers_inOrder.nodup).trans
        (children_of_father h).symm
  | false => exact (children_of_not_beside h hbroker).symm

/-- Beneath a father that is none of its brokers a root has the children it had. -/
theorem children_attach (hroot : p.father = none) {father : Peer}
    (hapart : father.among p.children = false) (self : Peer) (rank : Rank)
    (acceptance : Acceptance) (ws : Words) :
    (p.attach self father rank acceptance ws).1.children = p.children := by
  obtain ⟨own, heq⟩ := p.attach_eq self father rank acceptance ws
  have hbrokers : (p.neighbors.add father).brokers.filter (fun q => !father.same q) =
      p.neighbors.brokers.filter fun q => !father.same q := by
    unfold Neighbors.add
    split
    · exact Neighbors.filter_insert (by simp)
    · rfl
  rw [children_of_root hroot] at hapart ⊢
  rw [children_of_father (isFather_of_father (by rw [heq])), heq, hbrokers]
  refine List.filter_eq_self.2 fun q hq => ?_
  rw [Bool.not_eq_true', Bool.eq_false_iff, ne_eq, Peer.same_iff]
  intro hid
  rw [Bool.eq_false_iff, ne_eq, Peer.among_iff] at hapart
  exact hapart ⟨q, hq, hid⟩

/-- A broker that is accepted and is not the father is a child besides all that were. -/
theorem children_welcome (hnew : p.neighbors.contains peer = false)
    (hbroker : peer.broker = true) (hother : p.isFather peer = false) (admission : Admission) :
    (p.welcome peer admission).children.Perm (peer :: p.children) := by
  have hid : peer.id ∉ p.neighbors.brokers.map Peer.id := by
    rw [← Neighbors.isBroker_iff]
    simp only [Neighbors.contains, Bool.or_eq_false_iff] at hnew
    simp [Neighbors.isBroker, hnew.1]
  have hperm := (Neighbors.insert_perm hid).filter fun q => !q.isThe p.father
  rw [List.filter_cons_of_pos (by simpa [isFather] using hother)] at hperm
  simpa [children, Neighbors.children, welcome, Neighbors.add, hbroker] using hperm

/-- Of the children only the one is gone that is forgotten. -/
theorem children_forget (hbroker : p.neighbors.isBroker peer = true) :
    (p.forget peer).children = p.children.eraseP peer.same := by
  rw [Neighbors.eraseP_eq_filter p.nodup_children]
  simp only [children, Neighbors.children, forget, Neighbors.remove, hbroker, if_true]
  rw [Neighbors.eraseP_eq_filter p.neighbors.brokers_inOrder.nodup, List.filter_filter,
    List.filter_filter]
  exact List.filter_congr fun q _ => Bool.and_comm _ _

/-- Whoever is no broker is no child that could be forgotten. -/
theorem children_forget_of_not_broker (h : p.neighbors.isBroker peer = false) :
    (p.forget peer).children = p.children := by
  simp [children, Neighbors.children, forget, Neighbors.remove, h]

/-- The children stay when somebody else is forgotten. -/
theorem children_forget_of_not_among (h : peer.among p.children = false) :
    (p.forget peer).children = p.children := by
  cases hbroker : p.neighbors.isBroker peer with
  | false => exact children_forget_of_not_broker hbroker
  | true =>
      rw [children_forget hbroker, List.eraseP_of_forall_not]
      intro q hq hsame
      rw [Bool.eq_false_iff, ne_eq, Peer.among_iff] at h
      exact h ⟨q, hq, Peer.same_iff.1 hsame⟩

/-- The children of a node that has lost its father are the children it had. -/
theorem children_orphan (hfather : p.isFather peer = true) :
    (p.forget peer).orphan.children = p.children :=
  (children_of_root rfl).trans (brokers_remove_father hfather)

end Position

namespace Node.Shift

variable {n : Node} {a : Act} {p : Position}

/-- Unless a request arrives, or the node parts from somebody, its children stay, whatever
becomes of its father. -/
theorem children_eq (h : n.Shift a p) (hrequest : a.request? = none)
    (hparts : ∀ peer, ¬ a.Parts peer) (hseeking : n.isSeeking = true → n.position.father = none)
    (hforgotten : n.isUprooted = true →
      ∀ father, n.position.father = some father → n.position.neighbors.isBroker father = false)
    (hleaves : a = .advance → ∀ father, n.slot.holder = some (.leaving father) →
      father.among n.position.children = false)
    (hapart : ∀ father ∈ p.father, father.among n.position.children = false) :
    p.children = n.position.children := by
  cases h with
  | stay | takeHint | hear | bury | greet | fork | learn => rfl
  | welcome | keepHint => cases hrequest
  | forget parts | lose parts => exact absurd parts (hparts _)
  | heed father => exact Position.children_heed ..
  | serve sort => simp [Position.children, Neighbors.children, Neighbors.add, sort]
  | forsake leaving => exact Position.children_forget_of_not_among (hleaves rfl _ leaving)
  | @found repair ws founding =>
      have hbrokers : n.position.children = n.position.neighbors.brokers := by
        cases hfather : n.position.father with
        | none => exact Position.children_of_root hfather
        | some father =>
            refine Position.children_of_not_beside (Position.isFather_of_father hfather) ?_
            cases repair with
            | true =>
                rw [hseeking (isSeeking_of_holder founding rfl)] at hfather
                cases hfather
            | false => exact hforgotten (isUprooted_iff.2 founding) father hfather
      rw [hbrokers, Position.children_of_root rfl]
      rfl
  | @attach negotiation response acceptance ws negotiating collected accepted =>
      have hroot := hseeking (isSeeking_of_holder negotiating rfl)
      have hfather : (n.position.attach n.self negotiation.peer response.rank acceptance
          ws).1.father = some negotiation.peer := by
        obtain ⟨own, heq⟩ := n.position.attach_eq n.self negotiation.peer response.rank acceptance
          ws
        rw [heq]
      exact Position.children_attach hroot (hapart _ hfather) ..

/-- A father that is not beside the node comes not to be beside it, unless it makes a request or
is attached to. -/
theorem isBroker_eq_false (h : n.Shift a p) (hrequest : a.request? = none)
    (hidle : n.isWaiting = false) {peer : Peer}
    (hbeside : n.position.neighbors.isBroker peer = false) :
    p.neighbors.isBroker peer = false := by
  have hforget (q : Peer) : (n.position.forget q).neighbors.isBroker peer = false := by
    rw [← Position.has_id, Position.has_forget, Position.has_id, hbeside, Bool.false_and]
  cases h with
  | stay | takeHint | hear | bury | greet | fork | learn | found => exact hbeside
  | welcome | keepHint => cases hrequest
  | heed father =>
      rw [(n.position.heed_frame ..).2.1]
      exact hbeside
  | serve sort =>
      rw [Neighbors.isBroker, n.position.brokers_of_client sort]
      exact hbeside
  | forget | lose | forsake => exact hforget _
  | attach negotiating => simp [isWaiting, negotiating, Holder.isWaiting] at hidle

end Node.Shift

/-! ## A rule that most acts keep -/

/-- The rule to tell of no sibling and to let no acceptance out. -/
def Conduct.reticent : Conduct where
  opens _ := True
  sends _ message delivered := message.isFamily = false ∧ (message.accepts && delivered) = false

/-- What keeps the rule sends no child any news of its siblings. -/
theorem Peer.news_of_reticent (child : Peer) {effects : List Effect}
    (h : ∀ e ∈ effects, Conduct.reticent.Allows e) :
    child.news (effects.filterMap Effect.post?) = [] := by
  refine news_of_silent fun post hpost => ?_
  obtain ⟨e, he, hsent⟩ := List.mem_filterMap.1 hpost
  cases e with
  | sent peer message traffic delivered =>
      cases hsent
      exact (h _ he).1
  | opened | closed | noted | paused | ended => cases hsent

/-- What keeps the rule accepts nobody. -/
theorem Conduct.not_accepts_of_reticent {e : Effect} (h : Conduct.reticent.Allows e) :
    e.accepts = false := by
  cases e with
  | sent peer message traffic delivered => exact h.2
  | opened | closed | noted | paused | ended => rfl

/-- What a node can say when it neither answers a request nor parts from anybody. -/
theorem Node.Says.reticent {n : Node} {a : Act} {later : Rank} {message : Message}
    (h : n.Says a later message) (hrequest : a.request? = none)
    (hparts : ∀ peer, ¬ a.Parts peer) : message.isFamily = false ∧ message.accepts = false := by
  cases h with
  | ask | update | farewell | gossip => exact ⟨rfl, rfl⟩
  | refuse | accept | greet | adopt | recommend => cases hrequest
  | bury _ parts => exact absurd parts (hparts _)

/-- What a node tells its children of a new one. -/
def Node.birth (n : Node) (child : Peer) (admission : Admission) : NewSibling :=
  ⟨admission.rank n.position.rank, n.chain, n.position.children, n.position.global.snapshot, child⟩

namespace Session

variable {σ : Type} [Transport σ] {s t : Session σ}

/-- Only when it answers a request or parts from somebody a node breaks the rule. -/
theorem reticent_run (s : Session σ) {a : Act} (hrequest : a.request? = none)
    (hparts : ∀ peer, ¬ a.Parts peer) : s.Keeps .reticent (a.run s) := by
  refine (says_run s a).mono fun e hsays => ?_
  cases e with
  | sent peer message traffic delivered =>
      obtain ⟨hfamily, haccepts⟩ := Node.Says.reticent hsays hrequest hparts
      exact ⟨hfamily, by rw [haccepts, Bool.false_and]⟩
  | opened | closed | noted | paused | ended => trivial

/-! ## Children that come -/

@[simp]
theorem posts_openLink (s : Session σ) (url : String) : (s.openLink url).2.posts = s.posts := by
  rcases ho : Transport.openLink url s.outside with ⟨result, outside⟩
  simp only [openLink, ho]
  split <;> simp [posts, see, Effect.post?]

/-- The children before a new one are told of it, and then of a new color. -/
theorem posts_welcome (s : Session σ) (child : Peer) (admission : Admission) :
    (s.welcome child admission).posts = s.posts ++
      (s.node.position.children.map fun q => (q, .newSibling (s.node.birth child admission))) ++
        if admission.adopts then s.node.position.children.map fun q =>
          (q, .update ⟨admission.rank s.node.position.rank, s.node.chain, s.node.settings.hops⟩)
        else [] := by
  unfold welcome
  cases child.primaryUrl <;> cases admission.adopts <;>
    simp [Node.update, Node.birth, Position.welcome]

/-- Whoever is accepted is told so first, then the children before it are told of it, and at
last of a new color. -/
theorem posts_accept {s : Session σ} {child : Peer} {admission : Admission}
    (hsent : (s.send child (s.node.offer admission) .control).1 = true) :
    ∃ updates : List (Peer × Message), (∀ post ∈ updates, post.2.isUpdate = true) ∧
      (s.accept child admission).posts = s.posts ++ (child, s.node.offer admission) ::
        (s.node.position.children.map fun q => (q, .newSibling (s.node.birth child admission))) ++
          updates := by
  let updates := if admission.adopts then s.node.position.children.map fun q =>
    (q, Message.update ⟨admission.rank s.node.position.rank, s.node.chain, s.node.settings.hops⟩)
    else []
  refine ⟨updates, ?_, ?_⟩
  · unfold updates
    split <;> simp [Message.isUpdate]
  · have hfirst : (s.send child (s.node.offer admission) .control).2.posts =
        s.posts ++ [(child, s.node.offer admission)] := posts_tell s child (s.node.offer admission)
    rw [accept_of_sent hsent, posts_welcome, hfirst, List.append_assoc s.posts,
      List.singleton_append]
    rfl

/-- An acceptance that goes out is seen. -/
theorem accepts_accept {s : Session σ} {child : Peer} {admission : Admission}
    (hsent : (s.send child (s.node.offer admission) .control).1 = true) :
    (s.accept child admission).trace.any Effect.accepts = true := by
  have hfirst : (s.send child (s.node.offer admission) .control).2.trace =
      s.trace ++ [.sent child (s.node.offer admission) .control true] := by
    rw [← hsent]
    rfl
  obtain ⟨later, hlater, -⟩ : (s.send child (s.node.offer admission) .control).2.Keeps .free
      ((s.send child (s.node.offer admission) .control).2.welcome child admission) :=
    keeps_welcome _ (fun _ _ => trivial) (fun _ _ _ => trivial) fun _ _ _ _ => trivial
  rw [accept_of_sent hsent, hlater, hfirst, List.any_append, List.any_append]
  exact Bool.or_eq_true_iff.2 (Or.inl (Bool.or_true _))

/-- The response to whoever is accepted is the offer. -/
theorem response_of_accept {s : Session σ} {child : Peer} {admission : Admission}
    {response : Response} (hnone : s.posts = [])
    (hsent : (s.send child (s.node.offer admission) .control).1 = true)
    (hmem : (child, .response response) ∈ (s.accept child admission).posts) :
    response.answer = .accepted ⟨s.node.chain, s.node.position.children⟩ := by
  obtain ⟨updates, hupdates, hposts⟩ := posts_accept hsent
  rw [hposts, hnone, List.nil_append, List.mem_append, List.mem_cons] at hmem
  rcases hmem with (hoffer | hbirth) | hupdate
  · obtain ⟨-, hresponse⟩ := Prod.mk.inj hoffer
    cases hresponse
    rfl
  · obtain ⟨q, -, hq⟩ := List.mem_map.1 hbirth
    cases hq
  · cases hupdates _ hupdate

/-- Of their siblings the children before a new one hear that it is there, and nothing else. -/
theorem news_of_accept {s : Session σ} {child : Peer} {admission : Admission} (q : Peer)
    (hnone : s.posts = []) (hsent : (s.send child (s.node.offer admission) .control).1 = true) :
    q.news (s.accept child admission).posts =
      (s.node.position.children.filter q.same).map fun _ =>
        .newSibling (s.node.birth child admission) := by
  obtain ⟨updates, hupdates, hposts⟩ := posts_accept hsent
  have hoffer : q.news [(child, s.node.offer admission)] = [] :=
    Peer.news_of_silent (by simp [Node.offer, Message.isFamily])
  have hsilent : q.news updates = [] := Peer.news_of_silent fun post hpost => by
    have hupdate := hupdates post hpost
    revert hupdate
    cases post.2 <;> simp [Message.isUpdate, Message.isFamily]
  rw [hposts, hnone, List.nil_append, Peer.news_append, hsilent, List.append_nil,
    ← List.singleton_append, Peer.news_append, hoffer, List.nil_append, Peer.news_map rfl]

/-- A request is answered without an acceptance, or the requester is accepted. -/
theorem examine_cases (s : Session σ) (requester : Peer) (request : Request) :
    (s.Keeps .reticent (s.examine requester request) ∧ ∃ global,
        (s.examine requester request).node.position =
          { s.node.position with global := global }) ∨
      ∃ admission ws, s.node.judge requester request s.words = (.accept admission, ws) ∧
        ((s.withWords ws).send requester (s.node.offer admission) .control).1 = true ∧
        s.examine requester request = (s.withWords ws).accept requester admission := by
  rw [examine_eq]
  generalize hjudge : s.node.judge requester request s.words = judged
  obtain ⟨verdict, ws⟩ := judged
  have hstart : s.Keeps .reticent (s.withWords ws) := keeps_withWords s ws
  rcases verdict with _ | ⟨refusal, _ | _ | root⟩ | admission
  · exact Or.inl ⟨hstart, _, rfl⟩
  · refine Or.inl ⟨hstart.trans (keeps_refuse _ fun _ => ⟨rfl, rfl⟩), s.node.position.global, ?_⟩
    simp [pronounce]
  · refine Or.inl ⟨?_, s.node.position.global.setHint requester, ?_⟩
    · exact (hstart.trans (keeps_withPosition _ _)).trans (keeps_refuse _ fun _ => ⟨rfl, rfl⟩)
    · simp [pronounce]
  · refine Or.inl ⟨?_, s.node.position.global, by simp [pronounce]⟩
    have hrefuse : s.Keeps .reticent ((s.withWords ws).refuse requester refusal) :=
      hstart.trans (keeps_refuse _ fun _ => ⟨rfl, rfl⟩)
    exact hrefuse.trans (keeps_sendTransient _ (fun _ _ => trivial) fun _ _ => ⟨rfl, rfl⟩)
  · change (s.Keeps .reticent ((s.withWords ws).accept requester admission) ∧ ∃ global,
      ((s.withWords ws).accept requester admission).node.position =
        { s.node.position with global := global }) ∨ _
    cases hsent : ((s.withWords ws).send requester ((s.withWords ws).node.offer admission)
        .control).1 with
    | false =>
        rw [accept_of_not_sent hsent]
        refine Or.inl ⟨hstart.trans (keeps_send _ ⟨rfl, ?_⟩), s.node.position.global, rfl⟩
        rw [hsent, Bool.and_false]
    | true => exact Or.inr ⟨admission, ws, rfl, hsent, rfl⟩

/-- A request makes a child of the requester, or keeps the rule and the children. -/
theorem birth_examine {s : Session σ} {requester : Peer} {request : Request} (hfresh : s.trace = [])
    (hfatherly : (s.episode (.event (.message requester (.request request)))).Fatherly) :
    (s.Keeps .reticent (s.examine requester request) ∧ ∃ global,
        (s.examine requester request).node.position =
          { s.node.position with global := global }) ∨
      (s.episode (.event (.message requester (.request request)))).Birth requester := by
  rcases s.examine_cases requester request with h | ⟨admission, ws, hjudge, hsent, heq⟩
  · exact Or.inl h
  have hnone : (s.withWords ws).posts = [] := by rw [posts_withWords, posts, hfresh]; rfl
  have hseen : (s.episode (.event (.message requester (.request request)))).seen =
      ((s.withWords ws).accept requester admission).trace := congrArg Session.trace heq
  obtain ⟨hforce, hbroker, hother⟩ := hfatherly.accepts (requester, request) rfl
    (by rw [hseen]; exact accepts_accept hsent)
  obtain ⟨hnew, -, hdegree⟩ := Node.admission_of_judge hjudge
  refine Or.inr ⟨fun hchild => ?_, ?_, ?_, fun response hresponse => ?_,
    s.node.birth requester admission, rfl, rfl, fun q => ?_⟩
  · have hbeside : s.node.position.neighbors.isBroker requester = true := by
      rw [← Position.has_id]
      exact (Position.mem_children_iff.1 hchild).1
    simp only [Neighbors.contains, Bool.or_eq_false_iff] at hnew
    exact Bool.false_ne_true (hnew.1.symm.trans hbeside)
  · exact (Position.length_children_le _).trans_lt (Node.degree_lt_of_refuseDegree hdegree hforce)
  · have hafter : (s.examine requester request).node.position =
        s.node.position.welcome requester admission := by
      rw [heq, accept_of_sent hsent, node_welcome]
      rfl
    exact (List.Perm.of_eq (congrArg Position.children hafter)).trans
      (Position.children_welcome hnew hbroker hother admission)
  · rw [hseen] at hresponse
    obtain ⟨effect, heffect, hmail⟩ := List.mem_filterMap.1 hresponse
    exact response_of_accept (s := s.withWords ws) hnone hsent
      (List.mem_filterMap.2 ⟨effect, heffect, Effect.post?_of_mail? hmail⟩)
  · rw [Episode.tells, hseen]
    exact news_of_accept (s := s.withWords ws) q hnone hsent

/-- A request that is not the father's brings the father not beside the node. -/
theorem isBroker_examine_of_father {s : Session σ} {requester father : Peer} {request : Request}
    (hfatherly : (s.episode (.event (.message requester (.request request)))).Fatherly)
    (hfather : s.node.position.father = some father)
    (hbeside : s.node.position.neighbors.isBroker father = false) :
    (s.examine requester request).node.position.neighbors.isBroker father = false := by
  rcases s.examine_cases requester request with ⟨-, global, hposition⟩ |
    ⟨admission, ws, -, hsent, heq⟩
  · rw [hposition]
    exact hbeside
  · have hseen : (s.episode (.event (.message requester (.request request)))).seen =
        ((s.withWords ws).accept requester admission).trace := congrArg Session.trace heq
    obtain ⟨-, hbroker, hother⟩ := hfatherly.accepts (requester, request) rfl
      (by rw [hseen]; exact accepts_accept hsent)
    have hafter : (s.examine requester request).node.position =
        s.node.position.welcome requester admission := by
      rw [heq, accept_of_sent hsent, node_welcome]
      rfl
    have hid : father.id ≠ requester.id := by
      intro hid
      refine Bool.eq_false_iff.1 hother (Peer.isThe_iff.2 ⟨father, hfather, hid.symm⟩)
    rw [hafter, ← Position.has_id]
    change Position.has { s.node.position with
      neighbors := s.node.position.neighbors.add requester } father.id = false
    rw [Position.has_add hbroker, Position.has_id, hbeside]
    simp [hid]

/-! ## Children that go -/

/-- Whoever is gone: the children stay, or one is gone and the others are told. -/
theorem household_depart {s u : Session σ} {a : Act} {peer : Peer}
    (hrun : a.run s = u.depart peer) (hnode : u.node.position = s.node.position)
    (hsilent : ∀ post ∈ u.posts, post.2.isFamily = false) :
    (s.episode a).Household := by
  have hafter : (s.episode a).after = (u.depart peer).node := congrArg Session.node hrun
  have htells : ∀ q : Peer, (s.episode a).tells q = q.news (u.depart peer).posts := by
    intro q
    change q.news (List.filterMap Effect.post? (a.run s).trace) = _
    rw [hrun]
    rfl
  cases hbroker : u.node.position.neighbors.isBroker peer with
  | false =>
      have hposts : (u.depart peer).posts = u.posts := by simp [depart, hbroker]
      refine Or.inl ⟨?_, fun q => by rw [htells, hposts, Peer.news_of_silent hsilent]⟩
      rw [hafter, node_depart_of_not_father (Or.inl hbroker)]
      exact (Position.children_forget_of_not_broker hbroker).trans (congrArg _ hnode)
  | true =>
      cases hfather : u.node.position.isFather peer with
      | true =>
          have hposts : (u.depart peer).posts = u.posts := by
            cases hstopped : u.node.stopped <;> simp [depart, hbroker, hfather, hstopped]
          refine Or.inl ⟨?_, fun q => by rw [htells, hposts, Peer.news_of_silent hsilent]⟩
          rw [hafter, node_depart_of_father hbroker hfather]
          exact (Position.children_orphan hfather).trans (congrArg _ hnode)
      | false =>
          have hchildren : (s.episode a).after.position.children =
              (u.node.position.forget peer).children := by
            rw [hafter, node_depart_of_not_father (Or.inr hfather)]
          have hposts : (u.depart peer).posts = u.posts ++
              (u.node.position.forget peer).children.map fun q => (q, .siblingDead
                ⟨u.node.position.rank, u.node.position.global.snapshot, peer⟩) := by
            simp [depart, hbroker, hfather, Position.forget]
          refine Or.inr (Or.inr ⟨peer, ?_, ?_, ⟨u.node.position.rank,
            u.node.position.global.snapshot, peer⟩, rfl, fun q => ?_⟩)
          · change peer.id ∈ s.node.position.children.map Peer.id
            rw [← hnode, Position.mem_children_iff, Position.has_id, Position.under_id]
            exact ⟨hbroker, hfather⟩
          · rw [hchildren, Position.children_forget hbroker, hnode]
            rfl
          · rw [htells, hposts, Peer.news_append, Peer.news_of_silent hsilent, List.nil_append,
              Peer.news_map rfl, hchildren]

/-- A node that keeps the rule and its children is calm. -/
theorem calm_of_keeps {s : Session σ} {a : Act} (hfresh : s.trace = [])
    (hkeeps : s.Keeps .reticent (a.run s))
    (hchildren : (a.run s).node.position.children = s.node.position.children) :
    (s.episode a).Calm := by
  obtain ⟨later, hlater, -, hallowed⟩ := hkeeps
  refine ⟨hchildren, fun q => ?_⟩
  change q.news (List.filterMap Effect.post? (a.run s).trace) = []
  rw [hlater, hfresh]
  exact Peer.news_of_reticent q hallowed

/-- Parting from somebody, or finding that it is gone, is of this sort. -/
theorem household_of_parts {s : Session σ} {a : Act} {peer : Peer} (hfresh : s.trace = [])
    (hparts : a.Parts peer) : (s.episode a).Household := by
  have hposts : s.posts = [] := by rw [posts, hfresh]; rfl
  have hnone : ∀ post ∈ s.posts, post.2.isFamily = false := by simp [hposts]
  cases a with
  | event event =>
      cases event with
      | opened peer => cases hparts
      | closed peer | dead peer =>
          let u := s.withNode { s.node with mailbox := s.node.mailbox.cancel peer }
          exact household_depart (u := u) rfl rfl hnone
      | message origin message =>
          cases message with
          | noLongerChild => exact household_depart rfl rfl hnone
          | request | response | siblingDead | update | newSibling | candidates | goodCandidate =>
              cases hparts
  | leave peer =>
      cases hcontains : s.node.position.neighbors.contains peer with
      | true =>
          have hrun : s.leave peer = (s.tell peer .noLongerChild).depart peer :=
            (leave_eq s peer).trans (if_pos hcontains)
          refine household_depart hrun rfl ?_
          simp [hposts, Message.isFamily]
      | false =>
          have hrun : s.leave peer = s := (leave_eq s peer).trans (if_neg (by simp [hcontains]))
          refine Or.inl (calm_of_keeps hfresh ?_ ?_) <;> rw [Act.run, hrun]
          exact .refl s
  | start | stop | requestJoin | requestReroot | tick | gossip | begin | advance | resume =>
      cases hparts

/-- Every act of a node that is fatherly in it is of this sort. -/
theorem household_run {s : Session σ} {a : Act} (hfresh : s.trace = [])
    (possible : a.Possible s.node) (hfatherly : (s.episode a).Fatherly)
    (hseeking : s.node.isSeeking = true → s.node.position.father = none)
    (hforgotten : s.node.isUprooted = true → ∀ father, s.node.position.father = some father →
      s.node.position.neighbors.isBroker father = false) :
    (s.episode a).Household := by
  by_cases hparts : ∃ peer, a.Parts peer
  · obtain ⟨peer, hparts⟩ := hparts
    exact household_of_parts hfresh hparts
  by_cases hrequest : ∃ requester request, a = .event (.message requester (.request request))
  · obtain ⟨requester, request, rfl⟩ := hrequest
    rcases birth_examine hfresh hfatherly with ⟨hkeeps, global, hposition⟩ | hbirth
    · refine Or.inl (calm_of_keeps hfresh hkeeps ?_)
      change (s.examine requester request).node.position.children = _
      rw [hposition]
      rfl
    · exact Or.inr (Or.inl ⟨requester, hbirth⟩)
  have hleaves (hadvance : a = .advance) (father : Peer)
      (hleaving : s.node.slot.holder = some (.leaving father)) :
      father.among s.node.position.children = false := by
    refine hfatherly.leaves father ?_
    simp [Episode.left?, episode, hadvance, hleaving]
  refine Or.inl (calm_of_keeps hfresh ?_ ?_)
  · exact reticent_run s (Act.request?_eq_none hrequest) (not_exists.1 hparts)
  · exact (turns_run s possible).shift.children_eq (Act.request?_eq_none hrequest)
      (not_exists.1 hparts) hseeking hforgotten hleaves hfatherly.apart

/-- A father that was forgotten is not beside the node, which does not accept it. -/
theorem forgotten_run {s : Session σ} {a : Act}
    (possible : a.Possible s.node) (hfatherly : (s.episode a).Fatherly)
    (hforgotten : s.node.isUprooted = true → ∀ father, s.node.position.father = some father →
      s.node.position.neighbors.isBroker father = false)
    (hleaving : ∀ father, s.node.slot.holder = some (.leaving father) →
      s.node.position.father = some father ∨ s.node.position.father = none)
    (h : (a.run s).node.isUprooted = true) (father : Peer)
    (hfather : (a.run s).node.position.father = some father) :
    (a.run s).node.position.neighbors.isBroker father = false := by
  have hshift := (turns_run s possible).shift
  have hholder := Node.isUprooted_iff.1 h
  have hsame (hidle : s.node.isWaiting = false) : s.node.position.father = some father := by
    rcases hshift.father with (hsame | hnone) | ⟨-, negotiation, _, _, _, hslot, -⟩
    · exact hsame.symm.trans hfather
    · simp [hnone] at hfather
    · simp [Node.isWaiting, hslot, Holder.isWaiting] at hidle
  have hstays (hslot : (a.run s).node.slot = s.node.slot) :
      (a.run s).node.position.neighbors.isBroker father = false := by
    have huprooted := (Node.isUprooted_congr hslot).symm.trans h
    have hidle : s.node.isWaiting = false := by
      simp [Node.isWaiting, Node.isUprooted_iff.1 huprooted, Holder.isWaiting]
    have hbeside := hforgotten huprooted father (hsame hidle)
    by_cases hrequest : ∃ requester request, a = .event (.message requester (.request request))
    · obtain ⟨requester, request, rfl⟩ := hrequest
      exact isBroker_examine_of_father hfatherly (hsame hidle) hbeside
    · exact hshift.isBroker_eq_false (Act.request?_eq_none hrequest) hidle hbeside
  cases (turns_run s possible).waits with
  | aside _ slot | deliver slot | cancel _ _ slot => exact hstays slot
  | step _ before _ _ _ _ _ founds =>
      have hroot := founds hholder
      simp [hsame before] at hroot
  | ask _ _ asked => rcases asked with ⟨h', -⟩ | h' <;> simp [hholder] at h'
  | @forsake left leaving =>
      have hidle : s.node.isWaiting = false := by
        simp [Node.isWaiting, leaving, Holder.isWaiting]
      obtain rfl : left = father := by
        rcases hleaving left leaving with heq | hnone
        · exact Option.some.inj (heq.symm.trans (hsame hidle))
        · simp [hsame hidle] at hnone
      change s.advance.node.position.neighbors.isBroker left = false
      rw [advance_of_leaving leaving, node_forsake, ← Position.has_id]
      simp [Position.has_forget]
  | found _ free => simp [free, Slot.free] at hholder
  | rest _ _ after => simp [hholder] at after

end Session

/-! ## All that can happen to a node -/

namespace Life

variable {past : List Episode} {e : Episode} {n : Node}

/-- The last episode of a life has made the node what it is. -/
theorem last {cond : Episode → Prop} (life : Life cond (past ++ [e]) n) :
    n = e.after ∧ Life cond past e.before ∧ cond e ∧
      ∃ (σ : Type) (_ : Transport σ) (outside : σ) (ws : Words), e.act.Possible e.before ∧
        e = Session.episode ⟨e.before, outside, ws, []⟩ e.act := by
  refine ⟨?_, life.split rfl⟩
  generalize hhistory : past ++ [e] = history at life
  cases life with
  | birth => simp at hhistory
  | act life outside ws possible meets =>
      obtain ⟨-, rfl⟩ := List.append_inj' hhistory rfl |>.imp_right List.singleton_inj.1
      rfl

/-- In a fatherly life a father that was forgotten is not beside the node any more. -/
theorem forgotten {history : List Episode} (life : Life Episode.Fatherly history n)
    (h : n.isUprooted = true) (father : Peer) (hfather : n.position.father = some father) :
    n.position.neighbors.isBroker father = false := by
  induction life generalizing father with
  | birth => cases hfather
  | act life outside ws possible meets ih =>
      exact Session.forgotten_run possible meets ih (fun _ => life.father_of_leaving) h father
        hfather

/-- **In a fatherly life children come and go one at a time, by an acceptance or because the
node parts from them, and each such episode tells the other children of it and nothing else
does.** -/
theorem household (life : Life Episode.Fatherly (past ++ [e]) n) : e.Household := by
  obtain ⟨-, hpast, hfatherly, σ, _, outside, ws, possible, hepisode⟩ := life.last
  rw [hepisode] at hfatherly ⊢
  exact Session.household_run rfl possible hfatherly hpast.father_of_seeking hpast.forgotten

end Life

end BrokerForest
