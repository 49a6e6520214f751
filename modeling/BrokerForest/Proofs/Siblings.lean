import BrokerForest.Proofs.ChildrenNews
/-!
# Siblings: what a child makes of its father's news

A child learns its siblings when it is accepted and hears of each that comes or goes after
that.  It applies the news one by one to a pool that forgets the oldest beyond its bound, and
may do so long after they were sent.  Nothing is forgotten, because the father has never more
children than the bound, and so the pool that has seen all the news up to some moment is what
the father's children were at that moment, in an order of its own.

The argument looks at the two nodes apart.  Applied to the pool of one of the children, the
news that an episode of the father sends it make of the other children before the other
children after; and an episode of the child makes of its pool what the news that it hears in it
make of it.  What was sent and what was heard are the same news in the same order.  The child
has an acceptance once it goes on with it: news that come while the acceptance still lies in its
mailbox are not from its father yet, and are lost.

Main statements:

* `Pool.told` — a pool of siblings after a piece of news;
* `Pool.Mirrors` — a pool that holds the children but for one of them;
* `Episode.Household.mirrors` — the news keep it so, whatever the father does;
* `Session.siblings_run` — and the child does to its pool what the news say;
* **`Life.siblings_eq_children`** — the siblings of a child are the father's other children.
-/

namespace BrokerForest

/-- A pool of siblings after a piece of news. -/
def Pool.told (own : Peer) (most : Nat) (q : Pool) : Message → Pool
  | .newSibling news =>
    if news.sibling.same own then q
    else q.addAll (some most)
      ((news.siblings ++ [news.sibling]).filter fun sibling => !sibling.same own)
  | .siblingDead news => q.remove news.dead
  | _ => q

/-- A pool holds the children of a father but for one of them, each once. -/
def Pool.Mirrors (q : Pool) (own : Peer) (children : List Peer) : Prop :=
  q.entries.Perm (children.filter fun p => !p.same own)

/-- The news of its siblings that a node hears from its father in an episode. -/
def Episode.hears (father : Peer) (e : Episode) : List Message :=
  match e.act with
  | .event (.message origin message) =>
    if origin.same father && message.isFamily then [message] else []
  | _ => []

/-- A peer is accepted in an episode, and the response goes out to it. -/
structure Episode.Accepts (e : Episode) (child : Peer) (response : Response) : Prop where
  sent : ∃ requester request, e.act = .event (.message requester (.request request)) ∧
    requester.same child = true ∧
      (requester, .response response) ∈ e.seen.filterMap Effect.mail?
  accepted : response.isAcceptance = true

/-- A node that waited for a peer goes on with its response in an episode. -/
structure Episode.Collects (e : Episode) (father : Peer) (response : Response) : Prop where
  resumes : e.act = .resume
  waited : ∃ negotiation, e.before.slot.holder = some (.negotiating negotiation) ∧
    negotiation.peer.same father = true
  collected : e.before.mailbox.collect = .ok response

/-! ## Pools that mirror the children -/

/-- Whoever is there once has one description. -/
theorem Neighbors.exists_filter_same {p : Peer} {peers : List Peer}
    (h : (peers.map Peer.id).Nodup) (hp : p.among peers = true) :
    ∃ q, peers.filter p.same = [q] := by
  obtain ⟨q, hq, hid⟩ := Peer.among_iff.1 hp
  refine ⟨q, List.perm_singleton.1 ((List.perm_ext_iff_of_nodup
    ((List.Nodup.of_map _ h).filter _) (List.nodup_singleton q)).2 fun r => ?_)⟩
  rw [List.mem_filter, Peer.same_iff, List.mem_singleton]
  constructor
  · rintro ⟨hr, hpr⟩
    exact List.inj_on_of_nodup_map h hr hq (hpr.symm.trans hid)
  · rintro rfl
    exact ⟨hq, hid⟩

namespace Pool

variable {q : Pool} {own : Peer} {children : List Peer}

/-- Peers that are all held change nothing. -/
theorem addAll_of_contains {bound : Option Nat} {peers : List Peer}
    (h : ∀ p ∈ peers, q.contains p = true) : q.addAll bound peers = q := by
  induction peers with
  | nil => rfl
  | cons p rest ih =>
      rw [List.forall_mem_cons] at h
      have hadd : q.add bound p = q := by rw [add, if_pos h.1]
      exact (congrArg (fun q => addAll q bound rest) hadd).trans (ih h.2)

namespace Mirrors

/-- Whoever is held is held once. -/
theorem nodup (h : q.Mirrors own children) (hdistinct : (children.map Peer.id).Nodup) :
    (q.entries.map Peer.id).Nodup :=
  (h.map Peer.id).nodup_iff.2 (hdistinct.sublist (List.filter_sublist.map _))

/-- A pool of the children that are named with an acceptance mirrors the children with the
one that it accepts. -/
theorem of_acceptance {most : Nat} {child : Peer} {after : List Peer}
    (hdistinct : (children.map Peer.id).Nodup) (hroom : children.length ≤ most)
    (hchildren : after.Perm (child :: children)) (hown : child.same own = true) :
    (empty.addAll (some most) (children.filter fun p => !p.same own)).Mirrors own after := by
  have hsublist : (children.filter fun p => !p.same own).Sublist children := List.filter_sublist
  have hentries : (empty.addAll (some most) (children.filter fun p => !p.same own)).entries =
      children.filter fun p => !p.same own :=
    entries_addAll (by simpa [empty] using hdistinct.sublist (hsublist.map _))
      (by simpa [empty] using hsublist.length_le.trans hroom)
  have hothers := hchildren.filter fun p => !p.same own
  rw [List.filter_cons_of_neg (by simp [hown])] at hothers
  exact (List.Perm.of_eq hentries).trans hothers.symm

/-- The news of a new child, for which there is room, are of all children after it. -/
theorem told_newSibling (h : q.Mirrors own children) {most : Nat} {news : NewSibling}
    {after : List Peer} (hsiblings : news.siblings = children)
    (hnew : news.sibling.id ∉ children.map Peer.id) (hdistinct : (children.map Peer.id).Nodup)
    (hroom : children.length < most) (hchildren : after.Perm (news.sibling :: children))
    (hown : own.among children = true) :
    (q.told own most (.newSibling news)).Mirrors own after := by
  have hother : news.sibling.same own = false := by
    rw [Bool.eq_false_iff, ne_eq, Peer.same_iff]
    intro hid
    obtain ⟨p, hp, hownp⟩ := Peer.among_iff.1 hown
    exact hnew (hid.trans hownp ▸ List.mem_map_of_mem hp)
  have hheld : ∀ p ∈ children.filter fun p => !p.same own, q.contains p = true := by
    intro p hp
    exact Peer.among_iff.2 ⟨p, h.mem_iff.2 hp, rfl⟩
  have hfresh : ((q.entries ++ [news.sibling]).map Peer.id).Nodup := by
    rw [List.map_append, List.nodup_append]
    refine ⟨h.nodup hdistinct, List.nodup_singleton _, fun id hid id' hid' => ?_⟩
    rintro rfl
    rw [List.map_singleton, List.mem_singleton] at hid'
    obtain ⟨p, hp, rfl⟩ := List.mem_map.1 hid
    exact hnew (hid' ▸ List.mem_map_of_mem (List.mem_of_mem_filter (h.mem_iff.1 hp)))
  have hlength : q.entries.length + [news.sibling].length ≤ most := by
    have hothers : q.entries.length ≤ children.length :=
      h.length_eq.trans_le List.filter_sublist.length_le
    rw [List.length_singleton]
    omega
  have htold : (q.told own most (.newSibling news)).entries = q.entries ++ [news.sibling] := by
    rw [told, hother, if_neg Bool.false_ne_true, hsiblings, List.filter_append, addAll,
      List.foldl_append]
    change ((q.addAll (some most) _).addAll (some most) _).entries = _
    rw [addAll_of_contains hheld, List.filter_cons_of_pos (by simp [hother]), List.filter_nil,
      entries_addAll hfresh hlength]
  have hafter := hchildren.filter fun p => !p.same own
  rw [List.filter_cons_of_pos (by simp [hother])] at hafter
  rw [Mirrors, htold]
  exact (List.perm_append_singleton _ _).trans ((h.cons _).trans hafter.symm)

/-- The news of a child that is gone are of all children after it. -/
theorem told_siblingDead (h : q.Mirrors own children) (most : Nat) {news : SiblingDead}
    (hdistinct : (children.map Peer.id).Nodup) :
    (q.told own most (.siblingDead news)).Mirrors own (children.eraseP news.dead.same) := by
  have hentries : (q.told own most (.siblingDead news)).entries =
      q.entries.filter fun p => !news.dead.same p := Neighbors.eraseP_eq_filter (h.nodup hdistinct)
  rw [Mirrors, hentries, Neighbors.eraseP_eq_filter hdistinct, List.filter_filter]
  refine (h.filter _).trans (.of_eq ?_)
  rw [List.filter_filter]
  exact List.filter_congr fun p _ => Bool.and_comm _ _

end Mirrors

end Pool

/-- The news that a child is sent in an episode of its father keep a pool the mirror of the
other children. -/
theorem Episode.Household.mirrors {e : Episode} {own : Peer} {q : Pool} (h : e.Household)
    (hmirrors : q.Mirrors own e.before.position.children)
    (hdistinct : (e.before.position.children.map Peer.id).Nodup)
    (hbefore : own.among e.before.position.children = true)
    (hafter : own.among e.after.position.children = true) :
    ((e.tells own).foldl (Pool.told own e.before.settings.maxDegree) q).Mirrors own
      e.after.position.children := by
  rcases h with ⟨hchildren, htold⟩ | ⟨child, hnew, hroom, hchildren, -, htold⟩ |
    ⟨child, -, hchildren, htold⟩
  · rw [htold, List.foldl_nil, hchildren]
    exact hmirrors
  · obtain ⟨news, hsiblings, rfl, htells⟩ := htold
    obtain ⟨p, hp⟩ := Neighbors.exists_filter_same hdistinct hbefore
    rw [htells, hp]
    exact hmirrors.told_newSibling hsiblings hnew hdistinct hroom hchildren hbefore
  · obtain ⟨news, rfl, htells⟩ := htold
    have hrest : (e.after.position.children.map Peer.id).Nodup := by
      rw [hchildren]
      exact hdistinct.sublist (List.eraseP_sublist.map _)
    obtain ⟨p, hp⟩ := Neighbors.exists_filter_same hrest hafter
    rw [htells, hp, hchildren]
    exact hmirrors.told_siblingDead e.before.settings.maxDegree hdistinct

namespace Life

variable {past since : List Episode} {e : Episode} {n : Node}

/-- An episode leaves a node its identity and its settings. -/
theorem frame {cond : Episode → Prop} (life : Life cond (past ++ e :: since) n) :
    e.after.self = e.before.self ∧ e.after.settings = e.before.settings := by
  obtain ⟨-, -, σ, _, outside, ws, possible, hepisode⟩ := life.split rfl
  rw [hepisode]
  obtain ⟨hself, hsettings, -⟩ := Session.turns_run ⟨e.before, outside, ws, []⟩ possible
  exact ⟨hself, hsettings⟩

/-- A node keeps the identity and the settings that it had after any of its episodes. -/
theorem frame_since {cond : Episode → Prop} (life : Life cond (past ++ e :: since) n) :
    n.self = e.after.self ∧ n.settings = e.after.settings := by
  induction since using List.reverseRecOn generalizing n with
  | nil =>
      obtain ⟨rfl, -⟩ := life.last
      exact ⟨rfl, rfl⟩
  | append_singleton since last ih =>
      rw [← List.cons_append, ← List.append_assoc] at life
      obtain ⟨rfl, hpast, -⟩ := life.last
      rw [life.frame.1, life.frame.2]
      exact ih hpast

/-- **A pool that mirrors the other children once and has been told all the news since then
mirrors them still.** -/
theorem mirrors {own : Peer} {q : Pool} (life : Life Episode.Fatherly (past ++ e :: since) n)
    (hmirrors : q.Mirrors own e.after.position.children)
    (hstart : own.among e.after.position.children = true)
    (hremains : ∀ e ∈ since, own.among e.after.position.children = true) :
    own.among n.position.children = true ∧
      ((since.flatMap (Episode.tells own)).foldl (Pool.told own n.settings.maxDegree) q).Mirrors
        own n.position.children := by
  induction since using List.reverseRecOn generalizing n with
  | nil =>
      obtain ⟨rfl, -⟩ := life.last
      exact ⟨hstart, hmirrors⟩
  | append_singleton since last ih =>
      rw [← List.cons_append, ← List.append_assoc] at life
      obtain ⟨rfl, hpast, -⟩ := life.last
      obtain ⟨hbefore, hsince⟩ := ih hpast fun e he => hremains e (List.mem_append_left _ he)
      have hafter := hremains last (List.mem_append_right _ (List.mem_singleton_self _))
      rw [life.frame.2, List.flatMap_append, List.flatMap_singleton, List.foldl_append]
      exact ⟨hafter, life.household.mirrors hsince (Position.nodup_children _) hbefore
        hafter⟩

end Life

/-! ## The pool of a child -/

/-- Siblings that are added go into the pool of siblings only. -/
theorem Regional.addSiblings_eq (r : Regional) (peers : List Peer) :
    r.addSiblings peers =
      { r with siblingPool := r.siblingPool.addAll (some r.siblingsMax) peers } := by
  unfold addSiblings Pool.addAll
  induction peers generalizing r with
  | nil => rfl
  | cons p rest ih => exact ih (r.addSibling p)

namespace Node.Shift

variable {n : Node} {a : Act} {p : Position}

/-- The bound on the siblings stays. -/
theorem siblingsMax (h : n.Shift a p) :
    p.regional.siblingsMax = n.position.regional.siblingsMax := by
  cases h with
  | heed father =>
      rw [(n.position.heed_frame ..).2.2.1]
      rfl
  | attach negotiating collected accepted =>
      obtain ⟨own, heq⟩ := n.position.attach_eq ..
      rw [heq]
      rfl
  | greet father =>
      change (Regional.addSiblings _ _).siblingsMax = _
      rw [Regional.addSiblings_eq]
      rfl
  | stay | welcome | keepHint | takeHint | hear | bury | serve | forget | lose | fork | found
  | forsake | learn => rfl

/-- A node that has a father before and after keeps its siblings unless the father tells it of
one. -/
theorem siblingPool_eq (h : n.Shift a p) (hbefore : n.position.father.isSome = true)
    (hafter : p.father.isSome = true) (hseeking : n.isSeeking = true → n.position.father = none)
    (hnews : ∀ origin message, a = .event (.message origin message) →
      message.isFamily = false) :
    p.regional.siblingPool = n.position.regional.siblingPool := by
  cases h with
  | heed father =>
      rw [(n.position.heed_frame ..).2.2.1]
      rfl
  | bury father | greet father => cases hnews _ _ rfl
  | lose | found => cases hafter
  | attach negotiating collected accepted =>
      have hroot := hseeking (isSeeking_of_holder negotiating rfl)
      rw [hroot] at hbefore
      cases hbefore
  | stay | welcome | keepHint | takeHint | hear | serve | forget | fork | forsake | learn => rfl

end Node.Shift

namespace Position

variable {p : Position} {father : Peer}

/-- Whoever has somebody for a father has a father. -/
theorem isSome_of_isFather (h : p.isFather father = true) : p.father.isSome = true := by
  obtain ⟨f, hf, -⟩ := Peer.isThe_iff.1 h
  rw [hf]
  rfl

/-- All descriptions of the father are of one peer. -/
theorem isFather_eq_same (h : p.isFather father = true) (origin : Peer) :
    p.isFather origin = origin.same father := by
  obtain ⟨f, hf, hid⟩ := Peer.isThe_iff.1 h
  rw [isFather, Peer.isThe, hf, Option.any_some, Peer.same, Peer.same, hid]

end Position

namespace Session

variable {σ : Type} [Transport σ] {s : Session σ}

/-- What a node makes of its siblings when a message tells it of one is what its father's news
make of them. -/
theorem siblings_onMessage {origin father : Peer} {message : Message}
    (hfather : s.node.position.isFather father = true) (hfamily : message.isFamily = true) :
    (s.onMessage origin message).node.position.regional.siblingPool =
      if origin.same father then
        s.node.position.regional.siblingPool.told s.node.self
          s.node.position.regional.siblingsMax message
      else s.node.position.regional.siblingPool := by
  rw [← Position.isFather_eq_same hfather]
  cases message with
  | newSibling news =>
      cases horigin : s.node.position.isFather origin with
      | false => simp [onMessage, horigin]
      | true =>
          cases hself : news.sibling.same s.node.self with
          | true => simp [onMessage, horigin, hself, Pool.told]
          | false =>
              simp [onMessage, horigin, hself, Pool.told, Position.onNewSibling, Position.hear,
                Regional.addSiblings_eq, Regional.setUpstream]
  | siblingDead news =>
      cases horigin : s.node.position.isFather origin with
      | false => simp [onMessage, horigin]
      | true =>
          simp [onMessage, horigin, Pool.told, Position.onSiblingDead, Position.hear,
            Regional.removeSibling]
  | request | response | update | candidates | goodCandidate | noLongerChild => cases hfamily

/-- What a node makes of its siblings in an act, if it has the same father before and after it,
is what the news from the father make of them. -/
theorem siblings_run {a : Act} {father : Peer} (possible : a.Possible s.node)
    (hbefore : s.node.position.isFather father = true)
    (hafter : (a.run s).node.position.isFather father = true)
    (hseeking : s.node.isSeeking = true → s.node.position.father = none) :
    (a.run s).node.position.regional.siblingPool =
      ((s.episode a).hears father).foldl
        (Pool.told s.node.self s.node.position.regional.siblingsMax)
        s.node.position.regional.siblingPool := by
  by_cases hnews : ∃ origin message, a = .event (.message origin message) ∧
      message.isFamily = true
  · obtain ⟨origin, message, rfl, hfamily⟩ := hnews
    refine (siblings_onMessage hbefore hfamily).trans ?_
    cases horigin : origin.same father <;> simp [Episode.hears, episode, hfamily, horigin]
  · have hother : ∀ origin message, a = .event (.message origin message) →
        message.isFamily = false := by
      intro origin message ha
      rw [Bool.eq_false_iff]
      exact fun hfamily => hnews ⟨origin, message, ha, hfamily⟩
    have hhears : (s.episode a).hears father = [] := by
      unfold Episode.hears
      split
      · rename_i origin message ha
        rw [hother origin message ha, Bool.and_false, if_neg Bool.false_ne_true]
      · rfl
    rw [hhears, List.foldl_nil]
    exact (turns_run s possible).shift.siblingPool_eq (Position.isSome_of_isFather hbefore)
      (Position.isSome_of_isFather hafter) hseeking hother

end Session

namespace Life

variable {cond : Episode → Prop} {past later : List Episode} {e : Episode} {n : Node}

/-- A node has room for as many siblings as it would take children. -/
theorem siblingsMax {history : List Episode} (life : Life cond history n) :
    n.position.regional.siblingsMax = n.settings.maxDegree := by
  induction life with
  | birth => rfl
  | @act past n a σ _ life outside ws possible meets ih =>
      obtain ⟨-, hsettings, hshift, -, -⟩ := Session.turns_run ⟨n, outside, ws, []⟩ possible
      rw [hsettings, hshift.siblingsMax]
      exact ih

/-- **The siblings of a child are what all the news that it has heard from its father make of
those that it was accepted among.** -/
theorem siblings_of_heard {father : Peer} (life : Life cond (past ++ e :: later) n)
    (hstart : e.after.position.isFather father = true)
    (hbeneath : ∀ e ∈ later, e.after.position.isFather father = true) :
    n.position.isFather father = true ∧
      n.position.regional.siblingPool =
        (later.flatMap (Episode.hears father)).foldl (Pool.told n.self n.settings.maxDegree)
          e.after.position.regional.siblingPool := by
  induction later using List.reverseRecOn generalizing n with
  | nil =>
      obtain ⟨rfl, -⟩ := life.last
      exact ⟨hstart, rfl⟩
  | append_singleton later last ih =>
      rw [← List.cons_append, ← List.append_assoc] at life
      obtain ⟨rfl, hpast, -, σ, _, outside, ws, possible, hepisode⟩ := life.last
      obtain ⟨hbefore, hpool⟩ := ih hpast fun e he => hbeneath e (List.mem_append_left _ he)
      have hafter := hbeneath last (List.mem_append_right _ (List.mem_singleton_self _))
      have hstep : last.after.position.regional.siblingPool =
          (last.hears father).foldl
            (Pool.told last.before.self last.before.position.regional.siblingsMax)
            last.before.position.regional.siblingPool := by
        rw [hepisode] at hafter ⊢
        exact Session.siblings_run possible hbefore hafter hpast.father_of_seeking
      rw [life.frame.1, life.frame.2, List.flatMap_append, List.flatMap_singleton,
        List.foldl_append, hstep, hpool, hpast.siblingsMax]
      exact ⟨hafter, rfl⟩

/-- Whoever is accepted in a fatherly life becomes a child, and learns of the children before
it. -/
theorem birth_of_accepts {child : Peer} {response : Response}
    (life : Life Episode.Fatherly (past ++ e :: later) n) (haccepts : e.Accepts child response) :
    ∃ requester : Peer, requester.same child = true ∧ e.Birth requester ∧
      response.answer = .accepted ⟨e.before.chain, e.before.position.children⟩ := by
  obtain ⟨⟨requester, request, hact, hsame, hsent⟩, haccepted⟩ := haccepts
  obtain ⟨-, hfatherly, σ, _, outside, ws, possible, hepisode⟩ := life.split rfl
  rw [hact] at hepisode
  have hbirth : e.Birth requester := by
    rw [hepisode] at hfatherly hsent ⊢
    rcases Session.birth_examine rfl hfatherly with ⟨⟨seen, hseen, -, hallowed⟩, -⟩ | hbirth
    · change _ ∈ (Session.examine _ requester request).trace.filterMap _ at hsent
      rw [hseen] at hsent
      obtain ⟨effect, heffect, hmail⟩ := List.mem_filterMap.1 hsent
      have hnone := Conduct.not_accepts_of_reticent (hallowed effect heffect)
      rw [Effect.accepts_of_mail? hmail, Message.accepts, haccepted] at hnone
      cases hnone
    · exact hbirth
  exact ⟨requester, hsame, hbirth, hbirth.response response hsent⟩

/-- A node that goes on with an acceptance is beneath the peer that it waited for, among the
siblings that the acceptance names. -/
theorem siblings_of_collects {father : Peer} {response : Response} {acceptance : Acceptance}
    (life : Life cond (past ++ e :: later) n) (hcollects : e.Collects father response)
    (haccepted : response.answer = .accepted acceptance) :
    e.after.position.isFather father = true ∧
      e.after.position.regional.siblingPool =
        Pool.empty.addAll (some e.after.settings.maxDegree)
          (acceptance.siblings.filter fun p => !p.same e.after.self) := by
  obtain ⟨hact, ⟨negotiation, hslot, hsame⟩, hcollected⟩ := hcollects
  obtain ⟨hpast, -, σ, _, outside, ws, possible, hepisode⟩ := life.split rfl
  rw [hact] at hepisode possible
  have hposition : e.after.position = (e.before.position.attach e.before.self negotiation.peer
      response.rank acceptance ws).1 := by
    rw [hepisode]
    exact (Session.node_resume_of_accepted hslot hcollected haccepted).1
  obtain ⟨own, heq⟩ := e.before.position.attach_eq e.before.self negotiation.peer response.rank
    acceptance ws
  rw [hposition, heq, life.frame.1, life.frame.2, ← hpast.siblingsMax]
  exact ⟨Peer.isThe_iff.2 ⟨_, rfl, (Peer.same_iff.1 hsame).symm⟩, rfl⟩

/-- **Siblings follow the father's children.**  A broker is accepted by another and attaches
beneath it, and has heard since then the news that its father has sent it since then.  Then its
siblings are the children of the father at this moment but for itself, each once, if both go by
the same bound on their degree. -/
theorem siblings_eq_children {past since past' later : List Episode}
    {accepting collecting : Episode} {father child : Node} {response : Response}
    (fatherly : Life Episode.Fatherly (past ++ accepting :: since) father)
    (life : Life cond (past' ++ collecting :: later) child)
    (degree : child.settings.maxDegree = father.settings.maxDegree)
    (accepts : accepting.Accepts child.self response)
    (collects : collecting.Collects father.self response)
    (remains : ∀ e ∈ since, child.self.among e.after.position.children = true)
    (beneath : ∀ e ∈ later, e.after.position.isFather father.self = true)
    (heard : later.flatMap (Episode.hears father.self) =
      since.flatMap (Episode.tells child.self)) :
    child.position.regional.siblings.Perm
        (father.position.children.filter fun p => !p.same child.self) ∧
      (child.position.regional.siblings.map Peer.id).Nodup := by
  obtain ⟨requester, hrequester, hbirth, haccepted⟩ := fatherly.birth_of_accepts accepts
  obtain ⟨hpast, -⟩ := fatherly.split rfl
  obtain ⟨hfather, hfirst⟩ := life.siblings_of_collects collects haccepted
  obtain ⟨-, hlast⟩ := life.siblings_of_heard hfather beneath
  have hmost : collecting.after.settings.maxDegree = accepting.before.settings.maxDegree := by
    rw [← life.frame_since.2, degree, fatherly.frame_since.2, fatherly.frame.2]
  have hbefore : (accepting.before.position.children.map Peer.id).Nodup :=
    Position.nodup_children _
  have hstart : collecting.after.position.regional.siblingPool.Mirrors child.self
      accepting.after.position.children := by
    rw [hfirst, ← life.frame_since.1, hmost]
    exact .of_acceptance hbefore hbirth.room.le hbirth.children hrequester
  have hchild : child.self.among accepting.after.position.children = true :=
    Peer.among_iff.2 ⟨requester, hbirth.children.mem_iff.2 (List.mem_cons_self ..),
      (Peer.same_iff.1 hrequester).symm⟩
  have hmirrors := (fatherly.mirrors hstart hchild remains).2
  rw [← degree, ← heard, ← hlast] at hmirrors
  exact ⟨hmirrors, hmirrors.nodup (Position.nodup_children _)⟩

end Life

namespace Rehearsal

/-- A broker that is accepted beside another, and after that hears of a third that is accepted
and of the first that is gone, has the third for its only sibling. -/
theorem siblings_eq_children_of_latecomer :
    let quartet : Directory := ⟨[broker 1 "x", broker 2 "y", broker 3 "z", broker 4 "w"]⟩
    let late := (Node.start .standard (broker 2 "y") still).1
    let asks := fun p : Peer => Act.event (.message p (.request ⟨late.position.rank, .none⟩))
    let young := newborn.grown quartet still [asks (broker 3 "z")]
    let accepting := young.live quartet still (asks (broker 2 "y"))
    let since := accepting.after.story quartet still
      [asks (broker 4 "w"), .event (.closed (broker 3 "z"))]
    let father := accepting.after.grown quartet still
      [asks (broker 4 "w"), .event (.closed (broker 3 "z"))]
    let response : Response :=
      ⟨accepting.after.position.rank, .accepted ⟨[], [broker 3 "z"]⟩⟩
    let courtship : List Act := [.start, .requestJoin "x", .begin (.join "x"), .advance,
      .advance, .event (.message (broker 1 "x") (.response response))]
    let news := (since.flatMap (Episode.tells (broker 2 "y"))).map fun message =>
      Act.event (.message (broker 1 "x") message)
    let collecting := (late.grown quartet still courtship).live quartet still .resume
    let later := collecting.after.story quartet still news
    let child := collecting.after.grown quartet still news
    Life Episode.Fatherly (newborn.story quartet still [asks (broker 3 "z")] ++
        accepting :: since) father ∧
      Life (fun _ => True) (late.story quartet still courtship ++ collecting :: later) child ∧
      child.settings.maxDegree = father.settings.maxDegree ∧
      accepting.Accepts child.self response ∧ collecting.Collects father.self response ∧
      (∀ e ∈ since, child.self.among e.after.position.children = true) ∧
      (∀ e ∈ later, e.after.position.isFather father.self = true) ∧
      later.flatMap (Episode.hears father.self) = since.flatMap (Episode.tells child.self) ∧
      (since.flatMap (Episode.tells child.self)).length = 2 ∧
      child.position.regional.siblings = [broker 4 "w"] ∧
      (child.position.regional.siblings.Perm
          (father.position.children.filter fun p => !p.same child.self) ∧
        (child.position.regional.siblings.map Peer.id).Nodup) := by
  intro quartet late asks young accepting since father response courtship news collecting later
    child
  have hfather : ∀ e ∈ newborn.story quartet still ([asks (broker 3 "z")] ++
      asks (broker 2 "y") :: [asks (broker 4 "w"), .event (.closed (broker 3 "z"))]),
      e.act.Possible e.before ∧ e.Fatherly := by decide +kernel
  have fatherly : Life Episode.Fatherly (newborn.story quartet still [asks (broker 3 "z")] ++
      accepting :: since) father :=
    (Life.birth .standard (broker 1 "x") still).story_of_append quartet still hfather
  have hchild : ∀ e ∈ late.story quartet still (courtship ++ .resume :: news),
      e.act.Possible e.before ∧ True := by decide +kernel
  have life : Life (fun _ => True) (late.story quartet still courtship ++ collecting :: later)
      child :=
    (Life.birth .standard (broker 2 "y") still).story_of_append quartet still hchild
  have degree : child.settings.maxDegree = father.settings.maxDegree := by decide +kernel
  have accepts : accepting.Accepts child.self response :=
    ⟨⟨broker 2 "y", ⟨late.position.rank, .none⟩, rfl, by decide +kernel, by decide +kernel⟩, rfl⟩
  have collects : collecting.Collects father.self response :=
    ⟨rfl, ⟨⟨broker 1 "x", .join⟩, by decide +kernel, by decide +kernel⟩, by decide +kernel⟩
  have remains : ∀ e ∈ since, child.self.among e.after.position.children = true := by
    decide +kernel
  have beneath : ∀ e ∈ later, e.after.position.isFather father.self = true := by decide +kernel
  have heard : later.flatMap (Episode.hears father.self) =
      since.flatMap (Episode.tells child.self) := by decide +kernel
  exact ⟨fatherly, life, degree, accepts, collects, remains, beneath, heard, by decide +kernel,
    by decide +kernel,
    fatherly.siblings_eq_children life degree accepts collects remains beneath heard⟩

end Rehearsal

end BrokerForest
