import BrokerForest.Proofs.Admission
import BrokerForest.Proofs.Capacity
import Mathlib.Data.List.DropRight
/-!
# The payload of an acceptance: what a child takes over from the node that accepts it

An acceptance carries the chain above the child and the children that it comes to stand
beside.  Each side cuts the chain at a bound of its own.  The child then takes it in from the
far end, into a pool that forgets the oldest beyond the bound and that is read from the newest;
so the order is turned round twice, and what is left is a first part of one chain.  The
siblings are taken in from the front, and the last of them are left.

Main statements:

* `Conduct.offering`, `Session.acceptance_eq` — an acceptance carries what the node offers;
* `Regional.contains_eq` — who is held is an ancestor or a sibling;
* `Session.remembers_attach` — what a node takes over from an acceptance;
* **`Session.attach_inherits`** — both sides together, for every child that is accepted.
-/

namespace BrokerForest

/-- The rule that nobody is accepted with any other message than one. -/
def Conduct.offering (offer : Message) : Conduct where
  opens _ := True
  sends _ message _ :=
    ∀ rank acceptance, message = .response ⟨rank, .accepted acceptance⟩ → message = offer

/-- Whoever is accepted gets the offer of the node as it was before. -/
theorem Session.offers_accept {σ : Type} [Transport σ] (s : Session σ) (child : Peer)
    (admission : Admission) :
    s.Keeps (.offering (s.node.offer admission)) (s.accept child admission) := by
  have hsend : s.Keeps (.offering (s.node.offer admission))
      (s.send child (s.node.offer admission) .control).2 := keeps_send s fun _ _ _ => rfl
  cases hsent : (s.send child (s.node.offer admission) .control).1 with
  | false => rwa [accept_of_not_sent hsent]
  | true =>
      rw [accept_of_sent hsent]
      refine hsend.trans (keeps_welcome _ (fun _ _ => trivial) ?_ ?_)
      · intro _ _ _ rank acceptance hm
        cases hm
      · intro _ _ _ _ rank acceptance hm
        cases hm

/-- What whoever is accepted is told of: the chain above the children of the node, and the
children that it has had so far. -/
theorem Session.acceptance_eq {σ : Type} [Transport σ] {s : Session σ} {child : Peer}
    {admission : Admission} {rank : Rank} {acceptance : Acceptance} {traffic : TrafficClass}
    {delivered : Bool}
    (h : .sent child (.response ⟨rank, .accepted acceptance⟩) traffic delivered ∈
      s.since (s.accept child admission)) :
    acceptance = ⟨s.node.chain, s.node.position.children⟩ := by
  have hoffer : .response ⟨rank, .accepted acceptance⟩ = s.node.offer admission :=
    (s.offers_accept child admission).allows h rank acceptance rfl
  cases hoffer
  rfl

namespace Regional

/-- Of siblings without repetitions the last are kept, as many as the bound allows. -/
theorem siblings_setSiblings (r : Regional) {siblings : List Peer}
    (h : (siblings.map Peer.id).Nodup) :
    (r.setSiblings siblings).siblings = siblings.rtake r.siblingsMax := by
  have hnew : ((Pool.empty.entries ++ siblings).map Peer.id).Nodup := by simpa [Pool.empty] using h
  have hempty : Pool.keepNewest (some r.siblingsMax) Pool.empty.entries = Pool.empty.entries := by
    simp [Pool.keepNewest, Pool.empty]
  exact Pool.entries_addAll_of_new hnew hempty

/-- Who is held is an ancestor or a sibling. -/
theorem contains_eq (r : Regional) (p : Peer) : r.contains p = p.among r.entries := by
  simp [contains, entries, Pool.contains, upstreamChain, siblings, Peer.among]

end Regional

/-- Beneath a father that has accepted it, a node remembers the ancestors and the siblings that
the acceptance names, as far as there is room. -/
theorem Session.remembers_attach {σ : Type} [Transport σ] (t : Session σ) (father : Peer)
    (rank : Rank) (acceptance : Acceptance) (hchain : (acceptance.upstream.map Peer.id).Nodup)
    (hsiblings : (acceptance.siblings.map Peer.id).Nodup) :
    let own := t.node.position.regional
    let after := (t.attach father rank acceptance).node
    after.settings = t.node.settings ∧ after.position.father = some father ∧
      after.position.regional.upstreamChain = acceptance.upstream.take own.upstreamMax ∧
      after.position.regional.siblings =
        (acceptance.siblings.filter fun q => !q.same t.node.self).rtake own.siblingsMax := by
  intro own after
  obtain ⟨place, hplace⟩ :=
    t.node.position.attach_eq t.node.self father rank acceptance t.words
  have hnode := node_attach t father rank acceptance
  have hposition := (congrArg Node.position hnode).trans hplace
  have hregional : after.position.regional = (own.setUpstream acceptance.upstream).setSiblings
      (acceptance.siblings.filter fun q => !q.same t.node.self) :=
    congrArg Position.regional hposition
  have hothers : ((acceptance.siblings.filter fun q => !q.same t.node.self).map Peer.id).Nodup :=
    hsiblings.sublist (List.filter_sublist.map _)
  refine ⟨(congrArg Node.settings hnode).trans rfl, congrArg Position.father hposition, ?_, ?_⟩
  · rw [hregional]
    exact own.upstreamChain_setUpstream hchain
  · rw [hregional]
    exact (own.setUpstream acceptance.upstream).siblings_setSiblings hothers

/-- **A child inherits the neighborhood of the node that accepts it.**  Whatever the node was,
as long as nobody is in the chain above it twice, and whatever the child was: once the child
attaches with the acceptance that the node sent it, the ancestors it remembers are the node's
father and those beyond him, as far as the bounds of both allow; its siblings are the last of
the children that the node had before, other than the child, in their order; nobody else is
left whom it remembered before; and its own children are to know of the father and of these
ancestors, up to its own bound.  The bounds of its pools are those of its settings throughout
its life. -/
theorem Session.attach_inherits {σ τ : Type} [Transport σ] [Transport τ] {s : Session σ}
    {t : Session τ} {child : Peer} {admission : Admission} {rank : Rank}
    {acceptance : Acceptance} {traffic : TrafficClass} {delivered : Bool} (father : Peer)
    (hoffered : .sent child (.response ⟨rank, .accepted acceptance⟩) traffic delivered ∈
      s.since (s.accept child admission))
    (hchain : ((s.node.position.father.toList ++
      s.node.position.regional.upstreamChain).map Peer.id).Nodup)
    (hself : child.same t.node.self = true) :
    let own := t.node.position.regional
    let after := (t.attach father rank acceptance).node
    let upstream := (s.node.position.father.toList ++
      s.node.position.regional.upstreamChain).take
        (min s.node.settings.upstreamMax own.upstreamMax)
    let siblings := (s.node.position.children.filter fun q => !q.same child).rtake own.siblingsMax
    after.position.regional.upstreamChain = upstream ∧
      after.position.regional.siblings = siblings ∧
      (∀ p, after.position.regional.contains p = p.among (upstream ++ siblings)) ∧
      after.chain = (father :: upstream).take t.node.settings.upstreamMax ∧
      ∀ cond history, Life cond history t.node →
        own.upstreamMax = t.node.settings.upstreamMax ∧
          own.siblingsMax = t.node.settings.maxDegree := by
  intro own after upstream siblings
  obtain rfl := acceptance_eq hoffered
  have hdistinct : (s.node.chain.map Peer.id).Nodup :=
    hchain.sublist ((List.take_sublist ..).map _)
  obtain ⟨hsettings, hfather, hancestors, hothers⟩ :=
    t.remembers_attach father rank ⟨s.node.chain, s.node.position.children⟩ hdistinct
      (Position.nodup_children _)
  -- The node cuts the chain at its bound before the child cuts it at its own.
  have hcut : s.node.chain.take own.upstreamMax = upstream := by
    rw [Node.chain, Position.chainForChildren, List.take_take, Nat.min_comm]
  have hsame : (fun q : Peer => !q.same t.node.self) = fun q => !q.same child := by
    funext q
    rw [Peer.same, Peer.same, Peer.same_iff.1 hself]
  have hupstream := hancestors.trans hcut
  rw [hsame] at hothers
  refine ⟨hupstream, hothers, fun p => ?_, ?_, fun cond history life => ?_⟩
  · rw [Regional.contains_eq, Regional.entries, hupstream, hothers]
  · rw [Node.chain, Position.chainForChildren, hfather, hupstream, hsettings,
      Option.toList_some, List.singleton_append]
  · obtain ⟨hgrown, -⟩ := life.grown
    exact ⟨hgrown.regional.upstreamMax, hgrown.regional.siblingsMax⟩

namespace Rehearsal

/-- A broker that is housed somewhere: with a father or without, with brokers beside it, and with
ancestors and siblings that it remembers. -/
def housed (settings : Settings) (self : Peer) (father : Option Peer)
    (brokers ancestors siblings : List Peer) : Session Directory where
  node := { (Node.start settings self still).1 with
    position := { (Node.start settings self still).1.position with
      father := father
      fatherDepth := father.map fun _ => ⟨1.0⟩
      neighbors := brokers.foldl Neighbors.add .empty
      regional := ((Regional.empty settings.upstreamMax settings.maxDegree).setUpstream
        ancestors).setSiblings siblings } }
  outside := trio
  words := still
  trace := []

/-- A node that has four ancestors and tells of three of them accepts another, which remembers
two, and the last two of three siblings.  It has forgotten the ancestor and the sibling that it
knew before. -/
theorem attach_inherits_of_newcomer :
    let s := housed { Settings.standard with upstreamMax := 3 } (broker 1 "x")
      (some (broker 4 "f")) [broker 4 "f", broker 5 "a", broker 6 "b", broker 7 "c"]
      [broker 8 "g", broker 9 "h", broker 10 "i"] []
    let t := housed { Settings.standard with upstreamMax := 2, maxDegree := 2 } (broker 2 "y")
      none [] [broker 11 "j"] [broker 12 "k"]
    let after := (t.attach (broker 1 "x") s.node.position.rank
      ⟨[broker 4 "f", broker 8 "g", broker 9 "h"],
        [broker 5 "a", broker 6 "b", broker 7 "c"]⟩).node
    after.position.regional.upstreamChain = [broker 4 "f", broker 8 "g"] ∧
      after.position.regional.siblings = [broker 6 "b", broker 7 "c"] ∧
      after.position.regional.contains (broker 11 "j") = false ∧
      after.position.regional.contains (broker 12 "k") = false ∧
      after.chain = [broker 1 "x", broker 4 "f"] := by
  intro s t after
  have hoffered : .sent (broker 2 "y") (.response ⟨s.node.position.rank,
      .accepted ⟨[broker 4 "f", broker 8 "g", broker 9 "h"],
        [broker 5 "a", broker 6 "b", broker 7 "c"]⟩⟩) .control true ∈
          s.since (s.accept (broker 2 "y") .keep) := by
    decide +kernel
  obtain ⟨hupstream, hsiblings, hcontains, hchain, -⟩ :=
    Session.attach_inherits (t := t) (broker 1 "x") hoffered (by decide +kernel)
      rfl
  exact ⟨hupstream.trans (by decide +kernel), hsiblings.trans (by decide +kernel),
    (hcontains _).trans (by decide +kernel), (hcontains _).trans (by decide +kernel),
    hchain.trans (by decide +kernel)⟩

end Rehearsal

end BrokerForest
