import BrokerForest.Network.Rehearsal
import BrokerForest.Proofs.RankInvariant
/-!
# The forest stays acyclic

A node attaches on an acceptance that may be long out of date, and goes by news of its
father that are as old as the link is slow.  What keeps the forest acyclic all the same is
that ranks only ever rise, that messages keep their order, and that a node takes its
father's word only where it stands beneath it: then every node stands under its father's
rank, and a cycle of fathers would stand under itself.

The condition cannot be left out.  A node that waits for an answer may take another color
or depth before the answer comes, and attaches without looking again.

Main statements:

* `Mesh.Later` — nothing that a peer has under way to a node but its requests, and no rank of
  its own, is lower than a given one;
* `Mesh.Sound` — every node is in order with respect to it, and no link carries a rank
  after a higher one;
* `Mesh.sound_step` — every step with an orderly act preserves this;
* **`Mesh.acyclic_of_reachable`** — whatever is reached by orderly acts, in any order and
  over any transport that keeps the order of messages, is acyclic.
-/

namespace BrokerForest

namespace Mesh

/-- The ranks on their way from one node to another, but for those of requests. -/
def told (m : Mesh) (v u : NodeId) : List Rank := (m.transit v u).filterMap Message.current?

/-- Whatever is on its way from `v` to `u` but requests, and the rank of `v` itself, is at least
as high as a given rank. -/
def Later (m : Mesh) (u v : NodeId) (rank : Rank) : Prop :=
  (∀ r ∈ m.told v u, rank.UpTo r) ∧
    ∀ n, m.node? v = some n → rank.UpTo n.position.rank

/-- What is later than a rank is later than all under it. -/
theorem Later.down {m : Mesh} {u v : NodeId} {r r' : Rank}
    (h : m.Later u v r) (hle : r'.UpTo r) : m.Later u v r' :=
  ⟨fun s hs => hle.trans (h.1 s hs), fun n hn => hle.trans (h.2 n hn)⟩

/-- A mesh is in order. -/
structure Sound (m : Mesh) : Prop where
  nodes : ∀ u n, m.node? u = some n → n.Sound (m.Later u)
  ascending : ∀ v u, (m.told v u).Pairwise Rank.UpTo
  sender : ∀ v u n, m.node? v = some n → ∀ r ∈ m.told v u, r.UpTo n.position.rank

end Mesh

/-- A node is in order whatever is known besides of what is to come. -/
theorem Node.Sound.mono {later later' : NodeId → Rank → Prop} {n : Node}
    (h : n.Sound later) (hle : ∀ v r, later v r → later' v r) : n.Sound later' where
  stands := ⟨h.stands.root, fun father hf => by
    obtain ⟨floor, hfloor, hlt, hlater⟩ := h.stands.beneath father hf
    exact ⟨floor, hfloor, hlt, hle _ _ hlater⟩⟩
  listens := ⟨fun peer response hr => hle _ _ (h.listens.heard peer response hr),
    h.listens.awaits⟩

namespace Mesh

variable {σ : Type} {m : Mesh} {u : NodeId} {n : Node} {s t : Session σ}

/-! ## What becomes of the ranks on their way -/

theorem told_after_of_ne {v : NodeId} (w : NodeId) (h : v ≠ u) :
    (m.after u s).told v w = m.told v w := by
  simp [told, after, h]

/-- What a node has put on its way comes after all that was on its way before. -/
theorem told_after_self (w : NodeId) :
    (m.after u s).told u w =
      m.told u w ++
        (((s.trace.filterMap Effect.mail?).filter fun mail => mail.1.id = w).map
          Prod.snd).filterMap Message.current? := by
  simp [told, after]

/-- The rank of a node after an act of one is what it was, or has risen. -/
theorem upTo_rank_after {v : NodeId} {n' : Node} {rank : Rank}
    (hup : n.position.rank.UpTo s.node.position.rank)
    (hnode : m.node? u = some n) (hn' : (m.after u s).node? v = some n')
    (hrank : ∀ k, m.node? v = some k → rank.UpTo k.position.rank) :
    rank.UpTo n'.position.rank := by
  by_cases hv : v = u
  · subst hv
    have hself : s.node = n' := by simpa [after] using hn'
    exact hself ▸ (hrank n hnode).trans hup
  · exact hrank n' (by simpa [after, Function.update_of_ne hv] using hn')

variable [Transport σ]

/-- All that a candid node has told is the given rank. -/
theorem eq_of_mem_mail {rank r : Rank} {w : NodeId} (hs : s.trace = [])
    (hk : s.Keeps (.candor rank) t)
    (hr : r ∈ (((t.trace.filterMap Effect.mail?).filter fun mail => mail.1.id = w).map
      Prod.snd).filterMap Message.current?) :
    r = rank := by
  obtain ⟨message, hmessage, hrank⟩ := List.mem_filterMap.1 hr
  obtain ⟨⟨peer, _⟩, hmail, rfl⟩ := List.mem_map.1 hmessage
  obtain ⟨e, he, hsent⟩ := List.mem_filterMap.1 (List.mem_filter.1 hmail).1
  have hallowed := hk.allows (by simpa [Session.since, hs] using he)
  unfold Effect.mail? at hsent
  split at hsent
  · cases hsent
    exact hallowed rfl r hrank
  · cases hsent

/-- The ranks told after an act are those told before, and then the rank that the node has
now. -/
theorem mem_told_after {v w : NodeId} {r : Rank} (hs : s.trace = [])
    (hk : s.Keeps (.candor t.node.position.rank) t)
    (hr : r ∈ (m.after u t).told v w) :
    r ∈ m.told v w ∨ v = u ∧ r = t.node.position.rank := by
  by_cases hv : v = u
  · subst hv
    rw [told_after_self] at hr
    rcases List.mem_append.1 hr with hr | hr
    · exact Or.inl hr
    · exact Or.inr ⟨rfl, eq_of_mem_mail hs hk hr⟩
  · rw [told_after_of_ne w hv] at hr
    exact Or.inl hr

/-- What was to come later than a rank is so after an act that lowers none. -/
theorem later_after {w v : NodeId} {rank : Rank} (hs : s.trace = []) (hsn : s.node = n)
    (hnode : m.node? u = some n) {later : NodeId → Rank → Prop} (hup : s.Upholds later t)
    (h : m.Later w v rank) :
    (m.after u t).Later w v rank := by
  subst hsn
  refine ⟨fun r hr => ?_, fun n' hn' => upTo_rank_after hup.rank hnode hn' h.2⟩
  rcases mem_told_after hs hup.candid hr with hr | ⟨rfl, rfl⟩
  · exact h.1 r hr
  · exact (h.2 _ hnode).trans hup.rank

/-- An act that upholds what is known of its node preserves the order of the mesh. -/
theorem sound_after (h : m.Sound) (hs : s.trace = []) (hsn : s.node = n)
    (hnode : m.node? u = some n) (hup : s.Upholds (m.Later u) t) :
    (m.after u t).Sound where
  nodes := by
    intro v k hk
    have hmono : ∀ w r, m.Later v w r → (m.after u t).Later v w r := fun w r =>
      later_after hs hsn hnode hup
    by_cases hv : v = u
    · subst hv
      have hself : t.node = k := by simpa [after] using hk
      exact hself ▸ hup.sound.mono hmono
    · exact (h.nodes v k (by simpa [after, Function.update_of_ne hv] using hk)).mono hmono
  ascending := by
    intro v w
    by_cases hv : v = u
    · subst hv
      rw [told_after_self, List.pairwise_append]
      refine ⟨h.ascending v w, ?_, ?_⟩
      · refine List.pairwise_of_forall_mem_list fun r hr r' hr' => ?_
        rw [eq_of_mem_mail hs hup.candid hr, eq_of_mem_mail hs hup.candid hr']
        exact .refl _
      · intro r hr r' hr'
        rw [eq_of_mem_mail hs hup.candid hr']
        exact (h.sender v w n hnode r hr).trans (hsn ▸ hup.rank)
    · rw [told_after_of_ne w hv]
      exact h.ascending v w
  sender := by
    intro v w k hk r hr
    rcases mem_told_after hs hup.candid hr with hr | ⟨rfl, rfl⟩
    · exact upTo_rank_after (hsn ▸ hup.rank) hnode hk fun k' hk' => h.sender v w k' hk' r hr
    · have hself : t.node = k := by simpa [after] using hk
      rw [hself]
      exact .refl _

/-! ## What becomes of a message -/

/-- What is on its way once the oldest message is not is part of what was. -/
theorem told_dropOldest (m : Mesh) (x y v w : NodeId) :
    List.Sublist ((m.dropOldest x y).told v w) (m.told v w) := by
  unfold told dropOldest
  dsimp only
  split
  · exact (List.tail_sublist _).filterMap _
  · exact .refl _

/-- What was to come later than a rank is so without the oldest message. -/
theorem later_dropOldest {x y v w : NodeId} {rank : Rank} (h : m.Later w v rank) :
    (m.dropOldest x y).Later w v rank :=
  ⟨fun r hr => h.1 r ((told_dropOldest m x y v w).subset hr), h.2⟩

/-- The order of a mesh is preserved when the oldest message is gone. -/
theorem sound_dropOldest (h : m.Sound) (x y : NodeId) : (m.dropOldest x y).Sound where
  nodes v n hn := (h.nodes v n hn).mono fun _ _ => later_dropOldest
  ascending v w := (h.ascending v w).sublist (told_dropOldest m x y v w)
  sender v w n hn r hr := h.sender v w n hn r ((told_dropOldest m x y v w).subset hr)

/-- The oldest message tells the lowest rank. -/
theorem later_of_oldest (h : m.Sound) {v : NodeId} {message : Message} {rest : List Message}
    {rank : Rank} (holdest : m.transit v u = message :: rest)
    (hrank : message.current? = some rank) :
    (m.dropOldest v u).Later u v rank := by
  have htold : m.told v u = rank :: (m.dropOldest v u).told v u := by
    simp [told, dropOldest, holdest, hrank]
  have hasc := h.ascending v u
  rw [htold, List.pairwise_cons] at hasc
  exact ⟨hasc.1, fun n hn => h.sender v u n hn rank (by simp [htold])⟩

/-- Experiencing the oldest message from a node preserves the order of a mesh. -/
theorem sound_deliver (h : m.Sound) {v : NodeId} {origin : Peer}
    {message : Message} {rest : List Message} {outside : σ} {ws : Words}
    (hnode : m.node? u = some n) (holdest : m.transit v u = message :: rest)
    (hsender : origin.id = v)
    (room : (Act.event (.message origin message)).Roomy n ws)
    (horderly : (Act.event (.message origin message)).Orderly n) :
    ((m.dropOldest v u).after u
      (Act.run ⟨n, outside, ws, []⟩ (.event (.message origin message)))).Sound := by
  have hdrop := sound_dropOldest h v u
  have hsound := hdrop.nodes u n hnode
  refine sound_after hdrop (s := ⟨n, outside, ws, []⟩) rfl rfl hnode
    (Session.upholds_message hsound ?_ ?_ ?_ room horderly)
  · exact fun _ _ _ => Later.down
  · intro rank hrank
    rw [hsender]
    exact later_of_oldest h holdest hrank
  · intro rank hrank hf floor hfloor
    obtain ⟨father, hfather, hid⟩ := Peer.isThe_iff.1 hf
    obtain ⟨floor', hfloor', _, hlater⟩ := (h.nodes u n hnode).stands.beneath father hfather
    have hfloors : floor' = floor := Option.some.inj (hfloor'.symm.trans hfloor)
    rw [hfloors, ← hid, hsender] at hlater
    exact hlater.1 rank (by simp [told, holdest, hrank])

/-- The order of a mesh is preserved when a node vanishes. -/
theorem sound_without (h : m.Sound) (u : NodeId) : (m.without u).Sound := by
  have hnode : ∀ v n, (m.without u).node? v = some n → m.node? v = some n := by
    intro v n hn
    by_cases hv : v = u
    · subst hv
      simp [without] at hn
    · simpa [without, Function.update_of_ne hv] using hn
  refine ⟨fun v n hn => (h.nodes v n (hnode v n hn)).mono ?_, h.ascending, ?_⟩
  · exact fun w r hr => ⟨hr.1, fun k hk => hr.2 k (hnode w k hk)⟩
  · exact fun v w n hn => h.sender v w n (hnode v n hn)

/-! ## Runs -/

/-- The condition under which the forest stays acyclic: the act is orderly, and there is
room around the depths that it reckons with. -/
def InOrder : ActCondition := fun n ws a => a.Roomy n ws ∧ a.Orderly n

instance (n : Node) (ws : Words) (a : Act) : Decidable (InOrder n ws a) :=
  inferInstanceAs (Decidable (_ ∧ _))

/-- Every step with an orderly act preserves the order of a mesh. -/
theorem sound_step {m' : Mesh} (h : m.Sound) (hstep : Step InOrder m m') : m'.Sound := by
  cases hstep with
  | act outside ws hnode hpossible hmeets hown =>
      exact sound_after h (s := ⟨_, outside, ws, []⟩) rfl rfl hnode
        (Session.upholds_act (h.nodes _ _ hnode) hown hmeets.1 hmeets.2)
  | deliver outside ws hnode holdest hsender hmeets =>
      exact sound_deliver h hnode holdest hsender hmeets.1 hmeets.2
  | lose v u => exact sound_dropOldest h v u
  | vanish u => exact sound_without h u

/-- A mesh at the start of all lives is in order. -/
theorem sound_of_fresh (h : m.Fresh) : m.Sound := by
  have htold : ∀ v u, m.told v u = [] := by
    intro v u
    simp [told, h.2 v u]
  refine ⟨fun u n hn => ?_, fun v u => by simp [htold], fun v u n _ r hr => ?_⟩
  · obtain ⟨settings, self, ws, rfl, _⟩ := h.1 u n hn
    exact ⟨Position.stands_of_root rfl rfl, Node.listens_of_empty rfl⟩
  · simp [htold] at hr

/-- Every mesh that is reached by orderly acts is in order. -/
theorem sound_of_reachable (h : m.Reachable InOrder) : m.Sound := by
  obtain ⟨start, hfresh, hrun⟩ := h
  induction hrun with
  | refl => exact sound_of_fresh hfresh
  | tail _ hstep ih => exact sound_step ih hstep

/-- A node stands under its father's rank. -/
theorem under_of_beneath (h : m.Sound) {u v : NodeId} {n k : Node}
    (hb : m.Beneath u v) (hn : m.node? u = some n) (hk : m.node? v = some k) :
    n.position.rank.Under k.position.rank := by
  obtain ⟨n', father, hn', hfather, hid⟩ := hb
  rw [hn] at hn'
  cases hn'
  obtain ⟨floor, _, hlt, hlater⟩ := (h.nodes u n hn).stands.beneath father hfather
  have hunder : n.position.rank.Under ⟨n.position.rank.color, floor⟩ := Or.inr ⟨rfl, hlt⟩
  exact hunder.trans_upTo (hlater.2 k (hid ▸ hk))

/-- A node stands under the ranks of all its ancestors. -/
theorem under_of_ancestor (h : m.Sound) {u v : NodeId} {n k : Node}
    (hb : Relation.TransGen m.Beneath u v) (hn : m.node? u = some n)
    (hk : m.node? v = some k) :
    n.position.rank.Under k.position.rank := by
  induction hb generalizing k with
  | single hb => exact under_of_beneath h hb hn hk
  | tail _ hb ih =>
      obtain ⟨b, father, hbnode, _⟩ := id hb
      exact (ih hbnode).trans (under_of_beneath h hb hbnode hk)

/-- **Whatever is reached by orderly acts is acyclic**: in any order of acts, over any
transport that keeps the order of messages, and however many of them it loses. -/
theorem acyclic_of_reachable (h : m.Reachable InOrder) : m.Acyclic := by
  intro u hcycle
  have hnode : ∃ n, m.node? u = some n := by
    obtain ⟨v, hb, _⟩ := Relation.TransGen.head'_iff.1 hcycle
    obtain ⟨n, _, hn, _⟩ := hb
    exact ⟨n, hn⟩
  obtain ⟨n, hn⟩ := hnode
  exact n.position.rank.not_under_self
    (under_of_ancestor (sound_of_reachable h) hcycle hn hn)

end Mesh

/-! ## Three brokers -/

namespace Rehearsal

/-- The three brokers at the start of their lives. -/
def overture : Rehearsal where
  nodes := trio.peers.map fun p => (p.id, (Node.start .standard p still).1)
  letters := []

/-- Whatever the brokers begin with is reachable. -/
theorem reachable_overture (cond : ActCondition) : overture.mesh.Reachable cond := by
  refine ⟨_, ⟨fun u n hn => ?_, fun _ _ => rfl⟩, .refl⟩
  obtain ⟨before, after, hnodes, _⟩ := List.lookup_eq_some_iff.1 hn
  have hmem : (u, n) ∈ overture.nodes := by simp [hnodes]
  obtain ⟨p, _, hp⟩ := List.mem_map.1 hmem
  cases hp
  exact ⟨.standard, p, still, rfl, rfl⟩

/-- Who a broker's father is. -/
def fatherOf (r : Rehearsal) (p : Peer) : Option NodeId :=
  (r.nodes.lookup p.id).bind fun n => n.position.father.map Peer.id

/-- A broker is beneath its father. -/
theorem beneath_of_fatherOf {r : Rehearsal} {p : Peer} {v : NodeId}
    (h : r.fatherOf p = some v) : r.mesh.Beneath p.id v := by
  obtain ⟨n, hn, hfather⟩ := Option.bind_eq_some_iff.1 h
  obtain ⟨father, hsome, hid⟩ := Option.map_eq_some_iff.1 hfather
  exact ⟨n, father, hn, hsome, hid⟩

/-- The third broker becomes the root of a new tree, and the second joins it. -/
def secondJoinsThird : List Move :=
  let y := (broker 2 "y").id
  let z := (broker 3 "z").id
  [.act z .start, .act z .requestReroot, .act z (.begin .reroot), .act z .advance,
    .act y .start, .act y (.requestJoin "z"), .act y (.begin (.join "z")), .act y .advance,
    .act y .advance, .deliver y z, .deliver z y, .act y .resume]

/-- The first broker asks the second; before it takes the answer, it takes the color of the
third, which asks it, and accepts it. -/
def firstIsOvertaken : List Move :=
  let x := (broker 1 "x").id
  let y := (broker 2 "y").id
  let z := (broker 3 "z").id
  [.act x .start, .act x (.requestJoin "y"), .act x (.begin (.join "y")), .act x .advance,
    .act x .advance, .deliver x y, .act z (.requestJoin "x"), .act z (.begin (.join "x")),
    .act z .advance, .act z .advance, .deliver z x, .deliver y x, .deliver x z, .act x .resume,
    .act z .resume]

end Rehearsal

namespace Mesh

open Rehearsal

/-- A broker that joins another by orderly acts ends beneath it, and the mesh is acyclic. -/
theorem acyclic_of_secondJoinsThird :
    ∃ m : Mesh, m.Reachable InOrder ∧ m.Beneath (broker 2 "y").id (broker 3 "z").id ∧
      m.Acyclic := by
  have hplay : ((overture.play InOrder trio still secondJoinsThird).map
      fun r => r.fatherOf (broker 2 "y")) = some (some (broker 3 "z").id) := by
    decide +kernel
  obtain ⟨r, hr, hfather⟩ := Option.map_eq_some_iff.1 hplay
  have hreachable := reachable_play (reachable_overture InOrder) hr
  exact ⟨r.mesh, hreachable, beneath_of_fatherOf hfather, acyclic_of_reachable hreachable⟩

/-- Without the condition brokers that do nothing but join one another come to a cycle: a
broker that waits for an answer takes another tree's color, accepts its root, and attaches
within that tree when the answer comes. -/
theorem exists_reachable_not_acyclic :
    ∃ m : Mesh, m.Reachable (fun _ _ _ => True) ∧ ¬ m.Acyclic := by
  have hplay : ((overture.play (fun _ _ _ => True) trio still
      (secondJoinsThird ++ firstIsOvertaken)).map fun r =>
        (r.fatherOf (broker 1 "x"), r.fatherOf (broker 2 "y"), r.fatherOf (broker 3 "z"))) =
      some (some (broker 2 "y").id, some (broker 3 "z").id, some (broker 1 "x").id) := by
    decide +kernel
  obtain ⟨r, hr, hfathers⟩ := Option.map_eq_some_iff.1 hplay
  simp only [Prod.mk.injEq] at hfathers
  obtain ⟨hx, hy, hz⟩ := hfathers
  refine ⟨r.mesh, reachable_play (reachable_overture _) hr, fun hacyclic => ?_⟩
  exact hacyclic _ (.tail (.tail (.single (beneath_of_fatherOf hx)) (beneath_of_fatherOf hy))
    (beneath_of_fatherOf hz))

end Mesh

end BrokerForest
