import BrokerForest.Proofs.UpdateHandling
import Mathlib.Algebra.Group.Nat.Defs
/-!
# Uprooting: what a move makes of the trees around it

A node that stands in a tree and comes to another place keeps its children, and tells each
of them, once, of the chain above it; whatever else it sends goes to nobody below it.

Main statements:

* `Mesh.Trees.at_unique` — a node is below another at one distance only;
* `Mesh.Trees.children` — the children of a node are those that have it as their father;
* `Mesh.Moved` — what is to be known of the network after a move;
* **`Mesh.Moves.moved`** — so it is after every move.
-/

namespace BrokerForest

namespace Mesh

variable {m : Mesh} {nodes : Finset NodeId} {most : Nat} {t u v w : NodeId} {n : Node} {k j : Nat}

/-! ## Distances -/

theorem beneath_iff (h : m.node? u = some n) : m.Beneath u v ↔ n.position.under v = true := by
  rw [Position.under, Option.any_eq_true]
  simp [Beneath, h]

/-- A node has one father at most. -/
theorem Beneath.unique (h : m.Beneath u v) (h' : m.Beneath u w) : v = w := by
  obtain ⟨n, father, hn, hfather, rfl⟩ := h
  obtain ⟨n', father', hn', hfather', rfl⟩ := h'
  rw [hn] at hn'
  cases hn'
  rw [hfather] at hfather'
  cases hfather'
  rfl

theorem At.ancestor (h : m.At t k u) : Relation.ReflTransGen m.Beneath u t := by
  induction h with
  | top => exact .refl
  | next _ beneath ih => exact .head beneath ih

/-- A node at some distance below another is this one itself, or has a father. -/
theorem At.eq_or_beneath (h : m.At t k u) : u = t ∨ ∃ v, m.Beneath u v := by
  cases h with
  | top => exact Or.inl rfl
  | next _ beneath => exact Or.inr ⟨_, beneath⟩

/-- No node is below itself. -/
theorem Trees.not_at_succ (trees : m.Trees nodes most) : ¬ m.At t (k + 1) t := by
  rintro (_ | ⟨above, beneath⟩)
  exact trees.acyclic t (.head' beneath above.ancestor)

/-- A node is below another at one distance only. -/
theorem Trees.at_unique (trees : m.Trees nodes most) (h : m.At t k u) (h' : m.At t j u) :
    k = j := by
  induction h generalizing j with
  | top =>
      cases j with
      | zero => rfl
      | succ j => exact absurd h' trees.not_at_succ
  | @next k v u above beneath ih =>
      cases h' with
      | top => exact absurd (above.next beneath) trees.not_at_succ
      | next above' beneath' => rw [ih (beneath.unique beneath' ▸ above')]

theorem Trees.ne_top (trees : m.Trees nodes most) (h : m.At t (k + 1) u) : u ≠ t := by
  rintro rfl
  exact trees.not_at_succ h

/-- A node is not its father's father. -/
theorem Trees.not_beneath (trees : m.Trees nodes most) (h : m.Beneath u v) : ¬ m.Beneath v u :=
  fun h' => trees.acyclic u (.tail (.single h) h')

/-- A father is not beneath the node. -/
theorem Trees.not_at_of_beneath (trees : m.Trees nodes most) (h : m.Beneath t v) :
    ¬ m.At t k v :=
  fun hat => trees.acyclic t (.head' h hat.ancestor)

/-! ## Children -/

theorem Trees.has_iff (trees : m.Trees nodes most) (h : m.node? u = some n) :
    n.position.has v = true ↔ m.Beneath u v ∨ m.Beneath v u := by
  rw [Position.has_iff]
  exact trees.beside u n h v

end Mesh

/-- The children of a position are those of whom something is true. -/
def Position.Raises (p : Position) (K : NodeId → Prop) : Prop :=
  ∀ v, v ∈ p.children.map Peer.id ↔ K v

/-- A position whose brokers, the father left out of account, are those of whom something is
true. -/
def Position.Surrounded (p : Position) (K : NodeId → Prop) : Prop := ∀ v, p.has v = true ↔ K v

namespace Position

variable {p : Position} {K : NodeId → Prop}

theorem raises_newTree (h : p.Surrounded K) (self : Peer) (ws : Words) :
    (p.newTree self ws).1.Raises K :=
  fun v => mem_children_iff.trans ((and_iff_left rfl).trans (h v))

theorem above_newTree (p : Position) (self : Peer) (ws : Words) :
    (p.newTree self ws).1.above = [] := rfl

/-- Whoever accepts a node and was not beside it is no child of it. -/
theorem raises_attach (h : p.Surrounded K) {father : Peer} (hother : ¬ K father.id) (self : Peer)
    (rank : Rank) (acceptance : Acceptance) (ws : Words) :
    (p.attach self father rank acceptance ws).1.Raises K := by
  obtain ⟨own, hattach⟩ := p.attach_eq self father rank acceptance ws
  have hbrokers : (p.neighbors.add father).brokers = p.neighbors.brokers ∨
      (p.neighbors.add father).brokers = Neighbors.insert father p.neighbors.brokers := by
    unfold Neighbors.add
    split
    · exact Or.inr rfl
    · exact Or.inl rfl
  have hmem : ∀ v, v ≠ father.id →
      (v ∈ (p.neighbors.add father).brokers.map Peer.id ↔ v ∈ p.neighbors.brokers.map Peer.id) := by
    intro v hv
    rcases hbrokers with heq | heq
    · rw [heq]
    · rw [heq, Neighbors.mem_insert, or_iff_right hv]
  intro v
  rw [mem_children_iff, has_iff, hattach, under]
  dsimp only
  by_cases hv : v = father.id
  · subst hv
    simpa using hother
  · rw [hmem v hv, ← has_iff, h]
    simpa [eq_comm] using fun _ => hv

/-- A node knows the father that accepts it and the chain above this father. -/
theorem above_attach (p : Position) (self father : Peer) (rank : Rank) {acceptance : Acceptance}
    (ws : Words) (h : (acceptance.upstream.map Peer.id).Nodup) :
    (p.attach self father rank acceptance ws).1.above =
      father.id :: (acceptance.upstream.map Peer.id).take p.regional.upstreamMax := by
  obtain ⟨own, hattach⟩ := p.attach_eq self father rank acceptance ws
  have hchain : ((p.regional.setUpstream acceptance.upstream).setSiblings
      (acceptance.siblings.filter fun sibling => !sibling.same self)).upstreamChain =
        acceptance.upstream.take p.regional.upstreamMax :=
    p.regional.upstreamChain_setUpstream h
  rw [hattach, above]
  simp [hchain, List.map_take]

end Position

namespace Mesh

variable {m : Mesh} {nodes : Finset NodeId} {most : Nat} {t u v w : NodeId} {n : Node} {k : Nat}

/-- The children of a node are those that have it as their father. -/
theorem Trees.children (trees : m.Trees nodes most) (h : m.node? u = some n) :
    n.position.Raises fun v => m.Beneath v u := by
  intro v
  rw [Position.mem_children_iff, trees.has_iff h, Bool.eq_false_iff, ne_eq, ← beneath_iff h]
  exact ⟨fun hv => hv.1.resolve_left hv.2, fun hv => ⟨Or.inr hv, trees.not_beneath hv⟩⟩

/-- A root has its children beside it. -/
theorem Trees.surrounded_of_root (trees : m.Trees nodes most) (h : m.node? t = some n)
    (hroot : n.position.father = none) : n.position.Surrounded fun v => m.Beneath v t := by
  intro v
  rw [trees.has_iff h, beneath_iff h]
  simp [Position.under, hroot]

/-- Without its father a node has its children beside it. -/
theorem Trees.surrounded_of_forget (trees : m.Trees nodes most) (h : m.node? t = some n)
    {father : Peer} (hfather : n.position.father = some father) :
    (n.position.forget father).Surrounded fun v => m.Beneath v t := by
  have hbeneath : m.Beneath t father.id := ⟨n, father, h, hfather, rfl⟩
  intro v
  rw [Position.has_forget, Bool.and_eq_true, decide_eq_true_eq, trees.has_iff h]
  constructor
  · rintro ⟨hv | hv, hne⟩
    · exact absurd (hv.unique hbeneath) hne
    · exact hv
  · intro hv
    refine ⟨Or.inr hv, ?_⟩
    rintro rfl
    exact trees.not_beneath hv hbeneath

/-! ## Leaving the father -/

/-- A session of a node that is about to move: its father is left out of account, and it has
sent nothing to anybody below it. -/
structure Leaves {σ : Type} (m : Mesh) (t : NodeId) (most : Nat) (s : Session σ) : Prop where
  surrounded : s.node.position.Surrounded fun v => m.Beneath v t
  bound : s.node.settings.upstreamMax = most ∧ s.node.position.regional.upstreamMax = most
  hops : s.node.settings.updateHops = none
  posts : ∀ post ∈ s.posts, post.2.isUpdate = false ∧ ∀ k, ¬ m.At t (k + 1) post.1.id

variable {σ : Type} [Transport σ]

theorem Trees.leaves_bereft (trees : m.Trees nodes most) (h : m.node? t = some n) (outside : σ)
    (ws : Words) : m.Leaves t most (Session.mk n outside ws []).bereft := by
  cases hfather : n.position.father with
  | none =>
      have hbereft : (Session.mk n outside ws []).bereft = Session.mk n outside ws [] := by
        simp [Session.bereft, hfather]
      rw [hbereft]
      exact ⟨trees.surrounded_of_root h hfather, trees.most t n h, trees.hops t n h,
        by simp [Session.posts]⟩
  | some father =>
      have hbereft : (Session.mk n outside ws []).bereft =
          (Session.mk n outside ws []).depart father := by
        simp [Session.bereft, hfather]
      have hbroker : n.position.neighbors.isBroker father = true := by
        rw [← Position.has_id, trees.has_iff h]
        exact Or.inl ⟨n, father, h, hfather, rfl⟩
      have hisFather : n.position.isFather father = true := Peer.isThe_iff.2 ⟨father, hfather, rfl⟩
      have hnode :=
        Session.node_depart_of_father (s := Session.mk n outside ws []) hbroker hisFather
      have hsurrounded := trees.surrounded_of_forget h hfather
      rw [hbereft]
      refine ⟨?_, ?_, ?_, ?_⟩
      · rw [hnode]
        exact hsurrounded
      · rw [hnode]
        exact trees.most t n h
      · rw [hnode]
        exact trees.hops t n h
      · have hposts : ((Session.mk n outside ws []).depart father).posts = [] := by
          unfold Session.depart
          cases hs : n.stopped <;> simp [hbroker, hisFather, hs] <;> simp [Session.posts]
        simp [hposts]

/-- A father that is told so and then forgotten is left. -/
theorem Trees.leaves_forsake (trees : m.Trees nodes most) (h : m.node? t = some n)
    {father : Peer} (hfather : n.position.father = some father) (outside : σ) (ws : Words) :
    m.Leaves t most
      ((((Session.mk n outside ws []).tell father .noLongerChild).hold
        (.leaving father)).forsake father) := by
  have hbeneath : m.Beneath t father.id := ⟨n, father, h, hfather, rfl⟩
  refine ⟨trees.surrounded_of_forget h hfather, trees.most t n h, trees.hops t n h, ?_⟩
  simp only [Session.forsake, Session.posts_hold, Session.posts_closeLink,
    Session.posts_withPosition, Session.posts_tell]
  intro post hpost
  obtain rfl : post = (father, .noLongerChild) := by simpa [Session.posts] using hpost
  exact ⟨rfl, fun k => trees.not_at_of_beneath hbeneath⟩

omit [Transport σ] in
/-- A root is about to move as it stands. -/
theorem Trees.leaves_root (trees : m.Trees nodes most) (h : m.node? t = some n)
    (hroot : n.position.father = none) (outside : σ) (ws : Words) :
    m.Leaves t most ((Session.mk n outside ws []).hold (.founding false)) :=
  { surrounded := trees.surrounded_of_root (n := n) h hroot
    bound := trees.most t n h
    hops := trees.hops t n h
    posts := by simp only [Session.posts_hold]; simp [Session.posts] }

/-! ## What is on its way afterwards -/

omit [Transport σ] in
/-- What is on its way after a node has acted and nothing that it sent was lost. -/
theorem transit_after {s : Session σ} (h : ∀ e ∈ s.trace, e.Passes) (m : Mesh) (u v w : NodeId) :
    (m.after u s).transit v w = m.transit v w ++
      if v = u then (s.posts.filter fun post => post.1.id = w).map Prod.snd else [] := by
  unfold Mesh.after
  rw [Effect.filterMap_mail? h]
  dsimp only
  split
  · rfl
  · rw [List.append_nil]

/-- Of a message to some peers, each of them gets one. -/
theorem filter_posts {peers : List Peer} (h : (peers.map Peer.id).Nodup) (message : Message)
    (w : NodeId) :
    ((peers.map fun peer => (peer, message)).filter fun post => post.1.id = w).map Prod.snd =
      if w ∈ peers.map Peer.id then [message] else [] := by
  induction peers with
  | nil => rfl
  | cons peer rest ih =>
      rw [List.map_cons, List.nodup_cons] at h
      by_cases hw : peer.id = w
      · subst hw
        simp [ih h.2, h.1]
      · have hw' : ¬ w = peer.id := fun heq => hw heq.symm
        simp [ih h.2, hw, hw']

/-- What is to be known of the network after a node has moved: who is above it now, and that
each child is told of it. -/
structure Moved (m : Mesh) (t : NodeId) (most : Nat) (top : Node) (m' : Mesh) : Prop where
  node : m'.node? = Function.update m.node? t (some top)
  bound : top.settings.upstreamMax = most
  distinct : top.position.above.Nodup
  apart : ∀ w ∈ top.position.above, ∀ k, ¬ m.At t k w
  told : ∀ u, m.Beneath u t → ∃ news, m'.transit t u = [.update news] ∧
    news.upstream = top.chain ∧ news.hops.toNat = most
  quiet : ∀ v u, ¬ (v = t ∧ m.Beneath u t) →
    (∀ message ∈ m'.transit v u, message.isUpdate = false) ∧
      ∀ k, m.At t (k + 1) u → m'.transit v u = []

omit [Transport σ] in
/-- A node that leaves its father and then tells its children of its new place has moved. -/
theorem moved_of_leaves (trees : m.Trees nodes most) (hmost : most < 2 ^ 32) {s s' : Session σ}
    (leaves : m.Leaves t most s) (hsettings : s'.node.settings = s.node.settings)
    (raises : s'.node.position.Raises fun v => m.Beneath v t)
    (hposts : s'.posts = s.posts ++
      s'.node.position.children.map fun peer => (peer, s'.node.update s'.node.chain))
    (passes : ∀ e ∈ s'.trace, e.Passes) (distinct : s'.node.position.above.Nodup)
    (apart : ∀ w ∈ s'.node.position.above, ∀ k, ¬ m.At t k w) :
    m.Moved t most s'.node (m.after t s') := by
  have htransit : ∀ v u, (m.after t s').transit v u =
      if v = t then ((s.posts.filter fun post => post.1.id = u).map Prod.snd) ++
        (if u ∈ s'.node.position.children.map Peer.id then [s'.node.update s'.node.chain]
          else []) else [] := by
    intro v u
    rw [transit_after passes, trees.still, List.nil_append, hposts, List.filter_append,
      List.map_append, filter_posts (Position.nodup_children _)]
  have hbefore : ∀ u message, message ∈ (s.posts.filter fun post => post.1.id = u).map Prod.snd →
      message.isUpdate = false ∧ ∀ k, ¬ m.At t (k + 1) u := by
    intro u message hmessage
    obtain ⟨post, hpost, rfl⟩ := List.mem_map.1 hmessage
    obtain ⟨hin, hid⟩ := List.mem_filter.1 hpost
    obtain rfl : post.1.id = u := by simpa using hid
    exact leaves.posts post hin
  have hnone : ∀ u k, m.At t (k + 1) u →
      (s.posts.filter fun post => post.1.id = u).map Prod.snd = [] := fun u k hat =>
    List.eq_nil_iff_forall_not_mem.2 fun message hmessage => (hbefore u message hmessage).2 k hat
  refine ⟨rfl, hsettings ▸ leaves.bound.1, distinct, apart, fun u hu => ?_, fun v u hvu => ?_⟩
  · refine ⟨⟨s'.node.position.rank, s'.node.chain, s'.node.settings.hops⟩, ?_, rfl, ?_⟩
    · rw [htransit, if_pos rfl, if_pos ((raises u).2 hu), hnone u 0 (At.top.next hu)]
      rfl
    · have hhops : s'.node.settings.hops = UInt32.ofNat most := by
        rw [hsettings, Settings.hops, leaves.hops, leaves.bound.1]
        rfl
      rw [hhops, UInt32.toNat_ofNat']
      exact Nat.mod_eq_of_lt hmost
  · by_cases hv : v = t
    · have hu : ¬ m.Beneath u t := fun hu => hvu ⟨hv, hu⟩
      rw [htransit, if_pos hv, if_neg (mt (raises u).1 hu), List.append_nil]
      exact ⟨fun message hmessage => (hbefore u message hmessage).1, hnone u⟩
    · rw [htransit, if_neg hv]
      exact ⟨by simp, fun _ _ => rfl⟩

/-- The root of a new tree has moved, whether or not it then looks for another tree. -/
theorem moved_newTree (trees : m.Trees nodes most) (hmost : most < 2 ^ 32) {s s' : Session σ}
    (leaves : m.Leaves t most s)
    (hsettings : s'.node.settings = s.newTree.node.settings)
    (hposition : s'.node.position = s.newTree.node.position) (htrace : s'.trace = s.newTree.trace)
    (passes : ∀ e ∈ s'.trace, e.Passes) :
    m.Moved t most s'.node (m.after t s') := by
  rw [Session.node_newTree] at hsettings hposition
  have habove : s'.node.position.above = [] := by
    rw [hposition]
    exact Position.above_newTree ..
  have hchain : s'.node.chain = [] := by
    rw [Position.above, List.map_eq_nil_iff] at habove
    simp [Node.chain, Position.chainForChildren, habove]
  refine moved_of_leaves trees hmost leaves hsettings ?_ ?_ passes (by simp [habove])
    (by simp [habove])
  · rw [hposition]
    exact Position.raises_newTree leaves.surrounded _ _
  · have hposts : s'.posts = s.newTree.posts := congrArg (List.filterMap Effect.post?) htrace
    rw [hposts, Session.posts_newTree, hchain, Session.node_newTree, hposition]
    simp only [Node.update, hposition, hsettings]

/-- A node that has left its father and founds a tree has moved. -/
theorem moved_found (trees : m.Trees nodes most) (hmost : most < 2 ^ 32) {s : Session σ}
    (leaves : m.Leaves t most s) (passes : ∀ e ∈ (s.found false).trace, e.Passes) :
    m.Moved t most (s.found false).node (m.after t (s.found false)) := by
  refine moved_newTree trees hmost leaves ?_ ?_ ?_ passes
  all_goals
    simp only [Session.found, Bool.false_eq_true, if_false, Session.release, Session.withNode]
    split <;> rfl

/-- **After a move the node has its new ancestors above it, and each child is told of it.** -/
theorem Moves.moved {m' : Mesh} (h : m.Moves t m') (trees : m.Trees nodes most)
    (hmost : most < 2 ^ 32) : ∃ top, m.Moved t most top m' := by
  cases h with
  | attach outside ws father rank acceptance node distinct apart passes =>
      have leaves := trees.leaves_bereft node outside ws
      generalize (Session.mk _ outside ws []).bereft = s at passes leaves ⊢
      have hposition : (s.attach father rank acceptance).node.position =
          (s.node.position.attach s.node.self father rank acceptance s.words).1 := by
        rw [Session.node_attach]
      have hother : ¬ m.Beneath father.id t := fun hbeneath =>
        apart father (by simp) 1 (At.top.next hbeneath)
      rw [List.map_cons] at distinct
      have habove := s.node.position.above_attach s.node.self father rank s.words
        (List.nodup_cons.1 distinct).2
      refine ⟨_, moved_of_leaves trees hmost leaves (by rw [Session.node_attach]) ?_
        (s.posts_attach father rank acceptance) passes ?_ ?_⟩
      · rw [hposition]
        exact Position.raises_attach leaves.surrounded hother _ _ _ _
      · rw [hposition, habove]
        exact distinct.sublist ((List.take_sublist ..).cons_cons _)
      · rw [hposition, habove]
        intro w hw k
        have hw' : w ∈ (father :: acceptance.upstream).map Peer.id := by
          rcases List.mem_cons.1 hw with rfl | hw
          · simp
          · exact List.mem_cons_of_mem _ (List.mem_of_mem_take hw)
        obtain ⟨p, hp, rfl⟩ := List.mem_map.1 hw'
        exact apart p hp k
  | newTree outside ws node passes =>
      exact ⟨_, moved_newTree trees hmost (trees.leaves_bereft node outside ws) rfl rfl rfl passes⟩
  | @reroot n _ _ outside ws node passes =>
      cases hfather : n.position.father with
      | none =>
          have hsession : (Session.mk n outside ws []).reroot.advance.advance =
              ((Session.mk n outside ws []).hold (.founding false)).found false := by
            simp only [Session.reroot, hfather]
            have hfound : ((Session.mk n outside ws []).hold (.founding false)).advance =
                ((Session.mk n outside ws []).hold (.founding false)).found false :=
              Session.advance_of_founding rfl
            rw [hfound]
            exact Session.advance_of_not_ready (by rw [Session.node_found]; rfl)
          rw [hsession] at passes ⊢
          exact ⟨_, moved_found trees hmost (trees.leaves_root node hfather outside ws) passes⟩
      | some father =>
          have hsession : (Session.mk n outside ws []).reroot.advance.advance =
              ((((Session.mk n outside ws []).tell father .noLongerChild).hold
                (.leaving father)).forsake father).found false := by
            simp only [Session.reroot, hfather]
            rfl
          rw [hsession] at passes ⊢
          exact ⟨_, moved_found trees hmost (trees.leaves_forsake node hfather outside ws) passes⟩

end Mesh

end BrokerForest
