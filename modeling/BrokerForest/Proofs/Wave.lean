import BrokerForest.Network.Rehearsal
import BrokerForest.Proofs.Uprooting
/-!
# Waves: every update reaches whom it concerns, and the news come to an end

A node that moves tells its children of the chain above it, with a number of hops as great
as the bound of the chain.  A node at the distance `k + 1` below it hears with `most - k` hops
to go, and hands its own chain on unless there are none left and its rank is what it was.  By
then `most` of its closest ancestors stand below the node that moved, so that the chain it
would hand on is the one that its children have had all along.  This is where the number of
hops is not one too small.

Main statements:

* `Mesh.Rolling` — how things stand while updates are on their way;
* `Mesh.Moved.rolling`, `Mesh.Rolling.hears`, `Mesh.Rolling.wave` — so they stand after the
  move, after each update that arrives, and throughout a wave;
* `Mesh.Rolling.calm` — when no update is on its way, all chains are what they should be;
* **`Mesh.Moves.handed_of_wave`** — all of this together.
-/

namespace BrokerForest

/-- What an update leaves of a node: all but its rank and its chain. -/
structure Node.Kept (n n' : Node) : Prop where
  settings : n'.settings = n.settings
  father : n'.position.father = n.position.father
  neighbors : n'.position.neighbors = n.position.neighbors
  bound : n'.position.regional.upstreamMax = n.position.regional.upstreamMax

theorem Node.Kept.children {n n' : Node} (h : n.Kept n') :
    n'.position.children = n.position.children := by
  rw [Position.children, Position.children, h.father, h.neighbors]

theorem Node.Kept.refl (n : Node) : n.Kept n := ⟨rfl, rfl, rfl, rfl⟩

/-- An update from its father leaves a node what it was, with the father's chain above it. -/
theorem Session.kept_onUpdate {σ : Type} [Transport σ] (s : Session σ) {origin : Peer}
    (news : Update) (h : s.node.position.isFather origin = true) :
    s.node.Kept (s.onUpdate origin news).node ∧
      (s.onUpdate origin news).node.position.regional =
        s.node.position.regional.setUpstream news.upstream := by
  obtain ⟨hfather, hneighbors, hregional, -⟩ := s.node.position.heed_frame news s.words
  rw [node_onUpdate_of_father h]
  exact ⟨⟨rfl, hfather, hneighbors, (congrArg Regional.upstreamMax hregional).trans rfl⟩,
    hregional⟩

/-- What a node tells its children of. -/
theorem Node.map_chain (n : Node) :
    n.chain.map Peer.id = n.position.above.take n.settings.upstreamMax := by
  rw [chain, Position.chainForChildren, List.map_take, Position.above]

theorem Update.toNat_hopsLeft (news : Update) : news.hopsLeft.toNat = news.hops.toNat - 1 := by
  unfold hopsLeft
  split
  · rename_i hzero
    simp [hzero]
  · rename_i hpos
    have hne : news.hops.toNat ≠ 0 := fun h => hpos (UInt32.toNat_inj.1 h)
    rw [UInt32.toNat_sub_of_le]
    · rfl
    · rw [UInt32.le_iff_toNat_le]
      exact Nat.one_le_iff_ne_zero.2 hne

/-- In the world of a directory all that is sent goes out. -/
theorem Session.passes_onUpdate {s : Session Directory} (h : ∀ e ∈ s.trace, e.Passes)
    (origin : Peer) (news : Update) : ∀ e ∈ (s.onUpdate origin news).trace, e.Passes := by
  have hsendAll : ∀ (peers : List Peer) (message : Message) (s : Session Directory),
      (∀ e ∈ s.trace, e.Passes) → ∀ e ∈ (s.sendAll peers message).trace, e.Passes := by
    intro peers message
    induction peers with
    | nil => exact fun s hs => hs
    | cons peer rest ih =>
        refine fun s hs => ih (s.tell peer message) fun e he => ?_
        rcases List.mem_append.1 he with he | he
        · exact hs e he
        · rw [List.mem_singleton.1 he]
          rfl
  rw [onUpdate_eq]
  split
  · dsimp only
    split
    · exact hsendAll _ _ _ h
    · exact h
  · exact h

namespace Mesh

/-- How things stand in trees in which a node has moved, and some nodes have heard of it
since. -/
structure Rolling (m : Mesh) (t : NodeId) (most : Nat) (top : Node) (heard : List NodeId)
    (m' : Mesh) : Prop where
  once : heard.Nodup
  below : ∀ u ∈ heard, ∃ k, m.At t (k + 1) u
  node : m'.node? t = some top
  bound : top.settings.upstreamMax = most
  apart : ∀ w ∈ top.position.above, ∀ k, ¬ m.At t k w
  aside : ∀ u, u ≠ t → u ∉ heard → m'.node? u = m.node? u
  kept : ∀ u ∈ heard, ∃ n n', m.node? u = some n ∧ m'.node? u = some n' ∧ n.Kept n'
  /-- Whoever has heard has its father's chain. -/
  told : ∀ u ∈ heard, ∀ v, m.Beneath u v → v ∈ t :: heard ∧ ∃ p c, m'.node? v = some p ∧
    m'.node? u = some c ∧ c.position.regional.upstreamChain = p.chain
  quiet : ∀ v u, (∀ k, ¬ m.At t (k + 1) u) → ∀ message ∈ m'.transit v u, message.isUpdate = false
  /-- What is on its way to a node below is one update from its father, which has heard. -/
  mail : ∀ v u k, m.At t (k + 1) u → m'.transit v u = [] ∨ ∃ news p,
    m'.transit v u = [.update news] ∧ m.Beneath u v ∧ u ∉ heard ∧ v ∈ t :: heard ∧
      m'.node? v = some p ∧ news.upstream = p.chain ∧ news.hops.toNat = most - k
  /-- Whoever will not hear any more is far enough below, or so is its father. -/
  spared : ∀ v u k, m.At t (k + 1) u → m.Beneath u v → u ∉ heard → m'.transit v u = [] →
    v ≠ t ∧ (v ∈ heard → most < k)
  /-- Nobody is twice above a node that has heard: its ancestors in the tree come first, and
  then those of the node that moved. -/
  distinct : ∀ v k p, v ∈ t :: heard → m.At t k v → m'.node? v = some p →
    p.position.above.Nodup ∧
      ∀ w ∈ p.position.above, w ∈ top.position.above ∨ ∃ j < k, m.At t j w
  /-- The closest ancestors, as many as stand below the node that moved, are those of before. -/
  agree : ∀ u k n n', m.At t (k + 1) u → m.node? u = some n → m'.node? u = some n' →
    (n'.position.regional.upstreamChain.map Peer.id).take k =
      (n.position.regional.upstreamChain.map Peer.id).take k

/-- One update arrives at a node from its father: what becomes of the node, and what it sends
on. -/
structure Passing (m m' m'' : Mesh) (t : NodeId) (most : Nat) (heard : List NodeId) (v u : NodeId)
    (k : Nat) (n p c : Node) : Prop where
  place : m.At t (k + 1) u
  beneath : m.Beneath u v
  fresh : u ∉ heard
  source : v ∈ t :: heard
  before : m.node? u = some n
  father : m'.node? v = some p
  kept : n.Kept c
  chain : c.position.regional.upstreamChain = p.chain
  node : m''.node? = Function.update m'.node? u (some c)
  arrived : m''.transit v u = []
  others : ∀ x y, x ≠ u → ¬ (x = v ∧ y = u) → m''.transit x y = m'.transit x y
  strangers : ∀ y, ¬ m.Beneath y u → m''.transit u y = m'.transit u y
  children : ∀ y, m.Beneath y u →
    (m''.transit u y = m'.transit u y ∧ most ≤ k) ∨
      ∃ news, m''.transit u y = m'.transit u y ++ [.update news] ∧ news.upstream = c.chain ∧
        news.hops.toNat = most - (k + 1)

variable {m m' m'' : Mesh} {nodes : Finset NodeId} {most : Nat} {t u v w : NodeId}
  {top n p c : Node} {heard : List NodeId} {k j : Nat}

/-- A node below another has a father at one distance less. -/
theorem At.father (h : m.At t (k + 1) u) : ∃ v, m.At t k v ∧ m.Beneath u v := by
  cases h with
  | next above beneath => exact ⟨_, above, beneath⟩

theorem At.of_beneath (h : m.At t (k + 1) u) (hv : m.Beneath u v) : m.At t k v := by
  obtain ⟨v', hat, hbeneath⟩ := h.father
  exact hbeneath.unique hv ▸ hat

theorem Trees.ne_of_beneath (trees : m.Trees nodes most) (hbeneath : m.Beneath u v) : v ≠ u := by
  rintro rfl
  exact trees.not_beneath hbeneath hbeneath

/-- Where the father is the same, one more of the ancestors is. -/
theorem above_take {p p' : Position} {father : Peer} (hp : p.father = some father)
    (hp' : p'.father = some father)
    (h : (p'.regional.upstreamChain.map Peer.id).take k =
      (p.regional.upstreamChain.map Peer.id).take k) :
    p'.above.take (k + 1) = p.above.take (k + 1) := by
  simp [Position.above, hp, hp', h]

/-- After the move nobody has heard of it yet. -/
theorem Moved.rolling (trees : m.Trees nodes most) (h : m.Moved t most top m') :
    m.Rolling t most top [] m' where
  once := List.nodup_nil
  below := by simp
  node := by rw [h.node, Function.update_self]
  bound := h.bound
  apart := h.apart
  aside u hu _ := by rw [h.node, Function.update_of_ne hu]
  kept := by simp
  told := by simp
  quiet v u hu := (h.quiet v u fun hvu => hu 0 (At.top.next hvu.2)).1
  mail v u k hat := by
    by_cases hvu : v = t ∧ m.Beneath u t
    · obtain ⟨rfl, hbeneath⟩ := hvu
      obtain ⟨news, htransit, hup, hhops⟩ := h.told u hbeneath
      obtain rfl : k = 0 := Nat.succ.inj (trees.at_unique hat (At.top.next hbeneath))
      exact Or.inr ⟨news, top, htransit, hbeneath, by simp, by simp,
        by rw [h.node, Function.update_self], hup, hhops⟩
    · exact Or.inl ((h.quiet v u hvu).2 k hat)
  spared v u k hat hbeneath _ hnone := by
    refine ⟨?_, by simp⟩
    rintro rfl
    obtain ⟨news, htransit, _⟩ := h.told u hbeneath
    rw [hnone] at htransit
    cases htransit
  distinct v k p hv hat hp := by
    obtain rfl : v = t := by simpa using hv
    rw [h.node, Function.update_self] at hp
    cases hp
    exact ⟨h.distinct, fun w hw => Or.inl hw⟩
  agree u k n n' hat hn hn' := by
    rw [h.node, Function.update_of_ne (trees.ne_top hat), hn] at hn'
    cases hn'
    rfl

namespace Rolling

/-- A node below is what it was, or what an update has left of it. -/
theorem exists_kept (trees : m.Trees nodes most) (h : m.Rolling t most top heard m')
    (hat : m.At t (k + 1) u) (hn : m.node? u = some n) :
    ∃ n', m'.node? u = some n' ∧ n.Kept n' ∧ (u ∉ heard → n' = n) := by
  by_cases hu : u ∈ heard
  · obtain ⟨n₁, n', hn₁, hn', hkept⟩ := h.kept u hu
    rw [hn] at hn₁
    cases hn₁
    exact ⟨n', hn', hkept, fun hnot => absurd hu hnot⟩
  · exact ⟨n, by rw [h.aside u (trees.ne_top hat) hu, hn], .refl n, fun _ => rfl⟩

/-- Whoever has heard bounds its chain as all do. -/
theorem bound_of_mem (trees : m.Trees nodes most) (h : m.Rolling t most top heard m')
    (hv : v ∈ t :: heard) (hp : m'.node? v = some p) : p.settings.upstreamMax = most := by
  rcases List.mem_cons.1 hv with rfl | hv
  · rw [h.node] at hp
    cases hp
    exact h.bound
  · obtain ⟨n, n', hn, hn', hkept⟩ := h.kept v hv
    rw [hp] at hn'
    cases hn'
    rw [hkept.settings, (trees.most v n hn).1]

/-- A father's chain fits in where its child keeps the chain above it. -/
theorem upstreamChain_setUpstream (trees : m.Trees nodes most)
    (h : m.Rolling t most top heard m') (hat : m.At t k v) (hsource : v ∈ t :: heard)
    (hp : m'.node? v = some p) (hn : m.node? u = some n) :
    (n.position.regional.setUpstream p.chain).upstreamChain = p.chain := by
  have hdistinct : (p.chain.map Peer.id).Nodup := by
    rw [Node.map_chain]
    exact (h.distinct v k p hsource hat hp).1.sublist (List.take_sublist ..)
  have hlength : p.chain.length ≤ most := by
    rw [Node.chain, h.bound_of_mem trees hsource hp]
    exact List.length_take_le ..
  rw [n.position.regional.upstreamChain_setUpstream hdistinct, (trees.most u n hn).2,
    List.take_of_length_le hlength]

/-- An update that is the oldest message for a node is the only one, and comes to a node below
that has not heard yet, from its father. -/
theorem letter (h : m.Rolling t most top heard m') {news : Update} {rest : List Message}
    (oldest : m'.transit v u = .update news :: rest) :
    ∃ k p, m.At t (k + 1) u ∧ rest = [] ∧ m.Beneath u v ∧ u ∉ heard ∧ v ∈ t :: heard ∧
      m'.node? v = some p ∧ news.upstream = p.chain ∧ news.hops.toNat = most - k := by
  obtain ⟨k, hat⟩ : ∃ k, m.At t (k + 1) u := by
    by_contra hnot
    have hquiet := h.quiet v u (fun k hat => hnot ⟨k, hat⟩) (.update news) (by simp [oldest])
    cases hquiet
  rcases h.mail v u k hat with hnone | ⟨news', p, htransit, hmail⟩
  · rw [hnone] at oldest
    cases oldest
  · rw [htransit] at oldest
    cases oldest
    exact ⟨k, p, hat, rfl, hmail⟩

/-- An update that arrives comes from the father of a node that has not heard yet. -/
theorem passing (trees : m.Trees nodes most) (h : m.Rolling t most top heard m')
    (hears : m'.Hears u m'') : ∃ v k n p c, Passing m m' m'' t most heard v u k n p c := by
  obtain ⟨outside, ws, node, oldest, sender, passes⟩ := hears
  rename_i v n origin news rest σ _
  obtain ⟨k, p, hat, rfl, hbeneath, hfresh, hsource, hp, hup, hhops⟩ := h.letter oldest
  have hn : m.node? u = some n := by rw [← h.aside u (trees.ne_top hat) hfresh, node]
  have hvu : v ≠ u := trees.ne_of_beneath hbeneath
  have hfather : n.position.isFather origin = true := by
    rw [← Position.under_id, sender]
    exact (beneath_iff hn).1 hbeneath
  have hmessage : (Session.mk n outside ws []).onMessage origin (.update news) =
      (Session.mk n outside ws []).onUpdate origin news := rfl
  rw [hmessage] at passes ⊢
  obtain ⟨hkept, hregional⟩ := (Session.mk n outside ws []).kept_onUpdate news hfather
  have hposts : ((Session.mk n outside ws []).onUpdate origin news).posts = _ :=
    Session.posts_onUpdate hfather
  generalize (Session.mk n outside ws []).onUpdate origin news = s at passes hkept hregional hposts
  have hchain : s.node.position.regional.upstreamChain = p.chain := by
    rw [hregional, hup]
    exact h.upstreamChain_setUpstream trees (hat.of_beneath hbeneath) hsource hp hn
  have hraises : s.node.position.Raises fun y => m.Beneath y u := by
    rw [Position.Raises, hkept.children]
    exact trees.children hn
  have htransit := fun x y => transit_after passes (m'.dropOldest v u) u x y
  have hrow : ∀ y, (m'.dropOldest v u).transit u y = m'.transit u y := fun y =>
    if_neg fun heq => hvu heq.1.symm
  refine ⟨v, k, n, p, s.node, hat, hbeneath, hfresh, hsource, hn, hp, hkept, hchain, rfl,
    ?_, ?_, ?_, ?_⟩
  · rw [htransit, if_neg hvu, List.append_nil]
    refine (if_pos ⟨rfl, rfl⟩).trans ?_
    rw [oldest, List.tail_cons]
  · intro x y hx hxy
    rw [htransit, if_neg hx, List.append_nil]
    exact if_neg hxy
  · intro y hy
    rw [htransit, if_pos rfl, hrow, hposts]
    split
    · rw [Session.posts, List.filterMap_nil, List.nil_append,
        filter_posts (Position.nodup_children _), if_neg (mt (hraises y).1 hy), List.append_nil]
    · simp [Session.posts]
  · intro y hy
    rw [htransit, if_pos rfl, hrow, hposts]
    split
    · refine Or.inr ⟨⟨s.node.position.rank, s.node.chain, news.hopsLeft⟩, ?_, rfl, ?_⟩
      · rw [Session.posts, List.filterMap_nil, List.nil_append,
          filter_posts (Position.nodup_children _), if_pos ((hraises y).2 hy)]
      · change news.hopsLeft.toNat = _
        rw [news.toNat_hopsLeft, hhops]
        omega
    · rename_i hstop
      refine Or.inl ⟨by simp [Session.posts], ?_⟩
      -- The news is not to travel further, so no hops are left.
      have hzero : ¬ 0 < news.hops := by
        simp only [Bool.or_eq_true, not_or, decide_eq_true_eq] at hstop
        exact hstop.2
      rw [UInt32.lt_iff_toNat_lt, hhops, UInt32.toNat_zero] at hzero
      omega

/-- Children of a node that has not heard have nothing from it. -/
theorem transit_of_fresh (h : m.Rolling t most top heard m') (hu : u ∉ t :: heard)
    (hat : m.At t (k + 1) w) : m'.transit u w = [] :=
  (h.mail u w k hat).resolve_right fun ⟨_, _, _, _, _, hsource, _⟩ => hu hsource

/-- Nobody has heard whose father has not. -/
theorem child_notMem (h : m.Rolling t most top heard m') (hu : u ∉ t :: heard)
    (hbeneath : m.Beneath w u) : w ∉ heard :=
  fun hw => hu (h.told w hw u hbeneath).1

end Rolling

namespace Passing

theorem mem_cons_append {w : NodeId} : w ∈ t :: (heard ++ [u]) ↔ w ∈ t :: heard ∨ w = u := by
  simp [or_assoc]

variable (P : Passing m m' m'' t most heard v u k n p c)

include P

theorem node_self : m''.node? u = some c := by rw [P.node, Function.update_self]

theorem node_of_ne (hw : w ≠ u) : m''.node? w = m'.node? w := by
  rw [P.node, Function.update_of_ne hw]

theorem fresh_cons (trees : m.Trees nodes most) : u ∉ t :: heard := by
  rw [List.mem_cons, not_or]
  exact ⟨trees.ne_top P.place, P.fresh⟩

/-- Above a node that has heard are its father, and then those that the father told of. -/
theorem above : c.position.above = v :: p.chain.map Peer.id := by
  obtain ⟨n', father, hn', hfather, rfl⟩ := P.beneath
  rw [P.before] at hn'
  cases hn'
  simp [Position.above, P.kept.father, hfather, P.chain]

/-- Nobody is twice above a node that has heard. -/
theorem distinct (trees : m.Trees nodes most) (h : m.Rolling t most top heard m') :
    c.position.above.Nodup ∧
      ∀ w ∈ c.position.above, w ∈ top.position.above ∨ ∃ j < k + 1, m.At t j w := by
  have hplace := P.place.of_beneath P.beneath
  obtain ⟨hnodup, habove⟩ := h.distinct v k p P.source hplace P.father
  rw [P.above, Node.map_chain]
  refine ⟨List.nodup_cons.2 ⟨fun hv => ?_, hnodup.sublist (List.take_sublist ..)⟩, fun w hw => ?_⟩
  · -- The father is not its own ancestor, nor above the node that moved.
    rcases habove v (List.mem_of_mem_take hv) with htop | ⟨j, hj, hat⟩
    · exact h.apart v htop k hplace
    · exact Nat.ne_of_lt hj (trees.at_unique hat hplace)
  · rcases List.mem_cons.1 hw with rfl | hw
    · exact Or.inr ⟨k, Nat.lt_succ_self k, hplace⟩
    · exact (habove w (List.mem_of_mem_take hw)).imp_right fun ⟨j, hj, hat⟩ =>
        ⟨j, Nat.lt_succ_of_lt hj, hat⟩

/-- The closest ancestors of a node that has heard are those that it had. -/
theorem agree (trees : m.Trees nodes most) (h : m.Rolling t most top heard m')
    (handed : ∀ k v u, m.At t (k + 1) v → m.Beneath u v → m.Handed most v u) :
    (c.position.regional.upstreamChain.map Peer.id).take k =
      (n.position.regional.upstreamChain.map Peer.id).take k := by
  cases k with
  | zero => rfl
  | succ i =>
      have hplace := P.place.of_beneath P.beneath
      obtain ⟨p₀, n₀, hp₀, hn₀, hhanded⟩ := handed i v u hplace P.beneath
      rw [P.before] at hn₀
      cases hn₀
      obtain ⟨p', hp', hkept, -⟩ := h.exists_kept trees hplace hp₀
      rw [P.father] at hp'
      cases hp'
      obtain ⟨w, -, p₁, father, hp₁, hfather, -⟩ := hplace.father
      rw [hp₀] at hp₁
      cases hp₁
      have habove := above_take (k := i) hfather (hkept.father.trans hfather)
        (h.agree v i p₀ p hplace hp₀ P.father)
      rw [P.chain, Node.map_chain, h.bound_of_mem trees P.source P.father, hhanded, List.take_take,
        List.take_take, Nat.min_comm, ← List.take_take, ← List.take_take, habove]

/-- The node that has heard has its father's chain, as those before it have. -/
theorem told (h : m.Rolling t most top heard m') {x w : NodeId} (hfresh : u ∉ t :: heard)
    (hw : w ∈ heard ++ [u]) (hx : m.Beneath w x) :
    x ∈ t :: (heard ++ [u]) ∧ ∃ q d, m''.node? x = some q ∧ m''.node? w = some d ∧
      d.position.regional.upstreamChain = q.chain := by
  have hne : ∀ w ∈ t :: heard, w ≠ u := fun w hw heq => hfresh (heq ▸ hw)
  rcases List.mem_append.1 hw with hw | hw
  · obtain ⟨hsource, hchain⟩ := h.told w hw x hx
    rw [P.node_of_ne (hne w (List.mem_cons_of_mem _ hw)), P.node_of_ne (hne x hsource)]
    exact ⟨mem_cons_append.2 (Or.inl hsource), hchain⟩
  · obtain rfl := List.mem_singleton.1 hw
    obtain rfl := P.beneath.unique hx
    refine ⟨mem_cons_append.2 (Or.inl P.source), p, c, ?_, P.node_self, P.chain⟩
    rw [P.node_of_ne (hne v P.source), P.father]

/-- What is then on its way to a node below is one update from its father, which has heard. -/
theorem mail (trees : m.Trees nodes most) (h : m.Rolling t most top heard m') {x y : NodeId}
    (hat : m.At t (j + 1) y) :
    m''.transit x y = [] ∨ ∃ news q, m''.transit x y = [.update news] ∧ m.Beneath y x ∧
      y ∉ heard ++ [u] ∧ x ∈ t :: (heard ++ [u]) ∧ m''.node? x = some q ∧
        news.upstream = q.chain ∧ news.hops.toNat = most - j := by
  have hfresh := P.fresh_cons trees
  by_cases hx : x = u
  · -- What the node sends on goes to its children, which have not heard.
    subst hx
    have hnone := h.transit_of_fresh hfresh hat
    by_cases hy : m.Beneath y x
    · rcases P.children y hy with ⟨hsame, -⟩ | ⟨news, hsent, hup, hhops⟩
      · exact Or.inl (hsame.trans hnone)
      · refine Or.inr ⟨news, c, by rw [hsent, hnone, List.nil_append], hy, ?_,
          mem_cons_append.2 (Or.inr rfl), P.node_self, hup, ?_⟩
        · rw [List.mem_append, not_or, List.mem_singleton]
          exact ⟨h.child_notMem hfresh hy, (trees.ne_of_beneath hy).symm⟩
        · rw [hhops, Nat.succ.inj (trees.at_unique hat (P.place.next hy))]
    · exact Or.inl ((P.strangers y hy).trans hnone)
  · by_cases hxy : x = v ∧ y = u
    · obtain ⟨rfl, rfl⟩ := hxy
      exact Or.inl P.arrived
    · rw [P.others x y hx hxy, P.node_of_ne hx]
      refine (h.mail x y j hat).imp_right ?_
      rintro ⟨news, q, hsent, hbeneath, hnot, hsource, hrest⟩
      refine ⟨news, q, hsent, hbeneath, ?_, mem_cons_append.2 (Or.inl hsource), hrest⟩
      rw [List.mem_append, not_or, List.mem_singleton]
      refine ⟨hnot, ?_⟩
      rintro rfl
      exact hxy ⟨hbeneath.unique P.beneath, rfl⟩

/-- Whoever will then not hear any more is far enough below, or so is its father. -/
theorem spared (trees : m.Trees nodes most) (h : m.Rolling t most top heard m') {x y : NodeId}
    (hat : m.At t (j + 1) y) (hbeneath : m.Beneath y x) (hy : y ∉ heard ++ [u])
    (hnone : m''.transit x y = []) : x ≠ t ∧ (x ∈ heard ++ [u] → most < j) := by
  rw [List.mem_append, not_or, List.mem_singleton] at hy
  by_cases hx : x = u
  · subst hx
    rcases P.children y hbeneath with ⟨-, hstop⟩ | ⟨news, hsent, -⟩
    · rw [← Nat.succ.inj (trees.at_unique (P.place.next hbeneath) hat)]
      exact ⟨trees.ne_top P.place, fun _ => Nat.lt_succ_of_le hstop⟩
    · rw [hnone] at hsent
      simp at hsent
  · rw [P.others x y hx fun hxy => hy.2 hxy.2] at hnone
    obtain ⟨hxt, hfar⟩ := h.spared x y j hat hbeneath hy.1 hnone
    refine ⟨hxt, fun hmemx => hfar ?_⟩
    exact (List.mem_append.1 hmemx).resolve_right fun hxu => hx (List.mem_singleton.1 hxu)

end Passing

/-- So things stand after an update has arrived. -/
theorem Rolling.hears (trees : m.Trees nodes most)
    (handed : ∀ k v u, m.At t (k + 1) v → m.Beneath u v → m.Handed most v u)
    (h : m.Rolling t most top heard m') (hears : m'.Hears u m'') :
    m.Rolling t most top (heard ++ [u]) m'' := by
  obtain ⟨v, k, n, p, c, P⟩ := h.passing trees hears
  have hut : u ≠ t := trees.ne_top P.place
  have hfresh := P.fresh_cons trees
  refine
    { once := ?once
      below := ?below
      node := by rw [P.node_of_ne hut.symm, h.node]
      bound := h.bound
      apart := h.apart
      aside := ?aside
      kept := ?kept
      told := fun w hw x hx => P.told h hfresh hw hx
      quiet := ?quiet
      mail := fun x y j hat => P.mail trees h hat
      spared := fun x y j hat hbeneath hy hnone => P.spared trees h hat hbeneath hy hnone
      distinct := ?distinct
      agree := ?agree }
  case once =>
    rw [List.nodup_append]
    refine ⟨h.once, by simp, ?_⟩
    rintro w hw w' hw' rfl
    exact P.fresh (List.mem_singleton.1 hw' ▸ hw)
  case below =>
    intro w hw
    rcases List.mem_append.1 hw with hw | hw
    · exact h.below w hw
    · exact List.mem_singleton.1 hw ▸ ⟨k, P.place⟩
  case aside =>
    intro w hwt hw
    rw [List.mem_append, not_or, List.mem_singleton] at hw
    rw [P.node_of_ne hw.2, h.aside w hwt hw.1]
  case kept =>
    intro w hw
    rcases List.mem_append.1 hw with hw | hw
    · rw [P.node_of_ne fun heq => hfresh (heq ▸ List.mem_cons_of_mem _ hw)]
      exact h.kept w hw
    · obtain rfl := List.mem_singleton.1 hw
      exact ⟨n, c, P.before, P.node_self, P.kept⟩
  case quiet =>
    intro x y hy
    by_cases hx : x = u
    · subst hx
      rw [P.strangers y fun hbeneath => hy (k + 1) (P.place.next hbeneath)]
      exact h.quiet x y hy
    · rw [P.others x y hx fun hxy => hy k (hxy.2 ▸ P.place)]
      exact h.quiet x y hy
  case distinct =>
    intro x j q hx hat hq
    by_cases hxu : x = u
    · subst hxu
      rw [P.node_self] at hq
      cases hq
      obtain rfl := trees.at_unique P.place hat
      exact P.distinct trees h
    · rw [P.node_of_ne hxu] at hq
      exact h.distinct x j q ((Passing.mem_cons_append.1 hx).resolve_right hxu) hat hq
  case agree =>
    intro x j n₀ n₁ hat hn₀ hn₁
    by_cases hxu : x = u
    · subst hxu
      rw [P.before] at hn₀
      rw [P.node_self] at hn₁
      cases hn₀
      cases hn₁
      obtain rfl := Nat.succ.inj (trees.at_unique P.place hat)
      exact P.agree trees h handed
    · rw [P.node_of_ne hxu] at hn₁
      exact h.agree x j n₀ n₁ hat hn₀ hn₁

/-- So things stand throughout a wave. -/
theorem Rolling.wave {m₁ : Mesh} (trees : m.Trees nodes most)
    (handed : ∀ k v u, m.At t (k + 1) v → m.Beneath u v → m.Handed most v u)
    (h : m.Rolling t most top [] m₁) (wave : Wave m₁ heard m') :
    m.Rolling t most top heard m' := by
  induction wave with
  | still => exact h
  | hear _ hears ih => exact ih.hears trees handed hears

/-! ## When the wave is over -/

namespace Rolling

/-- The nodes below are those that were below before the move. -/
theorem beneath_of_beneath (h : m.Rolling t most top heard m')
    (hat : m.At t k v) (hbeneath : m'.Beneath u v) : m.Beneath u v := by
  obtain ⟨n', father, hn', hfather, rfl⟩ := hbeneath
  by_cases hut : u = t
  · -- Whoever moved is now beneath nobody that was below it.
    subst hut
    rw [h.node] at hn'
    cases hn'
    exact absurd hat (h.apart father.id (by simp [Position.above, hfather]) k)
  · by_cases hu : u ∈ heard
    · obtain ⟨n, n₁, hn, hn₁, hkept⟩ := h.kept u hu
      rw [hn'] at hn₁
      cases hn₁
      exact ⟨n, father, hn, hkept.father ▸ hfather, rfl⟩
    · exact ⟨n', father, h.aside u hut hu ▸ hn', hfather, rfl⟩

theorem at_of_at (h : m.Rolling t most top heard m')
    (hat : m'.At t k u) : m.At t k u := by
  induction hat with
  | top => exact .top
  | next _ hbeneath ih => exact ih.next (h.beneath_of_beneath ih hbeneath)

/-- A node that will not hear any more has all the ancestors that its children know of. -/
theorem above_of_spared (trees : m.Trees nodes most) (h : m.Rolling t most top heard m')
    (hat : m.At t (k + 1) v) (hp : m.node? v = some p) (hfar : v ∈ heard → most < k + 1) :
    ∃ p', m'.node? v = some p' ∧ p'.position.above.take most = p.position.above.take most := by
  obtain ⟨p', hp', hkept, hsame⟩ := h.exists_kept trees hat hp
  refine ⟨p', hp', ?_⟩
  by_cases hv : v ∈ heard
  · obtain ⟨w, -, p₁, father, hp₁, hfather, -⟩ := hat.father
    rw [hp] at hp₁
    cases hp₁
    have habove := above_take hfather (hkept.father.trans hfather) (h.agree v k p p' hat hp hp')
    have htake := congrArg (List.take most) habove
    rwa [List.take_take, List.take_take, Nat.min_eq_left (Nat.le_of_lt (hfar hv))] at htake
  · rw [hsame hv]

/-- When no update is on its way, every chain below is what it should be. -/
theorem handed_of_calm (trees : m.Trees nodes most)
    (handed : ∀ k v u, m.At t (k + 1) v → m.Beneath u v → m.Handed most v u)
    (h : m.Rolling t most top heard m') (calm : m'.Calm) (hat : m.At t k v)
    (hbeneath : m.Beneath u v) : m'.Handed most v u := by
  have hplace := hat.next hbeneath
  by_cases hu : u ∈ heard
  · obtain ⟨hsource, p, c, hp, hc, hchain⟩ := h.told u hu v hbeneath
    exact ⟨p, c, hp, hc, by rw [hchain, Node.map_chain, h.bound_of_mem trees hsource hp]⟩
  · have hnone : m'.transit v u = [] := by
      refine (h.mail v u k hplace).resolve_right ?_
      rintro ⟨news, _, hsent, -⟩
      have hquiet := calm v u (.update news) (by simp [hsent])
      cases hquiet
    obtain ⟨hvt, hfar⟩ := h.spared v u k hplace hbeneath hu hnone
    cases hat with
    | top => exact absurd rfl hvt
    | @next i w _ above beneath =>
        obtain ⟨p, c, hp, hc, heq⟩ := handed i v u (above.next beneath) hbeneath
        obtain ⟨p', hp', habove⟩ := h.above_of_spared trees (above.next beneath) hp hfar
        exact ⟨p', c, hp', by rw [h.aside u (trees.ne_top hplace) hu, hc], by rw [heq, habove]⟩

/-- As long as an update is on its way it can arrive. -/
theorem exists_hears (trees : m.Trees nodes most) (h : m.Rolling t most top heard m')
    (hnot : ¬ m'.Calm) : ∃ u m'', m'.Hears u m'' := by
  obtain ⟨v, u, message, hmessage, hupdate⟩ : ∃ v u message, message ∈ m'.transit v u ∧
      message.isUpdate = true := by
    simpa [Calm] using hnot
  obtain ⟨k, hat⟩ : ∃ k, m.At t (k + 1) u := by
    by_contra hnone
    rw [h.quiet v u (fun k hat => hnone ⟨k, hat⟩) message hmessage] at hupdate
    cases hupdate
  rcases h.mail v u k hat with hnone | ⟨news, p, hsent, hbeneath, -⟩
  · rw [hnone] at hmessage
    cases hmessage
  · obtain ⟨n, father, hn, -⟩ := hbeneath
    obtain ⟨n', hn', -⟩ := h.exists_kept trees hat hn
    let s : Session Directory := ⟨n', ⟨[]⟩, default, []⟩
    have hpasses := Session.passes_onUpdate (s := s) (by simp [s]) ⟨v, [], true⟩ news
    exact ⟨u, _, .update s.outside s.words hn' hsent rfl hpasses⟩

/-- No more nodes have heard than there are. -/
theorem length_le (trees : m.Trees nodes most) (h : m.Rolling t most top heard m') :
    heard.length ≤ nodes.card := by
  rw [← List.toFinset_card_of_nodup h.once]
  refine Finset.card_le_card fun u hu => ?_
  obtain ⟨n, -, hn, -⟩ := h.kept u (List.mem_toFinset.1 hu)
  exact (trees.live u).2 ⟨n, hn⟩

/-- A wave comes to its end: with every update that arrives fewer nodes are left to hear. -/
theorem exists_calm {m₁ : Mesh} (trees : m.Trees nodes most)
    (handed : ∀ k v u, m.At t (k + 1) v → m.Beneath u v → m.Handed most v u)
    (h : m.Rolling t most top [] m₁) (wave : Wave m₁ heard m') :
    ∃ later m'', Wave m₁ (heard ++ later) m'' ∧ m''.Calm := by
  induction hleft : nodes.card - heard.length generalizing heard m' with
  | zero =>
      refine ⟨[], m', by rwa [List.append_nil], ?_⟩
      by_contra hnot
      obtain ⟨u, m'', hears⟩ := (h.wave trees handed wave).exists_hears trees hnot
      have hbound := (h.wave trees handed (wave.hear hears)).length_le trees
      rw [List.length_append, List.length_singleton] at hbound
      omega
  | succ left ih =>
      by_cases calm : m'.Calm
      · exact ⟨[], m', by rwa [List.append_nil], calm⟩
      · obtain ⟨u, m'', hears⟩ := (h.wave trees handed wave).exists_hears trees calm
        obtain ⟨later, m₂, hlater, calm'⟩ := ih (wave.hear hears)
          (by rw [List.length_append, List.length_singleton]; omega)
        exact ⟨u :: later, m₂, by rwa [List.append_assoc] at hlater, calm'⟩

end Rolling

/-- **A wave of updates reaches everyone whom it concerns, and ends.**  Let finitely many nodes
stand in trees, and let every chain below a node be what it should be, those of its own
children left out of account.  If the node moves, then however the updates arrive no node
hears of it twice; when none is on its way any more, every chain below the node is what it
should be, those of its own children included; and it does come to that. -/
theorem Moves.handed_of_wave {m₁ : Mesh} (trees : m.Trees nodes most) (hmost : most < 2 ^ 32)
    (handed : ∀ k v u, m.At t (k + 1) v → m.Beneath u v → m.Handed most v u)
    (moves : m.Moves t m₁) (wave : Wave m₁ heard m') :
    heard.Nodup ∧
      (m'.Calm → ∀ k v u, m'.At t k v → m'.Beneath u v → m'.Handed most v u) ∧
      heard.length ≤ nodes.card ∧
      ∃ later m'', Wave m₁ (heard ++ later) m'' ∧ m''.Calm := by
  obtain ⟨top, moved⟩ := moves.moved trees hmost
  have hrolling := (moved.rolling trees).wave trees handed wave
  refine ⟨hrolling.once, fun calm k v u hat hbeneath => ?_, hrolling.length_le trees,
    (moved.rolling trees).exists_calm trees handed wave⟩
  have hat' := hrolling.at_of_at hat
  exact hrolling.handed_of_calm trees handed calm hat'
    (hrolling.beneath_of_beneath hat' hbeneath)

end Mesh

namespace Rehearsal

/-- A node at work beneath a father, or beneath none, with some brokers beside it and a chain. -/
def standing (self : Peer) (father : Option Peer) (brokers chain : List Peer) : Node :=
  { (Node.start .standard self still).1 with
    stopped := false
    position := { (Node.start .standard self still).1.position with
      father := father
      fatherDepth := father.map fun _ => ⟨1.0⟩
      neighbors := brokers.foldl Neighbors.add .empty
      regional := (Regional.empty 4 4).setUpstream chain } }

/-- Three brokers, one beneath the other. -/
def line : Rehearsal where
  nodes :=
    [((broker 1 "x").id, standing (broker 1 "x") none [broker 2 "y"] []),
     ((broker 2 "y").id, standing (broker 2 "y") (some (broker 1 "x"))
        [broker 1 "x", broker 3 "z"] []),
     ((broker 3 "z").id, standing (broker 3 "z") (some (broker 2 "y")) [broker 2 "y"]
        [broker 1 "x"])]
  letters := []

theorem mem_nodes {r : Rehearsal} {u : NodeId} {n : Node} (h : r.mesh.node? u = some n) :
    (u, n) ∈ r.nodes := by
  obtain ⟨before, later, heq, -⟩ := List.lookup_eq_some_iff.1 h
  rw [heq]
  simp

theorem line_beneath {u v : NodeId} :
    line.mesh.Beneath u v ↔ u = (broker 2 "y").id ∧ v = (broker 1 "x").id ∨
      u = (broker 3 "z").id ∧ v = (broker 2 "y").id := by
  constructor
  · rintro ⟨n, father, hn, hfather, rfl⟩
    have hmem := mem_nodes hn
    simp only [line, List.mem_cons, Prod.mk.injEq, List.not_mem_nil, or_false] at hmem
    rcases hmem with ⟨rfl, rfl⟩ | ⟨rfl, rfl⟩ | ⟨rfl, rfl⟩
    · cases hfather
    · cases hfather
      exact Or.inl ⟨rfl, rfl⟩
    · cases hfather
      exact Or.inr ⟨rfl, rfl⟩
  · rintro (⟨rfl, rfl⟩ | ⟨rfl, rfl⟩)
    · exact ⟨_, _, rfl, rfl, rfl⟩
    · exact ⟨_, _, rfl, rfl, rfl⟩

/-- The three stand in a tree. -/
theorem line_trees :
    line.mesh.Trees {(broker 1 "x").id, (broker 2 "y").id, (broker 3 "z").id} 4 where
  live u := by
    constructor
    · intro hu
      simp only [Finset.mem_insert, Finset.mem_singleton] at hu
      rcases hu with rfl | rfl | rfl <;> exact ⟨_, rfl⟩
    · rintro ⟨n, hn⟩
      have hmem := mem_nodes hn
      simp only [line, List.mem_cons, Prod.mk.injEq, List.not_mem_nil, or_false] at hmem
      rcases hmem with ⟨rfl, -⟩ | ⟨rfl, -⟩ | ⟨rfl, -⟩ <;> simp
  self u n hn := by
    have hall : ∀ entry ∈ line.nodes, entry.2.self.id = entry.1 := by decide +kernel
    exact hall _ (mem_nodes hn)
  father u v h := by
    rcases line_beneath.1 h with ⟨-, rfl⟩ | ⟨-, rfl⟩ <;> simp
  acyclic u h := by
    -- Along every edge the identities fall.
    have hfalls : Relation.TransGen (fun a b : Nat => a > b) (u.octets.headD 0).toNat
        (u.octets.headD 0).toNat := by
      refine h.lift (fun w => (w.octets.headD 0).toNat) fun a b hbeneath => ?_
      rcases line_beneath.1 hbeneath with ⟨rfl, rfl⟩ | ⟨rfl, rfl⟩ <;> decide
    rw [Relation.transGen_eq_self] at hfalls
    exact lt_irrefl _ hfalls
  beside u n hn v := by
    have hmem := mem_nodes hn
    rw [line_beneath, line_beneath]
    simp only [line, List.mem_cons, Prod.mk.injEq, List.not_mem_nil, or_false] at hmem
    rcases hmem with ⟨rfl, rfl⟩ | ⟨rfl, rfl⟩ | ⟨rfl, rfl⟩ <;>
      simp [standing, Neighbors.add, Neighbors.mem_insert, Neighbors.empty, broker, or_comm,
        -List.mem_map]
  most u n hn := by
    have hall : ∀ entry ∈ line.nodes, entry.2.settings.upstreamMax = 4 ∧
        entry.2.position.regional.upstreamMax = 4 := by decide +kernel
    exact hall _ (mem_nodes hn)
  hops u n hn := by
    have hall : ∀ entry ∈ line.nodes, entry.2.settings.updateHops = none := by decide +kernel
    exact hall _ (mem_nodes hn)
  still v u := rfl

/-- The first of three brokers is accepted by a fourth, beneath a fifth. -/
def transplanted : Session Directory :=
  (Session.mk (standing (broker 1 "x") none [broker 2 "y"] []) trio still []).bereft.attach
    (broker 4 "v") ⟨⟨["v"]⟩, ⟨1.0⟩⟩ ⟨[broker 5 "w"], []⟩

/-- The rehearsal after an update has arrived. -/
def hear (r : Rehearsal) (v u : Peer) (n : Node) (news : Update) : Rehearsal :=
  (r.dropOldest v.id u.id).after u.id ((Session.mk n trio still []).onMessage v (.update news))

theorem hears_hear {r : Rehearsal} {v u : Peer} {n : Node} {news : Update} {rest : List Message}
    (node : r.mesh.node? u.id = some n) (oldest : r.mesh.transit v.id u.id = .update news :: rest) :
    r.mesh.Hears u.id (r.hear v u n news).mesh := by
  rw [hear, mesh_after, mesh_dropOldest]
  exact .update trio still node oldest rfl (Session.passes_onUpdate (by simp) v news)

/-- The first of the three moves. -/
theorem line_moves :
    line.mesh.Moves (broker 1 "x").id (line.after (broker 1 "x").id transplanted).mesh := by
  rw [mesh_after]
  refine .attach trio still (broker 4 "v") ⟨⟨["v"]⟩, ⟨1.0⟩⟩ ⟨[broker 5 "w"], []⟩ rfl
    (by decide +kernel) ?_ (by decide +kernel)
  intro p hp k hat
  have hall : ∀ p ∈ [broker 4 "v", broker 5 "w"], p.id ≠ (broker 1 "x").id ∧
      p.id ≠ (broker 2 "y").id ∧ p.id ≠ (broker 3 "z").id := by decide +kernel
  have hstranger := hall p hp
  rcases hat.eq_or_beneath with heq | ⟨v, hbeneath⟩
  · exact hstranger.1 heq
  · rcases line_beneath.1 hbeneath with ⟨heq, -⟩ | ⟨heq, -⟩
    · exact hstranger.2.1 heq
    · exact hstranger.2.2 heq

/-- The third has the chain that the second tells of. -/
theorem line_handed (k : Nat) (v u : NodeId) (hat : line.mesh.At (broker 1 "x").id (k + 1) v)
    (hbeneath : line.mesh.Beneath u v) : line.mesh.Handed 4 v u := by
  rcases line_beneath.1 hbeneath with ⟨rfl, rfl⟩ | ⟨rfl, rfl⟩
  · exact absurd hat line_trees.not_at_succ
  · exact ⟨_, _, rfl, rfl, by decide +kernel⟩

/-- A broker with another below it, and a third below that, is accepted by a fourth: the
second and the third hear of it. -/
theorem handed_of_wave_of_transplanted :
    let moved := line.after (broker 1 "x").id transplanted
    ∃ m', moved.mesh.Wave [(broker 2 "y").id, (broker 3 "z").id] m' ∧ m'.Calm ∧
      m'.Handed 4 (broker 1 "x").id (broker 2 "y").id ∧
        m'.Handed 4 (broker 2 "y").id (broker 3 "z").id := by
  intro moved
  let x := transplanted.node
  let y := standing (broker 2 "y") (some (broker 1 "x")) [broker 1 "x", broker 3 "z"] []
  let z := standing (broker 3 "z") (some (broker 2 "y")) [broker 2 "y"] [broker 1 "x"]
  let first : Update := ⟨x.position.rank, x.chain, x.settings.hops⟩
  let y' := ((Session.mk y trio still []).onMessage (broker 1 "x") (.update first)).node
  let second : Update := ⟨y'.position.rank, y'.chain, first.hopsLeft⟩
  let later := moved.hear (broker 1 "x") (broker 2 "y") y first
  let last := later.hear (broker 2 "y") (broker 3 "z") z second
  have hfirst : moved.mesh.transit (broker 1 "x").id (broker 2 "y").id = [.update first] := by
    decide +kernel
  have hsecond : later.mesh.transit (broker 2 "y").id (broker 3 "z").id = [.update second] := by
    decide +kernel
  have hy : moved.mesh.node? (broker 2 "y").id = some y := by decide +kernel
  have hz : later.mesh.node? (broker 3 "z").id = some z := by decide +kernel
  have wave : moved.mesh.Wave [(broker 2 "y").id, (broker 3 "z").id] last.mesh :=
    .hear (.hear (.still _) (hears_hear hy hfirst)) (hears_hear hz hsecond)
  have calm : last.mesh.Calm := by
    have hletters : last.letters = [] := by decide +kernel
    simp [Mesh.Calm, mesh, hletters]
  have hhanded :=
    (Mesh.Moves.handed_of_wave line_trees (by decide) line_handed line_moves wave).2.1 calm
  have hbeneath : last.mesh.Beneath (broker 2 "y").id (broker 1 "x").id ∧
      last.mesh.Beneath (broker 3 "z").id (broker 2 "y").id := by
    have hfathers : (last.mesh.node? (broker 2 "y").id).bind (·.position.father) =
        some (broker 1 "x") ∧
        (last.mesh.node? (broker 3 "z").id).bind (·.position.father) = some (broker 2 "y") := by
      decide +kernel
    obtain ⟨⟨c, hc, hfather⟩, c', hc', hfather'⟩ :=
      hfathers.imp Option.bind_eq_some_iff.1 Option.bind_eq_some_iff.1
    exact ⟨⟨c, _, hc, hfather, rfl⟩, c', _, hc', hfather', rfl⟩
  exact ⟨_, wave, calm, hhanded 0 _ _ .top hbeneath.1,
    hhanded 1 _ _ (.next .top hbeneath.1) hbeneath.2⟩

end Rehearsal

end BrokerForest
