import BrokerForest.Proofs.SearchEpisodes
/-!
# Exhaustion: a search gives up only when it has tried everyone

Candidates come into the pools of a search, are drawn from them, and may come back from answers
that name them again.  A candidate that is drawn is tried, or it was not to be tried: it is the
node itself, the dead father, a neighbor, or was tried from this kind of pool before.  And as
long as a candidate is neither tried nor pushed out of its pool by newer ones, it is still there,
so that a search that finds nobody any more in the pools that it consults has settled them all.

Main statements:

* `Episode.Holds`, `Episode.Evicts` — whom a pool of the search holds in an episode, and whom an
  addition pushes out of it;
* `Search.Settled` — why a search need not try a peer any more;
* `Search.Thorough`, `Search.Pursuit.thorough` — whoever was held is held, or settled;
* **`Search.Pursuit.settles_all`** — a search that has found nobody has settled all whom it held
  in the pools that it consults.
-/

namespace BrokerForest

/-- An episode in which nothing happens but that the search goes on, or that the mailbox comes to
hold something else. -/
def Episode.Quiet (e : Episode) : Prop :=
  e.act = .advance ∨ e.act = .resume ∨ ∃ mailbox, e.after = { e.before with mailbox := mailbox }

/-- The acts of a search, and the arrival of an answer. -/
def Act.isQuiet : Act → Bool
  | .advance | .resume | .event (.message _ (.response _)) => true
  | _ => false

/-- Whatever is answered, these are quiet. -/
theorem Episode.quiet_of_isQuiet {σ : Type} [Transport σ] {s : Session σ} {a : Act}
    (h : a.isQuiet = true) : (s.episode a).Quiet := by
  unfold Act.isQuiet at h
  split at h
  · exact Or.inl rfl
  · exact Or.inr (Or.inl rfl)
  · rename_i origin response
    refine Or.inr (Or.inr ?_)
    rcases s.node_onResponse origin response with ⟨mailbox, -, hnode⟩ | hnode
    · exact ⟨mailbox, hnode⟩
    · exact ⟨s.node.mailbox, hnode⟩
  · cases h

/-- And so is a story of nothing else. -/
theorem Node.quiet_of_story (directory : Directory) (ws : Words) (n : Node) {acts : List Act}
    (h : ∀ a ∈ acts, a.isQuiet = true) : ∀ e ∈ n.story directory ws acts, e.Quiet := by
  induction acts generalizing n with
  | nil => simp [Node.story]
  | cons a acts ih =>
      obtain ⟨hfirst, hrest⟩ := List.forall_mem_cons.1 h
      exact List.forall_mem_cons.2 ⟨Episode.quiet_of_isQuiet hfirst, ih _ hrest⟩

/-- The pool of a kind holds a peer at some moment of an episode. -/
inductive Episode.Holds (e : Episode) (kind : PoolKind) (p : Peer) : Prop where
  /-- It holds the peer when the episode begins. -/
  | before {search : Search} (underway : e.before.search? = some search)
      (held : p ∈ search.pools.held kind)
  /-- It holds the peer when the episode is over. -/
  | after {search : Search} (underway : e.after.search? = some search)
      (held : p ∈ search.pools.held kind)
  /-- It holds the peer while a refusal is learnt from, when a part of what it offers is added. -/
  | meanwhile {search : Search} {peer : Peer} {refusal : Refusal}
      {front back : List (PoolKind × Peer)} (learns : e.Learns search peer refusal)
      (offers : refusal.offers e.before.self peer = front ++ back)
      (held : p ∈ (search.pools.putAll front).held kind)

/-- An episode in which an addition pushes a peer out of the pool of a kind, whose bound would be
exceeded. -/
def Episode.Evicts (e : Episode) (kind : PoolKind) (p : Peer) : Prop :=
  ∃ search peer refusal front q back, e.Learns search peer refusal ∧
    refusal.offers e.before.self peer = front ++ (kind, q) :: back ∧
    p ∈ (search.pools.putAll front).spill kind q

/-- Whoever is held while a refusal is learnt from is held afterwards, or is pushed out. -/
theorem Episode.Learns.held_or_evicts {e : Episode} {search : Search} {peer p : Peer}
    {refusal : Refusal} {front back : List (PoolKind × Peer)} {kind : PoolKind}
    (h : e.Learns search peer refusal) (offers : refusal.offers e.before.self peer = front ++ back)
    (held : p ∈ (search.pools.putAll front).held kind) :
    p ∈ (search.learn e.before.self peer refusal).pools.held kind ∨ e.Evicts kind p := by
  rcases SearchPools.held_putAll_or_spill back held with
    hheld | ⟨front', q, back', rfl, hspilled⟩
  · left
    rwa [Search.pools_learn, offers, SearchPools.putAll_append]
  · exact Or.inr ⟨search, peer, refusal, front ++ front', q, back', h,
      by rw [offers, List.append_assoc], by rwa [SearchPools.putAll_append]⟩

/-- Whoever is held at some moment of an episode is held when it begins, or when it is over, or is
pushed out. -/
theorem Episode.Holds.before_or_after {e : Episode} {search : Search} {kind : PoolKind} {p : Peer}
    (h : e.Holds kind p) (underway : e.before.search? = some search) :
    p ∈ search.pools.held kind ∨ ∃ search', e.after.search? = some search' ∧
      (p ∈ search'.pools.held kind ∨ e.Evicts kind p) := by
  cases h with
  | before underway' held =>
      obtain rfl := Option.some.inj (underway.symm.trans underway')
      exact Or.inl held
  | after underway' held => exact Or.inr ⟨_, underway', Or.inl held⟩
  | meanwhile learns offers held =>
      refine Or.inr ⟨_, ?_, learns.held_or_evicts offers held⟩
      rw [learns.after]
      rfl

/-- What a refusal teaches leaves the neighbors as they are. -/
theorem Position.neighbors_taught (p : Position) (self : Peer) (hint : Option Peer) :
    (p.taught self hint).neighbors = p.neighbors := by
  unfold taught
  split
  · rfl
  · split <;> rfl

namespace Search

variable {start : Node} {dead : Option Peer} {asRoot : Bool} {connector : Option Nat}
  {past : List Episode} {e : Episode} {n : Node} {search search' : Search} {kind : PoolKind}
  {p : Peer}

/-- Why a search need not try a peer any more that the pool of a kind has held. -/
inductive Settled (start : Node) (dead : Option Peer) (past : List Episode) (kind : PoolKind)
    (p : Peer) : Prop where
  /-- It was drawn from this pool. -/
  | taken {t : Episode} {search : Search} {c : Candidate} (ht : t ∈ past)
      (takes : t.Takes search c) (source : c.source = kind) (same : c.peer.id = p.id)
  /-- It is the node itself. -/
  | own (same : p.same start.self = true)
  /-- It is the father whose loss began the search. -/
  | gone (same : p.isThe dead = true)
  /-- It is a neighbor. -/
  | beside (neighbor : start.position.neighbors.contains p = true)
  /-- It was pushed out of the pool. -/
  | evicted {t : Episode} (ht : t ∈ past) (evicts : t.Evicts kind p)

theorem Settled.append (h : Settled start dead past kind p) (later : List Episode) :
    Settled start dead (past ++ later) kind p := by
  cases h with
  | taken ht takes source same => exact .taken (List.mem_append_left _ ht) takes source same
  | own same => exact .own same
  | gone same => exact .gone same
  | beside neighbor => exact .beside neighbor
  | evicted ht evicts => exact .evicted (List.mem_append_left _ ht) evicts

/-- A quiet episode in which the search goes on leaves the node where it is. -/
theorem Moves.frame (h : search.Moves e) (quiet : e.Quiet)
    (after : e.after.search? = some search') :
    e.after.self = e.before.self ∧ e.after.stopped = e.before.stopped ∧
      e.after.position.neighbors = e.before.position.neighbors := by
  cases h with
  | aside _ idle =>
      rcases quiet with hact | hact | ⟨mailbox, heq⟩
      · rw [idle (Or.inl hact)]
        exact ⟨rfl, rfl, rfl⟩
      · rw [idle (Or.inr hact)]
        exact ⟨rfl, rfl, rfl⟩
      · rw [heq]
        exact ⟨rfl, rfl, rfl⟩
  | takes c takes =>
      obtain ⟨ws, -, heq⟩ := takes.drawn
      rw [heq]
      exact ⟨rfl, rfl, rfl⟩
  | contacts attempt contacts =>
      obtain ⟨result, holder, -, heq, -⟩ := contacts.contacted
      rw [heq]
      exact ⟨rfl, rfl, rfl⟩
  | submits negotiation request submits =>
      obtain ⟨mailbox, holder, heq, -⟩ := submits.waits
      rw [heq]
      exact ⟨rfl, rfl, rfl⟩
  | learns peer refusal learns =>
      rw [learns.after]
      exact ⟨rfl, rfl, Position.neighbors_taught ..⟩
  | unanswered _ heq =>
      rw [heq]
      exact ⟨rfl, rfl, rfl⟩
  | accepted _ free =>
      rw [Node.search?, free] at after
      cases after
  | stopped _ ended | exhausted _ ended =>
      rw [Node.search?_of_ended ended] at after
      cases after

/-- A search looks for the same as before, and in the same order. -/
theorem Moves.kept (h : search.Moves e) (before : e.before.search? = some search)
    (after : e.after.search? = some search') :
    search'.dead = search.dead ∧ search'.pools.order = search.pools.order := by
  rcases h.next before after with rfl | ⟨c, next, -, hnext, -, rfl⟩ | ⟨peer, refusal, -, rfl⟩
  · exact ⟨rfl, rfl⟩
  · exact ⟨rfl, hnext.order⟩
  · exact ⟨rfl, order_learn ..⟩

/-- A search of a running node that is over, and has found no father, has found no candidate any
more. -/
theorem Moves.exhausted_of_ended (h : search.Moves e) (underway : e.before.search? = some search)
    (ended : e.after.search? = none) (runs : e.before.stopped = false)
    (unfound : e.after.position.father = none ∨ e.after.slot.holder = some (.founding true)) :
    ∃ ws, (search.pools.next
      (search.admits e.before.self e.before.position.neighbors) ws).found = none := by
  cases h with
  | exhausted _ _ ws found => exact ⟨ws, found⟩
  | accepted _ free father =>
      obtain ⟨father, hfather⟩ := father
      rw [hfather, free] at unfound
      rcases unfound with hnone | hfounding
      · cases hnone
      · cases hfounding
  | stopped _ _ stopped =>
      rw [runs] at stopped
      cases stopped
  | aside slot =>
      rw [Node.search?, slot] at ended
      exact absurd (ended.symm.trans underway) (by simp)
  | takes c takes =>
      obtain ⟨next, -, -, hafter⟩ := takes.conserves
      exact absurd (ended.symm.trans hafter) (by simp)
  | contacts attempt contacts =>
      obtain ⟨result, holder, -, hafter, hholder, -⟩ := contacts.contacted
      rw [hafter] at ended
      exact absurd (ended.symm.trans hholder) (by simp)
  | submits negotiation request submits =>
      exact absurd (ended.symm.trans (submits.search?_eq.trans underway)) (by simp)
  | learns peer refusal learns =>
      rw [learns.after] at ended
      cases ended
  | unanswered _ heq =>
      rw [heq] at ended
      cases ended

/-- No pool of a search holds anybody when none goes on. -/
theorem not_holds_of_ended (before : e.before.search? = none) (after : e.after.search? = none) :
    ¬ e.Holds kind p := by
  intro h
  cases h with
  | before underway => exact absurd (before.symm.trans underway) (by simp)
  | after underway => exact absurd (after.symm.trans underway) (by simp)
  | meanwhile learns =>
      obtain ⟨source, hnegotiating⟩ := learns.negotiating
      rw [Node.search?_of_holder hnegotiating] at before
      cases before

/-- What holds of a node while its search goes on: it is where it was, and everyone whom a pool of
the search has held is held by it still, or is settled. -/
structure Thorough (start : Node) (dead : Option Peer) (past : List Episode) (n : Node)
    (search : Search) : Prop where
  self : n.self = start.self
  runs : n.stopped = false
  neighbors : n.position.neighbors = start.position.neighbors
  lost : search.dead = dead
  order : search.pools.order = start.settings.order
  covers : ∀ t ∈ past, ∀ kind p, t.Holds kind p →
    p ∈ search.pools.held kind ∨ Settled start dead past kind p

namespace Pursuit

/-- Whoever may not be tried is settled. -/
theorem settled_of_not_admits (pursuit : Pursuit start dead asRoot connector past n)
    (underway : n.search? = some search) (h : Thorough start dead past n search)
    (hnot : search.admits n.self n.position.neighbors p kind = false) :
    Settled start dead past kind p := by
  simp only [admits, Bool.and_eq_false_iff, Bool.not_eq_false', h.self, h.lost, h.neighbors] at hnot
  obtain ((hown | hgone) | htried) | hbeside := hnot
  · exact .own hown
  · exact .gone hgone
  · obtain ⟨t, ht, earlier, c, htakes, hpair⟩ :=
      (pursuit.tried_iff underway (p.id, kind)).1 (List.contains_iff_mem.1 htried)
    obtain ⟨hid, hsource⟩ := Prod.mk.inj hpair
    exact .taken ht htakes hsource hid
  · exact .beside hbeside

/-- Whoever is held when an episode begins is held when it is over, or is settled then. -/
theorem held_or_settled (kind : PoolKind) (p : Peer)
    (pursuit : Pursuit start dead asRoot connector past e.before)
    (underway : e.before.search? = some search) (h : Thorough start dead past e.before search)
    (moves : search.Moves e) (after : e.after.search? = some search')
    (hp : p ∈ search.pools.held kind) :
    p ∈ search'.pools.held kind ∨ Settled start dead (past ++ [e]) kind p := by
  rcases moves.next underway after with rfl | ⟨c, next, htakes, hnext, hfound, rfl⟩ |
    ⟨peer, refusal, hlearns, rfl⟩
  · exact Or.inl hp
  · rcases hnext.held_or hp with hheld | ⟨c', hfound', rfl, rfl⟩ | hnot
    · exact Or.inl hheld
    · obtain rfl := Option.some.inj (hfound.symm.trans hfound')
      exact Or.inr (.taken List.mem_concat_self htakes rfl rfl)
    · exact Or.inr ((pursuit.settled_of_not_admits underway h hnot).append [e])
  · exact (hlearns.held_or_evicts (List.nil_append _).symm hp).imp id fun hevicts =>
      .evicted List.mem_concat_self hevicts

/-- **While a search goes on, whoever a pool has held is held by it still, or is settled.** -/
theorem thorough (pursuit : Pursuit start dead asRoot connector past n)
    (quiet : ∀ e ∈ past, e.Quiet) (underway : n.search? = some search) :
    Thorough start dead past n search := by
  refine pursuit.along (motive := fun past n search => (∀ e ∈ past, e.Quiet) →
    Thorough start dead past n search) ?_ ?_ underway quiet
  · intro n search hbegins _
    rw [hbegins.node, hbegins.fresh]
    exact ⟨rfl, hbegins.runs, rfl, rfl, rfl, by simp⟩
  · intro past e search search' pursuit hbefore hmoves hafter ih quiet
    have h := ih fun t ht => quiet t (List.mem_append_left _ ht)
    obtain ⟨hself, hruns, hneighbors⟩ := hmoves.frame (quiet e List.mem_concat_self) hafter
    obtain ⟨hlost, horder⟩ := hmoves.kept hbefore hafter
    have hstep := fun kind p => pursuit.held_or_settled kind p hbefore h hmoves hafter
    refine ⟨hself.trans h.self, hruns.trans h.runs, hneighbors.trans h.neighbors,
      hlost.trans h.lost, horder.trans h.order, fun t ht kind p hp => ?_⟩
    rcases List.mem_append.1 ht with ht | ht
    · rcases h.covers t ht kind p hp with hheld | hsettled
      · exact hstep kind p hheld
      · exact Or.inr (hsettled.append [e])
    · rw [List.mem_singleton.1 ht] at hp
      rcases hp.before_or_after hbefore with hheld | ⟨later, hlater, hheld | hevicts⟩
      · exact hstep kind p hheld
      · obtain rfl := Option.some.inj (hlater.symm.trans hafter)
        exact Or.inl hheld
      · exact Or.inr (.evicted List.mem_concat_self hevicts)

/-- A search that has found nobody any more has settled whoever its pools have held, also when
the node has a tree to found then. -/
theorem settled_of_ended (pursuit : Pursuit start dead asRoot connector past n)
    (quiet : ∀ e ∈ past, e.Quiet) (ended : n.search? = none)
    (unfound : n.position.father = none ∨ n.slot.holder = some (.founding true)) :
    ∀ e ∈ past, ∀ kind ∈ start.settings.order.kinds, ∀ p, e.Holds kind p →
      Settled start dead past kind p := by
  induction pursuit with
  | begin => simp
  | @act past n a σ _ pursuit outside ws possible underway ih =>
      let e := Session.episode ⟨n, outside, ws, []⟩ a
      have hquiet : ∀ t ∈ past, t.Quiet := fun t ht => quiet t (List.mem_append_left _ ht)
      rcases Node.isUnderway_iff.1 underway with ⟨search, hsearch⟩ | hfounding
      · have h := pursuit.thorough hquiet hsearch
        have hmoves : search.Moves e := Session.moves_run rfl possible hsearch
        obtain ⟨ws', hfound⟩ := hmoves.exhausted_of_ended hsearch ended h.runs unfound
        have hnext := search.pools.next_conserves (search.admits n.self n.position.neighbors) ws'
        have hlast : ∀ kind ∈ start.settings.order.kinds, ∀ p ∈ search.pools.held kind,
            Settled start dead (past ++ [e]) kind p := by
          intro kind hkind p hp
          rcases hnext.held_or hp with hheld | ⟨c, hc, -⟩ | hnot
          · rw [(hnext.none hfound).1 kind (h.order ▸ hkind)] at hheld
            cases hheld
          · exact absurd (hfound.symm.trans hc) (by simp)
          · exact (pursuit.settled_of_not_admits hsearch h hnot).append [e]
        intro t ht kind hkind p hp
        rcases List.mem_append.1 ht with ht | ht
        · rcases h.covers t ht kind p hp with hheld | hsettled
          · exact hlast kind hkind p hheld
          · exact hsettled.append [e]
        · rw [List.mem_singleton.1 ht] at hp
          rcases hp.before_or_after hsearch with hheld | ⟨search', hafter, -⟩
          · exact hlast kind hkind p hheld
          · exact absurd (hafter.symm.trans ended) (by simp)
      · have hover : n.search? = none := Node.search?_of_ended (Or.inr hfounding)
        intro t ht kind hkind p hp
        rcases List.mem_append.1 ht with ht | ht
        · exact (ih hquiet hover (Or.inr hfounding) t ht kind hkind p hp).append [e]
        · rw [List.mem_singleton.1 ht] at hp
          exact absurd hp (not_holds_of_ended hover ended)

/-- **A search gives up only when it has tried everyone.**  In every pursuit in which nothing else
happens to the node, whatever is answered: if it is over and has found no father, then whoever was
held at any moment by a pool of a kind that the search consults was drawn from it, or is the node
itself, the dead father or a neighbor, or was pushed out of the pool as its bound was exceeded.
And whoever was drawn was tried: it has no URL, or a link was opened to it, and whoever this led to
was asked, unless it led to the node itself. -/
theorem settles_all (pursuit : Pursuit start dead asRoot connector past n)
    (quiet : ∀ e ∈ past, e.Quiet) (ended : n.search? = none)
    (fatherless : n.position.father = none) :
    (∀ e ∈ past, ∀ kind ∈ start.settings.order.kinds, ∀ p, e.Holds kind p →
      Settled start dead past kind p) ∧
    ∀ prior t since search c, past = prior ++ t :: since → t.Takes search c → c.Tried since := by
  refine ⟨pursuit.settled_of_ended quiet ended (Or.inl fatherless), ?_⟩
  intro prior t since search c taken takes
  rcases pursuit.tried_or_pending taken takes with htried | hpending
  · exact htried
  · rcases pursuit.underway_or_free with hunderway | hfree
    · obtain ⟨search, hsearch⟩ := search?_of_pending hpending hunderway
      exact absurd (ended.symm.trans hsearch) (by simp)
    · rw [hfree] at hpending
      cases hpending

end Pursuit

end Search

namespace Rehearsal

/-- A sibling refuses, and names a peer that cannot be reached. -/
def despair : List Act :=
  [.advance, .advance, .advance,
    .event (.message (broker 2 "y")
      (.response ⟨default, .refused (.depthOrColor (some (broker 4 "w")))⟩)),
    .resume, .advance, .advance, .advance, .advance]

/-- A broker that finds no father has settled its sibling, and the peer that the sibling named. -/
theorem settles_all_of_despair :
    let begun := (orphaned.search (some (broker 3 "z")) false none).node
    let past := begun.story trio still despair
    let n := begun.grown trio still despair
    Search.Pursuit orphaned.node (some (broker 3 "z")) false none past n ∧
      (∀ e ∈ past, e.Quiet) ∧ n.search? = none ∧ n.position.father = none ∧
        (∃ e ∈ past, e.Holds .regional (broker 2 "y")) ∧
          (∃ e ∈ past, e.Holds .global (broker 4 "w")) ∧
            Search.Settled orphaned.node (some (broker 3 "z")) past .regional (broker 2 "y") ∧
              Search.Settled orphaned.node (some (broker 3 "z")) past .global (broker 4 "w") ∧
                ∀ prior t since search c, past = prior ++ t :: since → t.Takes search c →
                  c.Tried since := by
  intro begun past n
  have hbegun : Search.Pursuit orphaned.node (some (broker 3 "z")) false none [] begun :=
    .begin trio still rfl
  have hpursuit : Search.Pursuit orphaned.node (some (broker 3 "z")) false none past n :=
    hbegun.story trio still despair (by decide +kernel)
  have hquiet : ∀ e ∈ past, e.Quiet := begun.quiet_of_story trio still (by decide)
  have hover : n.search? = none := by decide +kernel
  have hfatherless : n.position.father = none := by decide +kernel
  have hholds : ∀ kind p, (past.any fun e => e.before.search?.any fun search =>
      p ∈ search.pools.held kind) = true → ∃ e ∈ past, e.Holds kind p := by
    intro kind p h
    obtain ⟨e, he, h⟩ := List.any_eq_true.1 h
    obtain ⟨hsome, h⟩ := (Option.any_eq_true_iff_get _ _).1 h
    exact ⟨e, he, .before (Option.some_get hsome).symm (of_decide_eq_true h)⟩
  obtain ⟨hsettled, htried⟩ := hpursuit.settles_all hquiet hover hfatherless
  obtain ⟨e, he, hy⟩ := hholds .regional (broker 2 "y") (by decide +kernel)
  obtain ⟨e', he', hw⟩ := hholds .global (broker 4 "w") (by decide +kernel)
  exact ⟨hpursuit, hquiet, hover, hfatherless, ⟨e, he, hy⟩, ⟨e', he', hw⟩,
    hsettled e he _ (by decide) _ hy, hsettled e' he' _ (by decide) _ hw, htried⟩

end Rehearsal

end BrokerForest
