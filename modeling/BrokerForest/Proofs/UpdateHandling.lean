import BrokerForest.Network.Wave
import BrokerForest.Proofs.Neighborhood
import BrokerForest.Proofs.OperationSpecs
/-!
# Updates: what a node makes of an update, and what it tells of its own moves

An update carries the chain above the node that gets it.  The node keeps the chain as it is,
if nobody is in it twice, and hands its own on to its children; and when it comes to another
place itself it tells them so in the same way.

Main statements:

* `Pool.entries_addAll_of_new` — of those who are new to a pool the newest are held in the end;
* `Regional.upstreamChain_setUpstream` — a chain without repetitions is kept up to the bound;
* `Session.posts` — what a node has sent;
* `Session.posts_onUpdate`, `Session.posts_attach`, `Session.posts_newTree` — what it sends
  when it hears an update, is accepted or becomes the root of a new tree.
-/

namespace BrokerForest

/-! ## Chains -/

namespace Pool

variable {q : Pool} {bound : Option Nat} {p : Peer} {peers : List Peer}

/-- Under a bound the newest are kept. -/
theorem keepNewest_sublist (bound : Option Nat) (peers : List Peer) :
    (keepNewest bound peers).Sublist peers := by
  cases bound with
  | none => exact .refl peers
  | some most => exact List.drop_sublist ..

/-- A peer that is new is held after all others, as far as the bound allows. -/
theorem entries_add (h : q.contains p = false) :
    (q.add bound p).entries = keepNewest bound (q.entries ++ [p]) := by
  rw [add, h, if_neg Bool.false_ne_true]

/-- Under a bound the newest of all are kept, even if older ones are forgotten on the way. -/
theorem keepNewest_append (bound : Option Nat) (older newer : List Peer) :
    keepNewest bound (keepNewest bound older ++ newer) = keepNewest bound (older ++ newer) := by
  cases bound with
  | none => rfl
  | some most =>
      have hfirst : older.length - most ≤ older.length := Nat.sub_le ..
      simp only [keepNewest]
      rw [← List.drop_append_of_le_length hfirst, List.drop_drop]
      congr 1
      rw [List.length_drop, List.length_append]
      omega

/-- Of those in a pool and those who are new to it, the newest are held in the end. -/
theorem entries_addAll_of_new (hnew : ((q.entries ++ peers).map Peer.id).Nodup)
    (hbound : keepNewest bound q.entries = q.entries) :
    (q.addAll bound peers).entries = keepNewest bound (q.entries ++ peers) := by
  induction peers generalizing q with
  | nil => rw [List.append_nil, hbound, addAll, List.foldl_nil]
  | cons p rest ih =>
      have hfresh : q.contains p = false := by
        rw [Bool.eq_false_iff, contains, ne_eq, Peer.among_iff]
        intro ⟨r, hr, hid⟩
        rw [List.map_append, List.nodup_append] at hnew
        exact hnew.2.2 r.id (List.mem_map_of_mem hr) p.id (by simp) hid.symm
      have hadd : (q.add bound p).entries = keepNewest bound (q.entries ++ [p]) :=
        entries_add hfresh
      have hlater : (((q.add bound p).entries ++ rest).map Peer.id).Nodup := by
        rw [hadd]
        refine hnew.sublist (List.Sublist.map _ ?_)
        simpa using (keepNewest_sublist bound (q.entries ++ [p])).append_right rest
      have hstill : keepNewest bound (q.add bound p).entries = (q.add bound p).entries := by
        rw [hadd]
        simpa using keepNewest_append bound (q.entries ++ [p]) []
      have hrest := ih hlater hstill
      rw [hadd, keepNewest_append, List.append_assoc] at hrest
      exact hrest

/-- As long as there is room, those who are new to a pool are all taken into it, in order. -/
theorem entries_addAll {most : Nat} (hnew : ((q.entries ++ peers).map Peer.id).Nodup)
    (hroom : q.entries.length + peers.length ≤ most) :
    (q.addAll (some most) peers).entries = q.entries ++ peers := by
  have hall : ∀ held : List Peer, held.length ≤ most → keepNewest (some most) held = held := by
    intro held hheld
    rw [keepNewest, Nat.sub_eq_zero_of_le hheld, List.drop_zero]
  rw [entries_addAll_of_new hnew (hall _ (by omega)), hall _ (by rwa [List.length_append])]

end Pool

/-- A chain without repetitions is kept up to the bound. -/
theorem Regional.upstreamChain_setUpstream (r : Regional) {chain : List Peer}
    (h : (chain.map Peer.id).Nodup) :
    (r.setUpstream chain).upstreamChain = chain.take r.upstreamMax := by
  have hdistinct : (((chain.take r.upstreamMax).reverse).map Peer.id).Nodup := by
    rw [List.map_reverse, List.nodup_reverse]
    exact h.sublist ((List.take_sublist ..).map _)
  have hentries : (Pool.empty.addAll (some r.upstreamMax)
      (chain.take r.upstreamMax).reverse).entries = (chain.take r.upstreamMax).reverse :=
    Pool.entries_addAll (by simpa [Pool.empty] using hdistinct) (by simp [Pool.empty])
  rw [upstreamChain, setUpstream, hentries, List.reverse_reverse]

/-! ## What a node sends -/

/-- The message that an effect is to send, and to whom, whether or not it goes out. -/
def Effect.post? : Effect → Option (Peer × Message)
  | .sent peer message _ _ => some (peer, message)
  | _ => none

/-- What goes out is sent. -/
theorem Effect.post?_of_mail? {e : Effect} {mail : Peer × Message} (h : e.mail? = some mail) :
    e.post? = some mail := by
  unfold mail? at h
  split at h
  · exact h
  · cases h

/-- What goes out is all that is sent, if nothing is lost. -/
theorem Effect.filterMap_mail? {effects : List Effect} (h : ∀ e ∈ effects, e.Passes) :
    effects.filterMap Effect.mail? = effects.filterMap Effect.post? := by
  refine List.filterMap_congr fun e he => ?_
  have hpasses := h e he
  cases e with
  | sent peer message traffic delivered =>
      obtain rfl : delivered = true := hpasses
      rfl
  | opened | closed | noted | paused | ended => rfl

namespace Session

variable {σ : Type}

/-- All that a node has sent. -/
def posts (s : Session σ) : List (Peer × Message) := s.trace.filterMap Effect.post?

@[simp] theorem posts_withPosition (s : Session σ) (p : Position) :
    (s.withPosition p).posts = s.posts := rfl

@[simp] theorem posts_withWords (s : Session σ) (ws : Words) :
    (s.withWords ws).posts = s.posts := rfl

@[simp] theorem posts_hold (s : Session σ) (holder : Holder) : (s.hold holder).posts = s.posts :=
  rfl

@[simp] theorem posts_dropConnector (s : Session σ) : s.dropConnector.posts = s.posts := rfl

@[simp] theorem posts_startConnector (s : Session σ) : s.startConnector.posts = s.posts := rfl

@[simp] theorem posts_queue (s : Session σ) (errand : Errand) :
    (s.queue errand).posts = s.posts := rfl

@[simp] theorem posts_note (s : Session σ) (notice : Notice) : (s.note notice).posts = s.posts := by
  unfold note
  split
  · simp [posts, see, Effect.post?]
  · rfl

variable [Transport σ]

@[simp] theorem posts_closeLink (s : Session σ) (peer : Peer) :
    (s.closeLink peer).posts = s.posts := by
  simp [posts, closeLink, see, Effect.post?]

@[simp] theorem posts_tell (s : Session σ) (peer : Peer) (message : Message) :
    (s.tell peer message).posts = s.posts ++ [(peer, message)] := by
  simp [posts, tell, send, see, Effect.post?]

@[simp] theorem posts_sendAll (s : Session σ) (peers : List Peer) (message : Message) :
    (s.sendAll peers message).posts = s.posts ++ peers.map fun peer => (peer, message) := by
  unfold sendAll
  induction peers generalizing s with
  | nil => simp
  | cons peer rest ih => rw [List.foldl_cons, ih]; simp

/-- When a father tells of its rank and its chain, the children are told in turn if the
node's own rank changes, or if the news is to travel further. -/
theorem posts_onUpdate {s : Session σ} {origin : Peer} {news : Update}
    (h : s.node.position.isFather origin = true) :
    (s.onUpdate origin news).posts = s.posts ++
      if (s.node.position.heed news s.words).1.color ||
          (s.node.position.heed news s.words).1.depth || 0 < news.hops then
        (s.onUpdate origin news).node.position.children.map fun peer =>
          (peer, .update ⟨(s.onUpdate origin news).node.position.rank,
            (s.onUpdate origin news).node.chain, news.hopsLeft⟩)
      else [] := by
  rw [node_onUpdate_of_father h, onUpdate_eq, if_pos h]
  dsimp only
  split
  · simp
  · simp

/-- A node that is accepted tells its children. -/
theorem posts_attach (s : Session σ) (father : Peer) (rank : Rank) (acceptance : Acceptance) :
    (s.attach father rank acceptance).posts = s.posts ++
      (s.attach father rank acceptance).node.position.children.map fun peer =>
        (peer, (s.attach father rank acceptance).node.update
          (s.attach father rank acceptance).node.chain) := by
  rw [node_attach, attach_eq]
  simp only [posts_dropConnector, posts_sendAll, posts_note, posts_withWords, posts_withPosition,
    node_note, node_withWords, node_withPosition]
  rfl

/-- The root of a new tree tells its children. -/
theorem posts_newTree (s : Session σ) :
    s.newTree.posts = s.posts ++
      s.newTree.node.position.children.map fun peer => (peer, s.newTree.node.update []) := by
  rw [node_newTree, newTree_eq]
  simp only [posts_sendAll, posts_note, posts_withWords, posts_withPosition, node_note,
    node_withWords, node_withPosition]

end Session

end BrokerForest
