import BrokerForest.Proofs.Connector
import BrokerForest.Proofs.Siblings
/-!
# Capacity: how much the pools hold, and whom they give back first

A node has a pool of ancestors, one of siblings and one of candidates heard of, and each of its
searches has copies of these and five reserves.  They are all pools of one kind under different
bounds.  So what is to be said of all of them is said of one pool and of all that can be done to
it, and then it only remains to see that whatever happens to a node, and to a search of it, is
done to each pool under the pool's own bound.

Main statements:

* `Pool.History` — what a pool has gone through since it was empty, and whom it took in;
* `Pool.History.distinct`, `Pool.History.within`, `Pool.History.recalls` — nobody is held twice,
  the bound is kept, and the order of the last additions is recalled;
* `SearchPools.Becomes` — what draws and refusals make of the pools of a search;
* `Node.Shift.grown`, `Session.pools_run` — every act keeps to this at the place of a node and in
  the search that holds its slot;
* `Node.Holds` — all pools of a node, each with its bound;
* **`Life.pool_of_holds`** — so each pool has a history, with all that this brings.
-/

namespace BrokerForest

/-! ## One pool -/

namespace Pool

/-- What a pool has gone through since it was empty, every addition under one bound, and whom it
has taken in meanwhile, the last at the end. -/
inductive History (bound : Option Nat) : List Peer → Pool → Prop where
  | empty : History bound [] .empty
  | add {log : List Peer} {q : Pool} {p : Peer} (h : History bound log q)
      (new : q.contains p = false) : History bound (log ++ [p]) (q.add bound p)
  | draw {log : List Peer} {q rest : Pool} {p : Peer} (h : History bound log q)
      (drawn : q.draw = some (p, rest)) : History bound log rest
  | remove {log : List Peer} {q : Pool} (h : History bound log q) (p : Peer) :
      History bound log (q.remove p)
  | clear {log : List Peer} {q : Pool} (h : History bound log q) : History bound log .empty

/-- A pool recalls in which order it took in those whom it holds: each was taken in at some
moment and not since, and all who are older were taken in before and not since. -/
def Recalls (log : List Peer) (q : Pool) : Prop :=
  ∀ earlier p later, q.entries = earlier ++ p :: later →
    ∃ before after, log = before ++ p :: after ∧ (∀ r ∈ earlier, r ∈ before) ∧
      ∀ r ∈ earlier ++ [p], r.among after = false

variable {bound : Option Nat} {log : List Peer} {q rest : Pool} {p : Peer}

/-- Who is drawn was the newest. -/
theorem entries_of_draw (h : q.draw = some (p, rest)) : q.entries = rest.entries ++ [p] := by
  obtain ⟨newest, hnewest, heq⟩ := Option.map_eq_some_iff.1 h
  cases heq
  exact (List.dropLast_append_getLast? p hnewest).symm

/-- A pool that only lost some of its peers recalls the order of the others. -/
theorem Recalls.sublist (h : q.Recalls log) (hrest : rest.entries.Sublist q.entries) :
    rest.Recalls log := by
  intro earlier p later hsplit
  rw [hsplit] at hrest
  obtain ⟨front, back, hentries, hfront, hback⟩ := List.append_sublist_iff.1 hrest
  obtain ⟨skipped, others, rfl, hp, -⟩ := List.cons_sublist_iff.1 hback
  obtain ⟨skipped, between, rfl⟩ := List.append_of_mem hp
  obtain ⟨before, after, hlog, hbefore, hsince⟩ :=
    h (front ++ skipped) p (between ++ others) (by simpa using hentries)
  refine ⟨before, after, hlog, fun r hr => ?_, fun r hr => ?_⟩
  · exact hbefore r (List.mem_append_left _ (hfront.subset hr))
  · refine hsince r ?_
    rcases List.mem_append.1 hr with hr | hr
    · exact List.mem_append_left _ (List.mem_append_left _ (hfront.subset hr))
    · exact List.mem_append_right _ hr

/-- Whoever is held was taken in. -/
theorem Recalls.mem_log (h : q.Recalls log) (hp : p ∈ q.entries) : p ∈ log := by
  obtain ⟨earlier, later, hsplit⟩ := List.append_of_mem hp
  obtain ⟨before, after, rfl, -⟩ := h earlier p later hsplit
  simp

/-- A peer that is new is the last to be taken in. -/
theorem Recalls.add (h : q.Recalls log) (hnew : q.contains p = false) :
    (q.add bound p).Recalls (log ++ [p]) := by
  have hother : ∀ r ∈ q.entries, r.same p = false := by
    intro r hr
    rw [Bool.eq_false_iff, ne_eq, Peer.same_iff]
    intro hid
    rw [Bool.eq_false_iff, contains, ne_eq, Peer.among_iff] at hnew
    exact hnew ⟨r, hr, hid.symm⟩
  have happended : (⟨q.entries ++ [p]⟩ : Pool).Recalls (log ++ [p]) := by
    intro earlier r later hsplit
    rcases List.eq_nil_or_concat later with rfl | ⟨later, last, rfl⟩
    · obtain ⟨rfl, hlast⟩ := List.append_inj' hsplit rfl
      cases hlast
      exact ⟨log, [], rfl, fun r hr => h.mem_log hr, by simp [Peer.among]⟩
    · rw [List.concat_eq_append, ← List.cons_append, ← List.append_assoc] at hsplit
      obtain ⟨hentries, hlast⟩ := List.append_inj' hsplit rfl
      cases hlast
      obtain ⟨before, after, rfl, hbefore, hsince⟩ := h earlier r later hentries
      refine ⟨before, after ++ [p], by simp, hbefore, fun x hx => ?_⟩
      have hheld : x ∈ q.entries := by
        rw [hentries]
        simp only [List.mem_append, List.mem_cons, List.not_mem_nil, or_false] at hx ⊢
        exact hx.imp_right Or.inl
      have hx' := hsince x hx
      simp only [Peer.among, List.any_append, List.any_cons, List.any_nil, Bool.or_false] at hx' ⊢
      rw [hx', hother x hheld, Bool.or_false]
  refine happended.sublist ?_
  rw [entries_add hnew]
  exact keepNewest_sublist ..

namespace History

/-- Nobody is held twice. -/
theorem distinct (h : History bound log q) : q.Distinct := by
  induction h with
  | empty | clear => exact distinct_empty
  | add _ new ih => exact distinct_add bound ih _
  | draw _ drawn ih =>
      refine ih.sublist (List.Sublist.map _ ?_)
      rw [entries_of_draw drawn]
      exact List.sublist_append_left ..
  | remove _ p ih => exact distinct_remove ih p

/-- No more are held than the bound allows. -/
theorem within (h : History bound log q) : ∀ most ∈ bound, q.size ≤ most := by
  intro most hmost
  induction h with
  | empty | clear => exact Nat.zero_le most
  | add _ new ih =>
      rw [size, entries_add new, Option.mem_def.1 hmost, keepNewest, List.length_drop]
      omega
  | draw _ drawn ih =>
      rw [size, entries_of_draw drawn, List.length_append] at ih
      exact (Nat.le_add_right ..).trans ih
  | remove _ p ih => exact (List.eraseP_sublist.length_le).trans ih

/-- The order of the last additions is recalled. -/
theorem recalls (h : History bound log q) : q.Recalls log := by
  induction h with
  | empty | clear =>
      intro earlier p later hsplit
      simp [Pool.empty] at hsplit
  | add _ new ih => exact ih.add new
  | draw _ drawn ih =>
      refine ih.sublist ?_
      rw [entries_of_draw drawn]
      exact List.sublist_append_left ..
  | remove _ p ih => exact ih.sublist List.eraseP_sublist

end History

/-- A pool has grown from an empty one under a bound. -/
def Grown (bound : Option Nat) (q : Pool) : Prop := ∃ log, History bound log q

theorem grown_empty (bound : Option Nat) : Pool.empty.Grown bound := ⟨[], .empty⟩

namespace Grown

theorem add (h : q.Grown bound) (p : Peer) : (q.add bound p).Grown bound := by
  obtain ⟨log, h⟩ := h
  cases hheld : q.contains p with
  | true =>
      rw [Pool.add, if_pos hheld]
      exact ⟨log, h⟩
  | false => exact ⟨log ++ [p], h.add hheld⟩

theorem addAll (h : q.Grown bound) (peers : List Peer) : (q.addAll bound peers).Grown bound := by
  unfold Pool.addAll
  induction peers generalizing q with
  | nil => exact h
  | cons p rest ih => exact ih (h.add p)

theorem draw (h : q.Grown bound) (hdraw : q.draw = some (p, rest)) : rest.Grown bound := by
  obtain ⟨log, h⟩ := h
  exact ⟨log, h.draw hdraw⟩

theorem remove (h : q.Grown bound) (p : Peer) : (q.remove p).Grown bound := by
  obtain ⟨log, h⟩ := h
  exact ⟨log, h.remove p⟩

theorem clear (h : q.Grown bound) : Pool.empty.Grown bound := by
  obtain ⟨log, h⟩ := h
  exact ⟨log, h.clear⟩

end Grown

end Pool

/-! ## The pools of a node -/

/-- The pools of ancestors and siblings have grown under the bounds of the settings. -/
structure Regional.Grown (settings : Settings) (r : Regional) : Prop where
  upstreamMax : r.upstreamMax = settings.upstreamMax
  siblingsMax : r.siblingsMax = settings.maxDegree
  upstream : r.upstream.Grown (some settings.upstreamMax)
  siblings : r.siblingPool.Grown (some settings.maxDegree)

/-- The pool of candidates heard of has grown under the bound of the settings. -/
structure Global.Grown (settings : Settings) (g : Global) : Prop where
  most : g.most = settings.globalMax
  pool : g.pool.Grown (some settings.globalMax)

/-- A reserve has grown under a bound. -/
structure Reserve.Grown (bound : Option Nat) (r : Reserve) : Prop where
  under : r.bound = bound
  pool : r.pool.Grown bound

/-- The pools of a node have grown. -/
structure Position.Grown (settings : Settings) (p : Position) : Prop where
  regional : p.regional.Grown settings
  global : p.global.Grown settings

/-- The pools of a search have grown, its own reserves under the bound of the candidates heard
of; only of those who were busy any number is held. -/
structure SearchPools.Grown (settings : Settings) (s : SearchPools) : Prop where
  regional : s.regional.Grown settings
  global : s.global.Grown settings
  downstream : s.downstream.Grown (some settings.globalMax)
  upstream : s.upstream.Grown (some settings.globalMax)
  minDegree : s.minDegree.Grown (some settings.globalMax)
  maxDegree : s.maxDegree.Grown (some settings.globalMax)
  busy : s.busy.Grown none

section

variable {settings : Settings}

namespace Regional.Grown

variable {r rest : Regional}

theorem setUpstream (h : r.Grown settings) (chain : List Peer) :
    (r.setUpstream chain).Grown settings := by
  rw [Regional.setUpstream, h.upstreamMax]
  exact ⟨rfl, h.siblingsMax, h.upstream.clear.addAll _, h.siblings⟩

theorem setSiblings (h : r.Grown settings) (siblings : List Peer) :
    (r.setSiblings siblings).Grown settings := by
  rw [Regional.setSiblings, h.siblingsMax]
  exact ⟨h.upstreamMax, rfl, h.upstream, h.siblings.clear.addAll _⟩

theorem addSiblings (h : r.Grown settings) (siblings : List Peer) :
    (r.addSiblings siblings).Grown settings := by
  rw [Regional.addSiblings_eq, h.siblingsMax]
  exact ⟨h.upstreamMax, rfl, h.upstream, h.siblings.addAll siblings⟩

theorem removeSibling (h : r.Grown settings) (p : Peer) : (r.removeSibling p).Grown settings :=
  { h with siblings := h.siblings.remove p }

theorem clear (h : r.Grown settings) : r.clear.Grown settings :=
  ⟨h.upstreamMax, h.siblingsMax, h.upstream.clear, h.siblings.clear⟩

theorem drawNext (h : r.Grown settings) {ws : Words} {p : Peer}
    (hdraw : (r.drawNext ws).1 = some (p, rest)) : rest.Grown settings := by
  rcases Regional.drawNext_cases hdraw with ⟨left, hleft, rfl⟩ | ⟨left, hleft, rfl⟩
  · exact { h with upstream := h.upstream.draw hleft }
  · exact { h with siblings := h.siblings.draw hleft }

end Regional.Grown

namespace Global.Grown

variable {g rest : Global}

theorem add (h : g.Grown settings) (p : Peer) : (g.add p).Grown settings := by
  rw [Global.add, h.most]
  exact ⟨rfl, h.pool.add p⟩

theorem merge (h : g.Grown settings) (candidates : List Peer) (excluded : Peer → Bool) :
    (g.merge candidates excluded).Grown settings := by
  rw [Global.merge, h.most]
  exact ⟨rfl, h.pool.addAll _⟩

theorem remove (h : g.Grown settings) (p : Peer) : (g.remove p).Grown settings :=
  { h with pool := h.pool.remove p }

theorem drawNext (h : g.Grown settings) {ws : Words} {p : Peer}
    (hdraw : (g.drawNext ws).1 = some (p, rest)) : rest.Grown settings := by
  rcases Global.drawNext_cases hdraw with ⟨-, rfl⟩ | ⟨-, left, hleft, rfl⟩
  · exact { h with }
  · exact { h with pool := h.pool.draw hleft }

end Global.Grown

namespace Reserve.Grown

variable {bound : Option Nat} {r rest : Reserve}

theorem add (h : r.Grown bound) (p : Peer) : (r.add p).Grown bound := by
  rw [Reserve.add, h.under]
  exact ⟨rfl, h.pool.add p⟩

theorem addAll (h : r.Grown bound) (peers : List Peer) : (r.addAll peers).Grown bound := by
  rw [Reserve.addAll, h.under]
  exact ⟨rfl, h.pool.addAll peers⟩

theorem drawNewest (h : r.Grown bound) {ws : Words} {p : Peer}
    (hdraw : (r.drawNewest ws).1 = some (p, rest)) : rest.Grown bound := by
  obtain ⟨left, hleft, rfl⟩ := Reserve.drawNewest_cases hdraw
  exact { h with pool := h.pool.draw hleft }

end Reserve.Grown

end

/-! ## The pools of a search -/

/-- Drawing until a peer is usable keeps what each draw keeps. -/
theorem drawUsable_keeps {σ : Type} {draw : σ → Words → Option (Peer × σ) × Words}
    {G : σ → Prop} (hdraw : ∀ s ws p rest, G s → (draw s ws).1 = some (p, rest) → G rest)
    (usable : Peer → Bool) (n : Nat) {s : σ} (ws : Words) (h : G s) :
    G (drawUsable draw usable n s ws).rest :=
  (drawUsable_all (P := fun _ => True)
    (fun s ws p rest hs hrest => ⟨trivial, hdraw s ws p rest hs hrest⟩) usable n ws h).1

namespace SearchPools

/-- What becomes of the pools of a search: pools of any kind are drawn from, whoever is usable,
and refusals of any content are taken into account.  A draw for which everyone is usable takes
one peer. -/
inductive Becomes (s : SearchPools) : SearchPools → Prop where
  | refl : Becomes s s
  | draw {t : SearchPools} (h : Becomes s t) (kind : PoolKind) (usable : Peer → Bool)
      (ws : Words) : Becomes s (t.nextFrom kind usable ws).pools
  | learn {search : Search} (h : Becomes s search.pools) (self peer : Peer) (refusal : Refusal) :
      Becomes s (search.learn self peer refusal).pools

variable {settings : Settings} {s t : SearchPools}

/-- What is left after a draw from one pool stands in its place. -/
theorem pools_ofDraw {σ : Type} (kind : PoolKind) (force : Force)
    (pause : σ → Words → Option Nat × Words) (put : σ → SearchPools) (d : Draw σ) :
    (ofDraw kind force pause put d).pools = put d.rest := by
  unfold ofDraw
  cases d.found <;> rfl

/-- Looking for the next candidate is drawing from one kind of pools after another. -/
theorem Becomes.next (h : s.Becomes t) (usable : Peer → PoolKind → Bool) (ws : Words) :
    s.Becomes (t.next usable ws).pools := by
  unfold SearchPools.next
  generalize t.order.kinds = kinds
  induction kinds generalizing t ws with
  | nil => exact h
  | cons kind kinds ih =>
      have hhere := h.draw kind (usable · kind) ws
      simp only [nextAmong]
      split
      · exact hhere
      · exact ih hhere _

namespace Grown

theorem start {p : Position} (h : p.Grown settings) (order : SearchOrder) (busyDelay : Duration) :
    (SearchPools.start order p.regional p.global settings.globalMax busyDelay).Grown settings := by
  have hempty : ∀ bound, Pool.empty.Grown bound := Pool.grown_empty
  exact ⟨h.regional, h.global, ⟨rfl, hempty _⟩, ⟨rfl, hempty _⟩, ⟨rfl, hempty _⟩, ⟨rfl, hempty _⟩,
    ⟨rfl, hempty _⟩⟩

/-- A draw from one kind of pool leaves pools that have grown. -/
theorem nextFrom (h : s.Grown settings) (kind : PoolKind) (usable : Peer → Bool) (ws : Words) :
    (s.nextFrom kind usable ws).pools.Grown settings := by
  have hreserve : ∀ {bound : Option Nat} {r : Reserve}, r.Grown bound →
      (r.draw usable ws).rest.Grown bound := fun hr =>
    drawUsable_keeps (fun _ _ _ _ hq hrest => hq.drawNewest hrest) usable _ ws hr
  cases kind with
  | regional =>
      rw [SearchPools.nextFrom, pools_ofDraw]
      exact { h with
        regional := drawUsable_keeps (fun _ _ _ _ hq hrest => hq.drawNext hrest) usable _ ws
          h.regional }
  | global =>
      rw [SearchPools.nextFrom, pools_ofDraw]
      exact { h with
        global := drawUsable_keeps (fun _ _ _ _ hq hrest => hq.drawNext hrest) usable _ ws
          h.global }
  | downstream =>
      rw [SearchPools.nextFrom, ofReserve, pools_ofDraw]
      exact { h with downstream := hreserve h.downstream }
  | upstream =>
      rw [SearchPools.nextFrom, ofReserve, pools_ofDraw]
      exact { h with upstream := hreserve h.upstream }
  | minDegree =>
      rw [SearchPools.nextFrom, ofReserve, pools_ofDraw]
      exact { h with minDegree := hreserve h.minDegree }
  | maxDegree =>
      rw [SearchPools.nextFrom, ofReserve, pools_ofDraw]
      exact { h with maxDegree := hreserve h.maxDegree }
  | busy =>
      rw [SearchPools.nextFrom, ofReserve, pools_ofDraw]
      exact { h with busy := hreserve h.busy }

/-- A refusal leaves pools that have grown, whomever it names. -/
theorem learn {search : Search} (h : search.pools.Grown settings) (self peer : Peer)
    (refusal : Refusal) : (search.learn self peer refusal).pools.Grown settings := by
  unfold Search.learn
  cases refusal with
  | busy => exact { h with busy := h.busy.add peer }
  | maxDegree siblings =>
      exact { h with
        maxDegree := h.maxDegree.add peer
        downstream := h.downstream.addAll siblings }
  | minDegree upstream =>
      exact { h with
        minDegree := h.minDegree.add peer
        upstream := h.upstream.addAll upstream }
  | depthOrColor hint =>
      cases hint with
      | none => exact h
      | some hint =>
          dsimp only
          split
          · exact h
          · exact { h with global := h.global.add hint }

/-- **Whatever becomes of the pools of a search, they have grown under their bounds.** -/
theorem becomes (h : s.Grown settings) (hbecomes : s.Becomes t) : t.Grown settings := by
  induction hbecomes with
  | refl => exact h
  | draw _ kind usable ws ih => exact ih.nextFrom kind usable ws
  | learn _ self peer refusal ih => exact ih.learn self peer refusal

end Grown

end SearchPools

/-! ## The pools of a node at its place -/

namespace Position

variable {settings : Settings} {p : Position}

theorem grown_start (settings : Settings) (ws : Words) :
    (Position.start settings ws).1.Grown settings :=
  ⟨⟨rfl, rfl, Pool.grown_empty _, Pool.grown_empty _⟩, ⟨rfl, Pool.grown_empty _⟩⟩

namespace Grown

theorem hear (h : p.Grown settings) (self : Peer) (candidates : List Peer)
    (excluded : Peer → Bool) : (p.hear self candidates excluded).Grown settings :=
  { h with global := h.global.merge candidates _ }

theorem newTree (h : p.Grown settings) (self : Peer) (ws : Words) :
    (p.newTree self ws).1.Grown settings :=
  ⟨h.regional.clear, h.global.merge p.regional.entries self.same⟩

end Grown

end Position

/-- Wherever an act takes a node, its pools have grown under the bounds of its settings. -/
theorem Node.Shift.grown {n : Node} {a : Act} {p : Position} (h : n.Shift a p)
    (hn : n.position.Grown n.settings) : p.Grown n.settings := by
  cases h with
  | stay => exact hn
  | welcome | serve | forget | lose | forsake => exact ⟨hn.regional, hn.global⟩
  | keepHint | takeHint | fork => exact ⟨hn.regional, ⟨hn.global.most, hn.global.pool⟩⟩
  | hear => exact hn.hear ..
  | bury father =>
      refine Position.Grown.hear ?_ ..
      exact ⟨hn.regional.removeSibling _, hn.global⟩
  | greet father =>
      refine Position.Grown.hear ?_ ..
      exact ⟨(hn.regional.setUpstream _).addSiblings _, hn.global⟩
  | heed father =>
      obtain ⟨-, -, hregional, hglobal⟩ := n.position.heed_frame ..
      refine ⟨?_, ?_⟩
      · rw [hregional]
        exact hn.regional.setUpstream _
      · rw [hglobal]
        exact hn.global
  | found founding => exact hn.newTree ..
  | learn => exact ⟨hn.regional, hn.global.add _⟩
  | @attach negotiation response acceptance ws negotiating collected accepted =>
      obtain ⟨own, heq⟩ := n.position.attach_eq n.self negotiation.peer response.rank acceptance ws
      rw [heq]
      exact ⟨(hn.regional.setUpstream _).setSiblings _, hn.global.remove _⟩

/-! ## The search that holds the slot -/

namespace Session

variable {σ : Type} [Transport σ] {s : Session σ} {search search' : Search}

/-- The pools that a search of the node would begin with. -/
def freshPools (s : Session σ) : SearchPools :=
  .start s.node.settings.order s.node.position.regional s.node.position.global
    s.node.settings.globalMax s.node.settings.busyDelay

omit [Transport σ] in
/-- Of a search that has ended nothing is left. -/
theorem search?_endSearch (s : Session σ) (search : Search) (found : Option (Peer × PoolKind)) :
    (s.endSearch search found).node.search? = none := by
  obtain ⟨connector, hnode⟩ := s.node_endSearch search found
  rw [hnode, Node.search?]
  dsimp only
  split <;> rfl

omit [Transport σ] in
/-- A search goes on after a negotiation with what a refusal has made of its pools. -/
theorem pools_settle {purpose : Purpose} {result : NegotiationResult}
    (h : (s.settle purpose result).node.search? = some search') :
    ∃ search, purpose.search? = some search ∧ search.pools.Becomes search'.pools := by
  cases purpose with
  | ask => cases h
  | join =>
      obtain ⟨global, outcome, hend, -⟩ := s.release.endJoin_eq result
      rw [settle, hend] at h
      cases h
  | search search source =>
      refine ⟨search, rfl, ?_⟩
      rcases s.settle_search_cases search source result with
        ⟨father, -, hend⟩ | ⟨later, hholder, -, -, -, hlater⟩
      · rw [hend, search?_endSearch] at h
        cases h
      · rw [Node.search?_of_holder hholder] at h
        cases h
        rcases hlater with rfl | ⟨p, rank, refusal, -, rfl⟩
        · exact .refl
        · exact SearchPools.Becomes.refl.learn ..

/-- A search goes on with what draws and refusals have left of its pools. -/
theorem pools_advance (h : s.advance.node.search? = some search') :
    ∃ search, s.node.search? = some search ∧ search.pools.Becomes search'.pools := by
  match hslot : s.node.slot.holder with
  | none | some .outsider | some (.negotiating _) =>
      rw [advance_of_not_ready (by simp [Node.isReady, hslot, Holder.isReady])] at h
      exact ⟨search', h, .refl⟩
  | some (.searching search) =>
      refine ⟨search, Node.search?_of_holder hslot, ?_⟩
      rw [advance_of_searching hslot] at h
      rcases s.draw_cases search with ⟨-, heq⟩ | ⟨-, ⟨-, heq⟩ | ⟨candidate, -, heq⟩⟩ <;>
        rw [heq] at h
      · rw [search?_endSearch] at h
        cases h
      · rw [search?_endSearch] at h
        cases h
      · rw [Node.search?_of_holder rfl, Candidate.search?_holder] at h
        cases h
        exact SearchPools.Becomes.refl.next _ s.words
  | some (.opening attempt) =>
      rw [Node.search?_of_holder hslot]
      rw [advance_of_opening hslot] at h
      rcases s.approach_cases attempt with
        ⟨error, -, heq⟩ | ⟨peer, -, ⟨-, heq⟩ | ⟨-, heq⟩⟩ <;> rw [heq] at h
      · exact pools_settle h
      · exact pools_settle h
      · exact ⟨search', h, .refl⟩
  | some (.asking negotiation request) =>
      rw [Node.search?_of_holder hslot]
      rw [advance_of_asking hslot] at h
      obtain ⟨holder, hnode, hholder⟩ := s.submit_cases negotiation request
      rw [hnode] at h
      rcases hholder with ⟨rfl, -⟩ | ⟨rfl, -⟩ <;> exact ⟨search', h, .refl⟩
  | some (.retreating negotiation) =>
      rw [Node.search?_of_holder hslot]
      rw [advance_of_retreating hslot, retreat_eq] at h
      exact pools_settle h
  | some (.leaving father) =>
      rw [advance_of_leaving hslot] at h
      cases h
  | some (.founding repair) =>
      rw [advance_of_founding hslot, node_found] at h
      cases h

/-- A search goes on with what the refusal that it takes has made of its pools. -/
theorem pools_resume (h : s.resume.node.search? = some search') :
    ∃ search, s.node.search? = some search ∧ search.pools.Becomes search'.pools := by
  by_cases hn : ∃ negotiation, s.node.slot.holder = some (.negotiating negotiation)
  · obtain ⟨negotiation, hslot⟩ := hn
    rw [Node.search?_of_holder hslot]
    rw [resume_of_negotiating hslot] at h
    exact pools_settle h
  · rw [resume_of_not_negotiating (by simpa using hn)] at h
    exact ⟨search', h, .refl⟩

omit [Transport σ] in
/-- A search that begins has copies of the node's pools and empty reserves, and has tried
nobody. -/
theorem search?_search {dead : Option Peer} {asRoot : Bool} {connector : Option Nat}
    (hfree : s.node.slot.isBusy = false)
    (h : (s.search dead asRoot connector).node.search? = some search') :
    search' = ⟨dead, asRoot, connector, s.freshPools, [], 0⟩ := by
  have hholder : s.node.slot.holder = none := by simpa [Slot.isBusy] using hfree
  have hnone : ∀ outcome, (s.node.settleConnector connector outcome).search? = none := by
    intro outcome
    obtain ⟨c, hc⟩ := s.node.settleConnector_cases connector outcome
    simp [hc, Node.search?, hholder]
  unfold search at h
  split at h
  · exact absurd h (by simp [hnone])
  · dsimp only at h
    split at h
    · exact absurd h (by simp [hnone])
    · cases h
      simp [Global.fork, freshPools]

/-- A search that begins has copies of the node's pools, and empty reserves. -/
theorem pools_begin {errand : Errand} (hfree : s.node.slot.isBusy = false)
    (h : (s.begin errand).node.search? = some search') : search'.pools = s.freshPools := by
  have hholder : s.node.slot.holder = none := by simpa [Slot.isBusy] using hfree
  have hnone : ∀ t : Session σ, t.node.slot = s.node.slot → t.node.search? ≠ some search' := by
    intro t ht
    simp [Node.search?, ht, hholder]
  have hsearch : ∀ dead asRoot connector,
      (s.search dead asRoot connector).node.search? = some search' →
        search'.pools = s.freshPools := by
    intro dead asRoot connector hs
    rw [search?_search hfree hs]
  cases errand with
  | repair dead => exact hsearch _ _ _ h
  | connect connector => exact hsearch _ _ _ h
  | reroot =>
      rw [Session.begin, reroot] at h
      split at h <;> cases h
  | join url =>
      rw [Session.begin, join] at h
      split at h
      · exact absurd h (hnone _ rfl)
      · cases h

/-- **After any act a search that goes on has what has become of its pools, or is a new one.** -/
theorem pools_run {a : Act} (possible : a.Possible s.node)
    (h : (a.run s).node.search? = some search') :
    (∃ search, s.node.search? = some search ∧ search.pools.Becomes search'.pools) ∨
      search'.pools = s.freshPools := by
  by_cases hbegin : ∃ errand, a = .begin errand
  · obtain ⟨errand, rfl⟩ := hbegin
    exact Or.inr (pools_begin
      (s := s.withNode { s.node with errands := s.node.errands.erase errand }) possible.2 h)
  left
  by_cases hadvance : a = .advance
  · subst hadvance
    exact pools_advance h
  by_cases hresume : a = .resume
  · subst hresume
    exact pools_resume h
  obtain ⟨-, hslot⟩ := meanwhile_of_aside (s := s) (by simpa using hbegin) hadvance hresume
  refine ⟨search', ?_, .refl⟩
  rwa [Node.search?, hslot] at h

end Session

/-! ## All pools of a node -/

/-- The pools of a search, each with its bound. -/
inductive SearchPools.Holds (settings : Settings) (s : SearchPools) :
    Pool → Option Nat → Prop where
  | ancestors : Holds settings s s.regional.upstream (some settings.upstreamMax)
  | siblings : Holds settings s s.regional.siblingPool (some settings.maxDegree)
  | global : Holds settings s s.global.pool (some settings.globalMax)
  | downstream : Holds settings s s.downstream.pool (some settings.globalMax)
  | upstream : Holds settings s s.upstream.pool (some settings.globalMax)
  | minDegree : Holds settings s s.minDegree.pool (some settings.globalMax)
  | maxDegree : Holds settings s s.maxDegree.pool (some settings.globalMax)
  | busy : Holds settings s s.busy.pool none

/-- The pools of a node, and of a search of it at any point that it can come to until its next
turn, each with its bound. -/
inductive Node.Holds (n : Node) : Pool → Option Nat → Prop where
  | ancestors : n.Holds n.position.regional.upstream (some n.settings.upstreamMax)
  | siblings : n.Holds n.position.regional.siblingPool (some n.settings.maxDegree)
  | global : n.Holds n.position.global.pool (some n.settings.globalMax)
  | search {search : Search} {pools : SearchPools} {q : Pool} {bound : Option Nat}
      (held : n.search? = some search) (becomes : search.pools.Becomes pools)
      (holds : pools.Holds n.settings q bound) : n.Holds q bound

theorem SearchPools.Grown.of_holds {settings : Settings} {s : SearchPools} {q : Pool}
    {bound : Option Nat} (h : s.Grown settings) (holds : s.Holds settings q bound) :
    q.Grown bound := by
  cases holds with
  | ancestors => exact h.regional.upstream
  | siblings => exact h.regional.siblings
  | global => exact h.global.pool
  | downstream => exact h.downstream.pool
  | upstream => exact h.upstream.pool
  | minDegree => exact h.minDegree.pool
  | maxDegree => exact h.maxDegree.pool
  | busy => exact h.busy.pool

namespace Life

variable {cond : Episode → Prop} {history : List Episode} {n : Node}

/-- At every moment of a life the pools of the node, and of the search that goes on, have grown
under their bounds. -/
theorem grown (life : Life cond history n) :
    n.position.Grown n.settings ∧
      ∀ search, n.search? = some search → search.pools.Grown n.settings := by
  induction life with
  | birth settings self ws =>
      exact ⟨Position.grown_start settings ws, by simp [Node.start, Node.search?, Slot.free]⟩
  | act life outside ws possible _ ih =>
      obtain ⟨hposition, hsearch⟩ := ih
      have hturns := Session.turns_run ⟨_, outside, ws, []⟩ possible
      rw [hturns.settings]
      refine ⟨hturns.shift.grown hposition, fun search' hsearch' => ?_⟩
      rcases Session.pools_run possible hsearch' with ⟨search, hheld, hbecomes⟩ | hfresh
      · exact (hsearch search hheld).becomes hbecomes
      · rw [hfresh]
        exact .start hposition ..

/-- Whatever happens in a life: every pool of the node, and of every search at every point, holds
nobody twice and no more than its bound.  It has a history, and whatever its history, who is drawn
from it was taken in after all others that it holds, each of which was taken in before and not
since. -/
theorem pool_of_holds {q : Pool} {bound : Option Nat} (life : Life cond history n)
    (holds : n.Holds q bound) :
    q.Distinct ∧ (∀ most ∈ bound, q.size ≤ most) ∧ (∃ log, Pool.History bound log q) ∧
      (q.draw = none ↔ q.entries = []) ∧
        ∀ log p rest, Pool.History bound log q → q.draw = some (p, rest) →
          q.entries = rest.entries ++ [p] ∧
            ∃ before after, log = before ++ p :: after ∧ p.among after = false ∧
              ∀ r ∈ rest.entries, r ∈ before ∧ r.among after = false := by
  have hgrown : q.Grown bound := by
    obtain ⟨hposition, hsearch⟩ := life.grown
    cases holds with
    | ancestors => exact hposition.regional.upstream
    | siblings => exact hposition.regional.siblings
    | global => exact hposition.global.pool
    | search held becomes holds => exact ((hsearch _ held).becomes becomes).of_holds holds
  obtain ⟨log, h⟩ := hgrown
  refine ⟨h.distinct, h.within, ⟨log, h⟩, by simp [Pool.draw], fun log' p rest h' hdraw => ?_⟩
  have hentries := Pool.entries_of_draw hdraw
  obtain ⟨before, after, hlog, hbefore, hsince⟩ := h'.recalls rest.entries p [] hentries
  refine ⟨hentries, before, after, hlog, hsince p (by simp), fun r hr => ?_⟩
  exact ⟨hbefore r hr, hsince r (List.mem_append_left _ hr)⟩

end Life

namespace Rehearsal

/-- A root with room for two candidates hears of three and looks for a tree to join: its search
holds the last two, and draws the last of them. -/
theorem pool_of_holds_of_seeker :
    let settings := { Settings.standard with globalMax := 2 }
    let young := (Node.start settings (broker 1 "x") still).1
    let acts : List Act :=
      [.event (.message (broker 2 "y")
          (.candidates [broker 3 "z", broker 4 "w", broker 5 "v"])),
        .start, .tick, .begin (.connect 0)]
    let seeker := young.grown trio still acts
    Life (fun _ => True) (young.story trio still acts) seeker ∧
      ∃ q : Pool, seeker.Holds q (some 2) ∧ q.entries = [broker 4 "w", broker 5 "v"] ∧
        q.Distinct ∧ q.size ≤ 2 ∧ ∃ log, Pool.History (some 2) log q ∧
          ∃ before after, log = before ++ broker 5 "v" :: after ∧ broker 4 "w" ∈ before := by
  intro settings young acts seeker
  have hpossible : ∀ e ∈ young.story trio still acts, e.act.Possible e.before := by
    decide +kernel
  have life : Life (fun _ => True) (young.story trio still acts) seeker :=
    (Life.birth settings (broker 1 "x") still).story trio still fun e he =>
      ⟨hpossible e he, trivial⟩
  obtain ⟨search, hheld, hentries⟩ : ∃ search, seeker.search? = some search ∧
      search.pools.global.pool.entries = [broker 4 "w", broker 5 "v"] := by
    refine ⟨_, rfl, by decide +kernel⟩
  have holds : seeker.Holds search.pools.global.pool (some 2) := .search hheld .refl .global
  obtain ⟨hdistinct, hsize, ⟨log, hlog⟩, -, hdraw⟩ := life.pool_of_holds holds
  obtain ⟨-, before, after, hbefore, -, hrest⟩ :=
    hdraw log (broker 5 "v") ⟨[broker 4 "w"]⟩ hlog (by rw [Pool.draw, hentries]; rfl)
  exact ⟨life, _, holds, hentries, hdistinct, hsize 2 rfl, log, hlog, before, after, hbefore,
    (hrest _ (by simp)).1⟩

end Rehearsal

end BrokerForest
