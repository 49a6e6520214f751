import BrokerForest.Pool.Search
/-!
# Pools: whom a search can draw

Pools only ever give back what was put into them, and a draw skips whoever is not usable.
So whatever is true of everyone in the pools of a search and of everyone that a refusal
names remains true of everyone in the pools, and of every candidate.

Main statements:

* `drawUsable_usable`, `drawUsable_all` — who is drawn is usable, and was held;
* `SearchPools.All` — something is true of everyone in the pools of a search;
* **`SearchPools.next_spec`** — the next candidate comes from a listed kind of pool, is usable
  for that kind, and was held.
-/

namespace BrokerForest

variable {P Q : Peer → Prop}

/-! ## Single pools -/

namespace Pool

/-- Something is true of everyone in a pool. -/
def All (P : Peer → Prop) (q : Pool) : Prop := ∀ p ∈ q.entries, P p

theorem All.mono {q : Pool} (h : q.All P) (himp : ∀ p, P p → Q p) : q.All Q :=
  fun p hp => himp p (h p hp)

theorem all_empty : Pool.empty.All P := by simp [All, empty]

theorem all_add {q : Pool} {p : Peer} (bound : Option Nat) (h : q.All P) (hp : P p) :
    (q.add bound p).All P := by
  unfold add
  by_cases hin : q.contains p
  · simpa [hin] using h
  · have happ : ∀ r ∈ q.entries ++ [p], P r := by
      intro r hr
      rcases List.mem_append.mp hr with hr | hr
      · exact h r hr
      · rw [List.mem_singleton.mp hr]
        exact hp
    intro r hr
    simp only [hin, keepNewest] at hr
    cases bound with
    | none => exact happ r hr
    | some most => exact happ r (List.mem_of_mem_drop hr)

theorem all_addAll {q : Pool} {peers : List Peer} (bound : Option Nat) (h : q.All P)
    (hpeers : ∀ p ∈ peers, P p) : (q.addAll bound peers).All P := by
  unfold addAll
  induction peers generalizing q with
  | nil => exact h
  | cons p rest ih =>
      exact ih (all_add bound h (hpeers p (by simp))) fun r hr => hpeers r (by simp [hr])

theorem all_remove {q : Pool} (p : Peer) (h : q.All P) : (q.remove p).All P :=
  fun r hr => h r (List.eraseP_sublist.subset hr)

theorem all_draw {q rest : Pool} {p : Peer} (h : q.All P) (hdraw : q.draw = some (p, rest)) :
    P p ∧ rest.All P := by
  obtain ⟨newest, hnewest, heq⟩ := Option.map_eq_some_iff.mp hdraw
  cases heq
  refine ⟨h _ (List.mem_of_getLast? hnewest), ?_⟩
  intro r hr
  exact h r (List.dropLast_subset _ hr)

/-- A pool holds nobody twice. -/
def Distinct (q : Pool) : Prop := (q.entries.map Peer.id).Nodup

theorem distinct_empty : Pool.empty.Distinct := List.nodup_nil

theorem distinct_add {q : Pool} (bound : Option Nat) (h : q.Distinct) (p : Peer) :
    (q.add bound p).Distinct := by
  unfold add
  cases hin : q.contains p with
  | true => exact h
  | false =>
      have hnew : p.id ∉ q.entries.map Peer.id := by
        rw [Bool.eq_false_iff, contains, ne_eq, Peer.among_iff] at hin
        rintro hp
        obtain ⟨r, hr, hid⟩ := List.mem_map.1 hp
        exact hin ⟨r, hr, hid.symm⟩
      have happ : ((q.entries ++ [p]).map Peer.id).Nodup := by
        rw [List.map_append, List.nodup_append]
        refine ⟨h, by simp, ?_⟩
        rintro v hv w hw rfl
        rw [List.map_singleton, List.mem_singleton] at hw
        exact hnew (hw ▸ hv)
      cases bound with
      | none => exact happ
      | some most => exact happ.sublist ((List.drop_sublist ..).map _)

theorem distinct_addAll {q : Pool} (bound : Option Nat) (h : q.Distinct) (peers : List Peer) :
    (q.addAll bound peers).Distinct := by
  unfold addAll
  induction peers generalizing q with
  | nil => exact h
  | cons p rest ih => exact ih (distinct_add bound h p)

theorem distinct_remove {q : Pool} (h : q.Distinct) (p : Peer) : (q.remove p).Distinct :=
  h.sublist (List.eraseP_sublist.map _)

end Pool

/-! ## Drawing until a peer is usable -/

section

variable {σ : Type} {draw : σ → Words → Option (Peer × σ) × Words} {usable : Peer → Bool}

/-- Who is drawn in the end is usable. -/
theorem drawUsable_usable {n : Nat} {s : σ} {ws : Words} {p : Peer}
    (h : (drawUsable draw usable n s ws).found = some p) : usable p = true := by
  induction n generalizing s ws with
  | zero => simp [drawUsable] at h
  | succ n ih =>
      simp only [drawUsable] at h
      split at h
      · simp at h
      · rename_i q rest ws' heq
        by_cases husable : usable q = true
        · rw [if_pos husable] at h
          cases h
          exact husable
        · rw [if_neg husable] at h
          exact ih h

/-- What is true of everyone held is true of who is drawn, and of everyone left. -/
theorem drawUsable_all {G : σ → Prop}
    (hdraw : ∀ s ws p rest, G s → (draw s ws).1 = some (p, rest) → P p ∧ G rest)
    (usable : Peer → Bool) (n : Nat) {s : σ} (ws : Words) (h : G s) :
    G (drawUsable draw usable n s ws).rest ∧
      ∀ p, (drawUsable draw usable n s ws).found = some p → P p := by
  induction n generalizing s ws with
  | zero => exact ⟨h, by simp [drawUsable]⟩
  | succ n ih =>
      simp only [drawUsable]
      split
      · exact ⟨h, by simp⟩
      · rename_i q rest ws' heq
        obtain ⟨hq, hrest⟩ := hdraw s ws q rest h (by rw [heq])
        by_cases husable : usable q = true
        · rw [if_pos husable]
          exact ⟨hrest, fun p hp => by cases hp; exact hq⟩
        · rw [if_neg husable]
          exact ih _ hrest

end

/-! ## The persistent pools and the reserves -/

/-- Something is true of everyone in a global pool, and of its hint. -/
def Global.All (P : Peer → Prop) (g : Global) : Prop := g.pool.All P ∧ ∀ p, g.hint = some p → P p

/-- Something is true of every ancestor and every sibling. -/
def Regional.All (P : Peer → Prop) (r : Regional) : Prop := r.upstream.All P ∧ r.siblingPool.All P

/-- Something is true of everyone in a reserve. -/
def Reserve.All (P : Peer → Prop) (r : Reserve) : Prop := r.pool.All P

theorem Global.all_add {g : Global} {p : Peer} (h : g.All P) (hp : P p) : (g.add p).All P :=
  ⟨Pool.all_add _ h.1 hp, h.2⟩

theorem Global.all_setHint {g : Global} {p : Peer} (h : g.All P) (hp : P p) :
    (g.setHint p).All P :=
  ⟨h.1, fun q hq => by cases hq; exact hp⟩

theorem Global.all_withoutHint {g : Global} (h : g.All P) : g.withoutHint.All P :=
  ⟨h.1, by simp [withoutHint]⟩

theorem Global.all_remove {g : Global} (p : Peer) (h : g.All P) : (g.remove p).All P := by
  refine ⟨Pool.all_remove p h.1, fun q hq => ?_⟩
  simp only [remove] at hq
  split at hq
  · cases hq
  · exact h.2 q hq

/-- Who is heard of is known. -/
theorem Global.all_merge {g : Global} {candidates : List Peer} {excluded : Peer → Bool}
    (h : g.All P) (hcandidates : ∀ p ∈ candidates, P p) : (g.merge candidates excluded).All P :=
  ⟨Pool.all_addAll _ h.1 fun p hp => hcandidates p (List.mem_filter.1 hp).1, h.2⟩

theorem Regional.all_setUpstream {r : Regional} {chain : List Peer} (h : r.All P)
    (hchain : ∀ p ∈ chain, P p) : (r.setUpstream chain).All P := by
  refine ⟨Pool.all_addAll _ Pool.all_empty fun p hp => ?_, h.2⟩
  exact hchain p (List.mem_of_mem_take (List.mem_reverse.1 hp))

theorem Regional.all_setSiblings {r : Regional} {siblings : List Peer} (h : r.All P)
    (hsiblings : ∀ p ∈ siblings, P p) : (r.setSiblings siblings).All P :=
  ⟨h.1, Pool.all_addAll _ Pool.all_empty hsiblings⟩

theorem Regional.all_addSiblings {r : Regional} {siblings : List Peer} (h : r.All P)
    (hsiblings : ∀ p ∈ siblings, P p) : (r.addSiblings siblings).All P := by
  unfold addSiblings
  induction siblings generalizing r with
  | nil => exact h
  | cons p rest ih =>
      have hfirst : (r.addSibling p).All P := ⟨h.1, Pool.all_add _ h.2 (hsiblings p (by simp))⟩
      exact ih hfirst fun q hq => hsiblings q (by simp [hq])

theorem Regional.all_removeSibling {r : Regional} (p : Peer) (h : r.All P) :
    (r.removeSibling p).All P :=
  ⟨h.1, Pool.all_remove p h.2⟩

theorem Regional.all_clear (r : Regional) : r.clear.All P := ⟨Pool.all_empty, Pool.all_empty⟩

/-- A draw takes the hint, or from the pool if there is none. -/
theorem Global.drawNext_cases {g rest : Global} {ws : Words} {p : Peer}
    (h : (g.drawNext ws).1 = some (p, rest)) :
    (g.hint = some p ∧ rest = g.withoutHint) ∨
      (g.hint = none ∧ ∃ left, g.pool.draw = some (p, left) ∧ rest = { g with pool := left }) := by
  unfold drawNext at h
  cases hhint : g.hint with
  | some hint =>
      rw [hhint] at h
      cases h
      exact Or.inl ⟨rfl, rfl⟩
  | none =>
      rw [hhint] at h
      obtain ⟨⟨q, left⟩, hdraw, heq⟩ := Option.map_eq_some_iff.1 h
      cases heq
      exact Or.inr ⟨rfl, left, hdraw, rfl⟩

/-- A draw takes the closest ancestor or the newest sibling. -/
theorem Regional.drawNext_cases {r rest : Regional} {ws : Words} {p : Peer}
    (h : (r.drawNext ws).1 = some (p, rest)) :
    (∃ left, r.upstream.draw = some (p, left) ∧ rest = { r with upstream := left }) ∨
      ∃ left, r.siblingPool.draw = some (p, left) ∧ rest = { r with siblingPool := left } := by
  have hdrawn : r.drawAncestor = some (p, rest) ∨ r.drawSibling = some (p, rest) := by
    unfold drawNext at h
    split at h
    · exact Or.inl h
    · split at h
      · exact Or.inr h
      · dsimp only at h
        split at h
        · exact Or.inr h
        · exact Or.inl h
  rcases hdrawn with h | h
  · obtain ⟨⟨q, left⟩, hdraw, heq⟩ := Option.map_eq_some_iff.1 h
    cases heq
    exact Or.inl ⟨left, hdraw, rfl⟩
  · obtain ⟨⟨q, left⟩, hdraw, heq⟩ := Option.map_eq_some_iff.1 h
    cases heq
    exact Or.inr ⟨left, hdraw, rfl⟩

/-- A draw takes the newest. -/
theorem Reserve.drawNewest_cases {r rest : Reserve} {ws : Words} {p : Peer}
    (h : (r.drawNewest ws).1 = some (p, rest)) :
    ∃ left, r.pool.draw = some (p, left) ∧ rest = { r with pool := left } := by
  obtain ⟨⟨q, left⟩, hdraw, heq⟩ := Option.map_eq_some_iff.1 h
  cases heq
  exact ⟨left, hdraw, rfl⟩

theorem Global.all_drawNext (g : Global) (ws : Words) (p : Peer) (rest : Global)
    (h : g.All P) (hdraw : (g.drawNext ws).1 = some (p, rest)) : P p ∧ rest.All P := by
  rcases drawNext_cases hdraw with ⟨hhint, rfl⟩ | ⟨-, left, hleft, rfl⟩
  · exact ⟨h.2 p hhint, h.1, by simp [withoutHint]⟩
  · have hdrawn := Pool.all_draw h.1 hleft
    exact ⟨hdrawn.1, hdrawn.2, h.2⟩

theorem Regional.all_drawNext (r : Regional) (ws : Words) (p : Peer) (rest : Regional)
    (h : r.All P) (hdraw : (r.drawNext ws).1 = some (p, rest)) : P p ∧ rest.All P := by
  rcases drawNext_cases hdraw with ⟨left, hleft, rfl⟩ | ⟨left, hleft, rfl⟩
  · have hdrawn := Pool.all_draw h.1 hleft
    exact ⟨hdrawn.1, hdrawn.2, h.2⟩
  · have hdrawn := Pool.all_draw h.2 hleft
    exact ⟨hdrawn.1, h.1, hdrawn.2⟩

theorem Reserve.all_drawNewest (r : Reserve) (ws : Words) (p : Peer) (rest : Reserve)
    (h : r.All P) (hdraw : (r.drawNewest ws).1 = some (p, rest)) : P p ∧ rest.All P := by
  obtain ⟨left, hleft, rfl⟩ := drawNewest_cases hdraw
  exact Pool.all_draw h hleft

/-! ## The pools of a search -/

namespace SearchPools

/-- Something is true of everyone in the pools of a search. -/
structure All (P : Peer → Prop) (s : SearchPools) : Prop where
  regional : s.regional.All P
  global : s.global.All P
  downstream : s.downstream.All P
  upstream : s.upstream.All P
  minDegree : s.minDegree.All P
  maxDegree : s.maxDegree.All P
  busy : s.busy.All P

theorem All.mono {s : SearchPools} (h : s.All P) (himp : ∀ p, P p → Q p) : s.All Q where
  regional := ⟨h.regional.1.mono himp, h.regional.2.mono himp⟩
  global := ⟨h.global.1.mono himp, fun p hp => himp p (h.global.2 p hp)⟩
  downstream := h.downstream.mono himp
  upstream := h.upstream.mono himp
  minDegree := h.minDegree.mono himp
  maxDegree := h.maxDegree.mono himp
  busy := h.busy.mono himp

theorem all_start {order : SearchOrder} {r : Regional} {g : Global} {most : Nat}
    {busyDelay : Duration} (hr : r.All P) (hg : g.All P) :
    (start order r g most busyDelay).All P :=
  ⟨hr, hg, Pool.all_empty, Pool.all_empty, Pool.all_empty, Pool.all_empty, Pool.all_empty⟩

/-- What it takes of a look for the next candidate that nothing unwanted comes of it: the
order is the one before it, all pools keep what is true of everyone held, and so does the
candidate, which is usable and from one of some kinds. -/
structure Sound (P : Peer → Prop) (usable : Peer → PoolKind → Bool) (kinds : List PoolKind)
    (s : SearchPools) (next : NextCandidate) : Prop where
  order : next.pools.order = s.order
  pools : next.pools.All P
  found : ∀ c, next.found = some c →
    c.source ∈ kinds ∧ usable c.peer c.source = true ∧ P c.peer

/-- A draw from one pool is sound if the pool keeps what is true of everyone held. -/
theorem sound_ofDraw {σ : Type} {G : σ → Prop} {s : SearchPools} (kind : PoolKind)
    (usable : Peer → PoolKind → Bool)
    {force : Force} {pause : σ → Words → Option Nat × Words} (put : σ → SearchPools)
    {draw : σ → Words → Option (Peer × σ) × Words} {n : Nat} {pool : σ} {ws : Words}
    (hdraw : ∀ q ws p rest, G q → (draw q ws).1 = some (p, rest) → P p ∧ G rest)
    (hput : ∀ q, G q → (put q).All P) (horder : ∀ q, (put q).order = s.order) (h : G pool) :
    Sound P usable [kind] s
      (ofDraw kind force pause put (drawUsable draw (usable · kind) n pool ws)) := by
  have hall := drawUsable_all hdraw (usable · kind) n ws h
  unfold ofDraw
  cases hfound : (drawUsable draw (usable · kind) n pool ws).found with
  | none => exact ⟨horder _, hput _ hall.1, by simp⟩
  | some p =>
      refine ⟨horder _, hput _ hall.1, ?_⟩
      intro c hc
      cases hc
      exact ⟨by simp, drawUsable_usable hfound, hall.2 p hfound⟩

/-- A draw from a reserve is sound if whoever the reserve holds may stand in its place. -/
theorem sound_ofReserve {s : SearchPools} (kind : PoolKind) (usable : Peer → PoolKind → Bool)
    (put : Reserve → SearchPools) {r : Reserve} {ws : Words}
    (hput : ∀ q, Reserve.All P q → (put q).All P) (horder : ∀ q, (put q).order = s.order)
    (h : r.All P) : Sound P usable [kind] s (ofReserve kind r put (usable · kind) ws) :=
  sound_ofDraw kind usable put Reserve.all_drawNewest hput horder h

theorem sound_nextFrom {s : SearchPools} (h : s.All P) (kind : PoolKind)
    (usable : Peer → PoolKind → Bool) (ws : Words) :
    Sound P usable [kind] s (s.nextFrom kind (usable · kind) ws) := by
  cases kind with
  | regional =>
      simp only [nextFrom, Regional.draw]
      exact sound_ofDraw _ usable (fun q => { s with regional := q }) Regional.all_drawNext
        (fun _ hq => { h with regional := hq }) (fun _ => rfl) h.regional
  | global =>
      simp only [nextFrom, Global.draw]
      exact sound_ofDraw _ usable (fun q => { s with global := q }) Global.all_drawNext
        (fun _ hq => { h with global := hq }) (fun _ => rfl) h.global
  | downstream =>
      exact sound_ofReserve _ usable (fun q => { s with downstream := q })
        (fun _ hq => { h with downstream := hq }) (fun _ => rfl) h.downstream
  | upstream =>
      exact sound_ofReserve _ usable (fun q => { s with upstream := q })
        (fun _ hq => { h with upstream := hq }) (fun _ => rfl) h.upstream
  | minDegree =>
      exact sound_ofReserve _ usable (fun q => { s with minDegree := q })
        (fun _ hq => { h with minDegree := hq }) (fun _ => rfl) h.minDegree
  | maxDegree =>
      exact sound_ofReserve _ usable (fun q => { s with maxDegree := q })
        (fun _ hq => { h with maxDegree := hq }) (fun _ => rfl) h.maxDegree
  | busy =>
      exact sound_ofReserve _ usable (fun q => { s with busy := q })
        (fun _ hq => { h with busy := hq }) (fun _ => rfl) h.busy

theorem sound_nextAmong (usable : Peer → PoolKind → Bool) {kinds : List PoolKind}
    {s : SearchPools} (ws : Words) (h : s.All P) :
    Sound P usable kinds s (nextAmong usable kinds s ws) := by
  induction kinds generalizing s ws with
  | nil => exact ⟨rfl, h, by simp [nextAmong]⟩
  | cons kind kinds ih =>
      have hhere := sound_nextFrom h kind usable ws
      simp only [nextAmong]
      split
      · refine ⟨hhere.order, hhere.pools, ?_⟩
        intro c hc
        obtain ⟨hkind, husable⟩ := hhere.found c hc
        exact ⟨by simp [List.mem_singleton.mp hkind], husable⟩
      · have hlater := ih (s.nextFrom kind (usable · kind) ws).words hhere.pools
        refine ⟨hlater.order.trans hhere.order, hlater.pools, ?_⟩
        intro c hc
        obtain ⟨hkind, husable⟩ := hlater.found c hc
        exact ⟨List.mem_cons_of_mem _ hkind, husable⟩

/-- The next candidate comes from a listed kind of pool, is usable for that kind, and was
held; and all that is left was held too. -/
theorem next_spec {s : SearchPools} (h : s.All P) (usable : Peer → PoolKind → Bool)
    (ws : Words) : Sound P usable s.order.kinds s (s.next usable ws) :=
  sound_nextAmong usable ws h

end SearchPools

end BrokerForest
