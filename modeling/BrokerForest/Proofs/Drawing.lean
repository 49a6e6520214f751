import BrokerForest.Proofs.Capacity
/-!
# Drawing: nobody is lost

Looking for a candidate empties pools.  Whoever leaves a pool was asked about, and either is
the candidate or was not usable; whoever was not asked about is still held.  And where no
candidate is found there is nobody left in any listed pool.

What refusals put into pools may push others out, the oldest first, as soon as the bound of
the pool is exceeded.

Main statements:

* `SearchPools.held`, `SearchPools.forceOf` — whom a kind of pool holds, and with what force
  they are asked;
* `Draw.Conserves`, `drawUsable_conserves` — a draw from anything that can be drawn from;
* `NextCandidate.Conserves`, **`SearchPools.next_conserves`** — a look for the next candidate;
* `SearchPools.spill` — whom an addition pushes out;
* `Refusal.offers`, `Search.pools_learn` — what a refusal adds, one peer after another.
-/

namespace BrokerForest

/-! ## Whom the pools of a search hold -/

namespace SearchPools

/-- Whom the pool of a kind holds. -/
def held (s : SearchPools) : PoolKind → List Peer
  | .regional => s.regional.upstream.entries ++ s.regional.siblingPool.entries
  | .global => s.global.hint.toList ++ s.global.pool.entries
  | .downstream => s.downstream.pool.entries
  | .upstream => s.upstream.pool.entries
  | .minDegree => s.minDegree.pool.entries
  | .maxDegree => s.maxDegree.pool.entries
  | .busy => s.busy.pool.entries

/-- With what force the peers from the pool of a kind are asked. -/
def forceOf (s : SearchPools) : PoolKind → Force
  | .regional | .global => .none
  | .downstream => s.downstream.force
  | .upstream => s.upstream.force
  | .minDegree => s.minDegree.force
  | .maxDegree => s.maxDegree.force
  | .busy => s.busy.force

end SearchPools

/-! ## Draws -/

/-- A draw loses nobody: all who were held were asked about or are still held, and all who were
asked about were not usable, but for the one that was found.  If none was, nobody is left. -/
structure Draw.Conserves {σ : Type} (held : σ → List Peer) (usable : Peer → Bool) (s : σ)
    (d : Draw σ) : Prop where
  perm : (held s).Perm (d.asked ++ held d.rest)
  found : ∀ p, d.found = some p → usable p = true ∧
    ∃ skipped, d.asked = skipped ++ [p] ∧ ∀ q ∈ skipped, usable q = false
  none : d.found = none → held d.rest = [] ∧ ∀ q ∈ d.asked, usable q = false

/-- Drawing until a peer is usable loses nobody if no draw does. -/
theorem drawUsable_conserves {σ : Type} {draw : σ → Words → Option (Peer × σ) × Words}
    {held : σ → List Peer}
    (hdraw : ∀ s ws p rest, (draw s ws).1 = some (p, rest) → (held s).Perm (p :: held rest))
    (hempty : ∀ s ws, (draw s ws).1 = none → held s = []) (usable : Peer → Bool) {n : Nat} {s : σ}
    (ws : Words) (hn : (held s).length ≤ n) :
    (drawUsable draw usable n s ws).Conserves held usable s := by
  induction n generalizing s ws with
  | zero =>
      have hnone : held s = [] := List.eq_nil_of_length_eq_zero (Nat.le_zero.1 hn)
      exact ⟨by simp [drawUsable], by simp [drawUsable], fun _ => ⟨hnone, by simp [drawUsable]⟩⟩
  | succ n ih =>
      simp only [drawUsable]
      split
      · rename_i ws' heq
        have hnone := hempty s ws (by rw [heq])
        exact ⟨by simp, by simp, fun _ => ⟨hnone, by simp⟩⟩
      · rename_i p rest ws' heq
        have hperm := hdraw s ws p rest (by rw [heq])
        have hlength : (held rest).length ≤ n := by
          have := hperm.length_eq
          simp only [List.length_cons] at this
          omega
        cases husable : usable p with
        | true =>
            rw [if_pos rfl]
            exact ⟨hperm, fun q hq => by cases hq; exact ⟨husable, [], rfl, by simp⟩, by simp⟩
        | false =>
            rw [if_neg Bool.false_ne_true]
            obtain ⟨hrest, hfound, hnone⟩ := ih ws' hlength
            refine ⟨hperm.trans (hrest.cons p), fun q hq => ?_, fun hq => ?_⟩
            · obtain ⟨hq, skipped, hasked, hskipped⟩ := hfound q hq
              exact ⟨hq, p :: skipped, by simp [hasked], by simpa [husable] using hskipped⟩
            · obtain ⟨hleft, hskipped⟩ := hnone hq
              exact ⟨hleft, by simpa [husable] using hskipped⟩

/-- Who is drawn from a pool leaves it. -/
theorem Pool.perm_of_draw {q rest : Pool} {p : Peer} (h : q.draw = some (p, rest)) :
    q.entries.Perm (p :: rest.entries) := by
  rw [entries_of_draw h]
  exact List.perm_append_singleton p rest.entries

/-- Only from an empty pool nobody can be drawn. -/
theorem Pool.entries_of_draw_none {q : Pool} (h : q.draw = none) : q.entries = [] := by
  simpa [draw] using h

namespace SearchPools

variable {s : SearchPools}

theorem conserves_reserve (r : Reserve) (usable : Peer → Bool) (ws : Words) :
    (r.draw usable ws).Conserves (fun r => r.pool.entries) usable r := by
  refine drawUsable_conserves (fun r ws p rest h => ?_) (fun r ws h => ?_) usable ws (Nat.le_refl _)
  · obtain ⟨left, hleft, rfl⟩ := Reserve.drawNewest_cases h
    exact Pool.perm_of_draw hleft
  · exact Pool.entries_of_draw_none (Option.map_eq_none_iff.1 h)

theorem conserves_global (g : Global) (usable : Peer → Bool) (ws : Words) :
    (g.draw usable ws).Conserves (fun g => g.hint.toList ++ g.pool.entries) usable g := by
  refine drawUsable_conserves (fun g ws p rest h => ?_) (fun g ws h => ?_) usable ws ?_
  · rcases Global.drawNext_cases h with ⟨hhint, rfl⟩ | ⟨hhint, left, hleft, rfl⟩
    · simp [hhint, Global.withoutHint]
    · simpa [hhint] using Pool.perm_of_draw hleft
  · unfold Global.drawNext at h
    cases hhint : g.hint with
    | some hint =>
        rw [hhint] at h
        cases h
    | none =>
        rw [hhint] at h
        simpa using Pool.entries_of_draw_none (Option.map_eq_none_iff.1 h)
  · cases hhint : g.hint <;> simp [Global.size, Pool.size, hhint]

theorem conserves_regional (r : Regional) (usable : Peer → Bool) (ws : Words) :
    (r.draw usable ws).Conserves (fun r => r.upstream.entries ++ r.siblingPool.entries) usable
      r := by
  refine drawUsable_conserves (fun r ws p rest h => ?_) (fun r ws h => ?_) usable ws
    (by simp [Regional.size, Pool.size])
  · rcases Regional.drawNext_cases h with ⟨left, hleft, rfl⟩ | ⟨left, hleft, rfl⟩
    · exact (Pool.perm_of_draw hleft).append_right _
    · exact ((Pool.perm_of_draw hleft).append_left _).trans List.perm_middle
  · unfold Regional.drawNext at h
    split at h
    · rename_i hnone
      have hupstream := Pool.entries_of_draw_none (Option.map_eq_none_iff.1 h)
      simp only [Pool.isEmpty, List.isEmpty_iff] at hnone
      simp [hupstream, hnone]
    · rename_i hsome
      simp only [Pool.isEmpty, List.isEmpty_iff] at hsome
      split at h
      · exact absurd (Pool.entries_of_draw_none (Option.map_eq_none_iff.1 h)) hsome
      · rename_i hsome'
        simp only [Pool.isEmpty, List.isEmpty_iff] at hsome'
        dsimp only at h
        split at h
        · exact absurd (Pool.entries_of_draw_none (Option.map_eq_none_iff.1 h)) hsome
        · exact absurd (Pool.entries_of_draw_none (Option.map_eq_none_iff.1 h)) hsome'

end SearchPools

/-- A look for the next candidate loses nobody: of each kind all who were held were asked about
for it or are still held, and all who were asked about were not usable, but for the candidate,
which was the last and is asked as the peers of its pool are.  If there is no candidate, nobody is
left in any pool that was looked into. -/
structure NextCandidate.Conserves (usable : Peer → PoolKind → Bool) (kinds : List PoolKind)
    (s : SearchPools) (next : NextCandidate) : Prop where
  order : next.pools.order = s.order
  force : next.pools.forceOf = s.forceOf
  perm : ∀ kind, (s.held kind).Perm
    ((next.asked.filter fun a => a.2 = kind).map Prod.fst ++ next.pools.held kind)
  found : ∀ c, next.found = some c → c.source ∈ kinds ∧ c.force = s.forceOf c.source ∧
    usable c.peer c.source = true ∧ ∃ skipped,
      next.asked = skipped ++ [(c.peer, c.source)] ∧ ∀ a ∈ skipped, usable a.1 a.2 = false
  none : next.found = none →
    (∀ kind ∈ kinds, next.pools.held kind = []) ∧ ∀ a ∈ next.asked, usable a.1 a.2 = false

namespace SearchPools

variable {s : SearchPools} {usable : Peer → PoolKind → Bool} {kinds : List PoolKind}

/-- A draw from one pool that loses nobody is a look that loses nobody, if what is left stands in
the place of the pool and nothing else changes. -/
theorem conserves_ofDraw {σ : Type} {held : σ → List Peer} {pool : σ} {d : Draw σ}
    (kind : PoolKind) {force : Force} (pause : σ → Words → Option Nat × Words)
    (put : σ → SearchPools) (h : d.Conserves held (usable · kind) pool)
    (hheld : s.held kind = held pool) (hput : (put d.rest).held kind = held d.rest)
    (hother : ∀ other, other ≠ kind → (put d.rest).held other = s.held other)
    (hforce : force = s.forceOf kind) (hforceOf : (put d.rest).forceOf = s.forceOf)
    (horder : (put d.rest).order = s.order) :
    (ofDraw kind force pause put d).Conserves usable [kind] s := by
  have hasked : (ofDraw kind force pause put d).asked = d.asked.map fun p => (p, kind) := by
    unfold ofDraw
    cases d.found <;> rfl
  have hpools := pools_ofDraw kind force pause put d
  refine ⟨by rw [hpools, horder], by rw [hpools, hforceOf], fun other => ?_, fun c hc => ?_,
    fun hnone => ?_⟩
  · rw [hasked, hpools]
    by_cases hkind : other = kind
    · subst hkind
      rw [hheld, hput]
      simpa [List.filter_map, Function.comp_def] using h.perm
    · rw [hother other hkind]
      simp [List.filter_map, Function.comp_def, Ne.symm hkind]
  · unfold ofDraw at hc
    cases hfound : d.found with
    | none =>
        rw [hfound] at hc
        cases hc
    | some p =>
        rw [hfound] at hc
        cases hc
        obtain ⟨husable, skipped, hdrawn, hskipped⟩ := h.found p hfound
        refine ⟨by simp, hforce, husable, skipped.map fun p => (p, kind), ?_,
          by simpa using hskipped⟩
        rw [hasked, hdrawn, List.map_append]
        rfl
  · have hfound : d.found = none := by
      unfold ofDraw at hnone
      cases hfound : d.found with
      | none => rfl
      | some p =>
          rw [hfound] at hnone
          cases hnone
    obtain ⟨hleft, hskipped⟩ := h.none hfound
    refine ⟨?_, by simpa [hasked] using hskipped⟩
    simpa [hpools, hput] using hleft

/-- A draw from a reserve leaves its force. -/
theorem force_draw (r : Reserve) (usable : Peer → Bool) (ws : Words) :
    (r.draw usable ws).rest.force = r.force := by
  refine drawUsable_keeps (G := fun q : Reserve => q.force = r.force)
    (fun q ws p rest hq hdraw => ?_) usable r.size ws rfl
  obtain ⟨⟨p, rest⟩, -, heq⟩ := Option.map_eq_some_iff.1 hdraw
  cases heq
  exact hq

/-- A draw from a reserve is a look that loses nobody, if what is left stands in its place. -/
theorem conserves_ofReserve (kind : PoolKind) {r : Reserve} (put : Reserve → SearchPools)
    (ws : Words) (hheld : s.held kind = r.pool.entries)
    (hput : ∀ q, (put q).held kind = q.pool.entries)
    (hother : ∀ q other, other ≠ kind → (put q).held other = s.held other)
    (hforce : r.force = s.forceOf kind)
    (hforceOf : ∀ q, q.force = r.force → (put q).forceOf = s.forceOf)
    (horder : ∀ q, (put q).order = s.order) :
    (ofReserve kind r put (usable · kind) ws).Conserves usable [kind] s :=
  conserves_ofDraw kind Reserve.pause put (conserves_reserve r (usable · kind) ws) hheld
    (hput _) (hother _) hforce (hforceOf _ (force_draw r _ ws)) (horder _)

/-- A look into the pool of one kind loses nobody. -/
theorem nextFrom_conserves (s : SearchPools) (usable : Peer → PoolKind → Bool) (kind : PoolKind)
    (ws : Words) :
    (s.nextFrom kind (usable · kind) ws).Conserves usable [kind] s := by
  cases kind with
  | regional =>
      refine conserves_ofDraw _ noPause (fun q => { s with regional := q })
        (conserves_regional s.regional (usable · .regional) ws) rfl rfl ?_ rfl ?_ rfl
      · intro other h
        cases other <;> first | rfl | exact absurd rfl h
      · funext other
        cases other <;> rfl
  | global =>
      refine conserves_ofDraw _ noPause (fun q => { s with global := q })
        (conserves_global s.global (usable · .global) ws) rfl rfl ?_ rfl ?_ rfl
      · intro other h
        cases other <;> first | rfl | exact absurd rfl h
      · funext other
        cases other <;> rfl
  | downstream | upstream | minDegree | maxDegree | busy =>
      refine conserves_ofReserve _ _ ws rfl (fun _ => rfl) (fun q other h => ?_) rfl
        (fun q hq => funext fun other => ?_) fun _ => rfl
      · cases other <;> first | rfl | exact absurd rfl h
      · cases other <;> first | rfl | exact hq

/-- A look into the pools of several kinds, one after another, loses nobody. -/
theorem nextAmong_conserves (kinds : List PoolKind) (s : SearchPools) (ws : Words) :
    (nextAmong usable kinds s ws).Conserves usable kinds s := by
  induction kinds generalizing s ws with
  | nil => exact ⟨rfl, rfl, by simp [nextAmong], by simp [nextAmong], by simp [nextAmong]⟩
  | cons kind kinds ih =>
      have hhere := s.nextFrom_conserves usable kind ws
      simp only [nextAmong]
      split
      · rename_i c hc
        refine ⟨hhere.order, hhere.force, hhere.perm, fun c hc => ?_, fun hnone => ?_⟩
        · obtain ⟨hkind, hfound⟩ := hhere.found c hc
          exact ⟨by simp [List.mem_singleton.1 hkind], hfound⟩
        · rw [hc] at hnone
          cases hnone
      · rename_i hnone
        obtain ⟨hempty, hskipped⟩ := hhere.none hnone
        have hlater := ih (s.nextFrom kind (usable · kind) ws).pools
          (s.nextFrom kind (usable · kind) ws).words
        refine ⟨hlater.order.trans hhere.order, hlater.force.trans hhere.force, fun other => ?_,
          fun c hc => ?_, fun hlast => ?_⟩
        · rw [List.filter_append, List.map_append, List.append_assoc]
          exact (hhere.perm other).trans ((hlater.perm other).append_left _)
        · obtain ⟨hkind, hforce, husable, skipped, hasked, hskipped'⟩ := hlater.found c hc
          refine ⟨List.mem_cons_of_mem _ hkind, hforce.trans (congrFun hhere.force _), husable,
            (s.nextFrom kind (usable · kind) ws).asked ++ skipped, ?_, fun a ha => ?_⟩
          · rw [hasked, List.append_assoc]
          · exact (List.mem_append.1 ha).elim (hskipped a) (hskipped' a)
        · obtain ⟨hempty', hskipped'⟩ := hlater.none hlast
          refine ⟨fun other hother => ?_, fun a ha => ?_⟩
          · rcases List.mem_cons.1 hother with rfl | hother
            · -- What is empty after the first look is empty after all others.
              have hperm := hlater.perm other
              rw [hempty other (by simp)] at hperm
              exact (List.append_eq_nil_iff.1 (List.nil_perm.1 hperm)).2
            · exact hempty' other hother
          · exact (List.mem_append.1 ha).elim (hskipped a) (hskipped' a)

/-- **Looking for the next candidate loses nobody.** -/
theorem next_conserves (s : SearchPools) (usable : Peer → PoolKind → Bool) (ws : Words) :
    (s.next usable ws).Conserves usable s.order.kinds s :=
  nextAmong_conserves s.order.kinds s ws

end SearchPools

namespace NextCandidate.Conserves

variable {usable : Peer → PoolKind → Bool} {kinds : List PoolKind} {s : SearchPools}
  {next : NextCandidate} {kind : PoolKind} {p : Peer}

/-- Who was held is still held, or is the candidate, or was not usable. -/
theorem held_or (h : next.Conserves usable kinds s) (hp : p ∈ s.held kind) :
    p ∈ next.pools.held kind ∨
      (∃ c, next.found = some c ∧ c.peer = p ∧ c.source = kind) ∨ usable p kind = false := by
  rcases List.mem_append.1 ((h.perm kind).subset hp) with hasked | hheld
  · right
    have hmem : (p, kind) ∈ next.asked := by simpa using hasked
    cases hfound : next.found with
    | none => exact Or.inr ((h.none hfound).2 _ hmem)
    | some c =>
        obtain ⟨-, -, -, skipped, hall, hskipped⟩ := h.found c hfound
        rw [hall] at hmem
        rcases List.mem_append.1 hmem with hmem | hmem
        · exact Or.inr (hskipped _ hmem)
        · obtain ⟨rfl, rfl⟩ := Prod.mk.inj (List.mem_singleton.1 hmem)
          exact Or.inl ⟨c, rfl, rfl, rfl⟩
  · exact Or.inl hheld

/-- Where there is no candidate, nobody who was held where it was looked for was usable. -/
theorem unusable (h : next.Conserves usable kinds s) (hnone : next.found = .none)
    (hkind : kind ∈ kinds) (hp : p ∈ s.held kind) : usable p kind = false := by
  rcases h.held_or hp with hleft | ⟨c, hc, -⟩ | hunusable
  · rw [(h.none hnone).1 kind hkind] at hleft
    cases hleft
  · rw [hnone] at hc
    cases hc
  · exact hunusable

/-- Who is still held was held. -/
theorem held_of_left (h : next.Conserves usable kinds s) (hp : p ∈ next.pools.held kind) :
    p ∈ s.held kind :=
  (h.perm kind).symm.subset (List.mem_append_right _ hp)

/-- The candidate was held. -/
theorem held_of_found (h : next.Conserves usable kinds s) {c : Candidate}
    (hc : next.found = some c) : c.peer ∈ s.held c.source := by
  obtain ⟨-, -, -, skipped, hasked, -⟩ := h.found c hc
  refine (h.perm c.source).symm.subset (List.mem_append_left _ ?_)
  simp [hasked]

end NextCandidate.Conserves

/-! ## Additions -/

namespace Pool

variable {q : Pool} {bound : Option Nat} {p r : Peer}

/-- Whom the addition of a peer pushes out: of all that would be held then the oldest, as many as
the bound is exceeded by. -/
def spill (q : Pool) (bound : Option Nat) (p : Peer) : List Peer :=
  if q.contains p then []
  else
    match bound with
    | some most => (q.entries ++ [p]).take (q.size + 1 - most)
    | none => []

/-- Those whom an addition pushes out and those whom it keeps are all who were held, and the one
who is added. -/
theorem spill_append_entries (h : q.contains p = false) (bound : Option Nat) :
    q.spill bound p ++ (q.add bound p).entries = q.entries ++ [p] := by
  rw [entries_add h]
  cases bound with
  | none => simp [spill, h, keepNewest]
  | some most => simp [spill, h, keepNewest, size, List.take_append_drop]

/-- Whoever is not pushed out is still held. -/
theorem mem_add_or_spill (hr : r ∈ q.entries) :
    r ∈ (q.add bound p).entries ∨ r ∈ q.spill bound p := by
  cases hheld : q.contains p with
  | true => exact Or.inl (by rwa [add, if_pos hheld])
  | false =>
      have hall : r ∈ q.spill bound p ++ (q.add bound p).entries := by
        rw [spill_append_entries hheld]
        exact List.mem_append_left _ hr
      exact (List.mem_append.1 hall).symm

/-- Whoever is held after an addition was held before it, or was added. -/
theorem mem_of_add (hr : r ∈ (q.add bound p).entries) : r ∈ q.entries ∨ r = p := by
  cases hheld : q.contains p with
  | true =>
      rw [add, if_pos hheld] at hr
      exact Or.inl hr
  | false =>
      have hall : r ∈ q.entries ++ [p] := by
        rw [← spill_append_entries hheld bound]
        exact List.mem_append_right _ hr
      simpa using hall

end Pool

/-- What a refusal adds: whom to which kind of pools, in order. -/
def Refusal.offers (refusal : Refusal) (self peer : Peer) : List (PoolKind × Peer) :=
  match refusal with
  | .busy => [(.busy, peer)]
  | .maxDegree siblings => (.maxDegree, peer) :: siblings.map (.downstream, ·)
  | .minDegree upstream => (.minDegree, peer) :: upstream.map (.upstream, ·)
  | .depthOrColor none => []
  | .depthOrColor (some hint) => if hint.same self then [] else [(.global, hint)]

namespace SearchPools

variable {s : SearchPools} {kind other : PoolKind} {p r : Peer}

/-- The pools after a peer is added to one of them.  Nobody is added to the neighborhood. -/
def put (s : SearchPools) (kind : PoolKind) (p : Peer) : SearchPools :=
  match kind with
  | .regional => s
  | .global => { s with global := s.global.add p }
  | .downstream => { s with downstream := s.downstream.add p }
  | .upstream => { s with upstream := s.upstream.add p }
  | .minDegree => { s with minDegree := s.minDegree.add p }
  | .maxDegree => { s with maxDegree := s.maxDegree.add p }
  | .busy => { s with busy := s.busy.add p }

/-- The pools after peers are added one by one. -/
def putAll (s : SearchPools) (offers : List (PoolKind × Peer)) : SearchPools :=
  offers.foldl (fun s offer => s.put offer.1 offer.2) s

/-- Whom the addition of a peer pushes out of the pool of a kind. -/
def spill (s : SearchPools) (kind : PoolKind) (p : Peer) : List Peer :=
  match kind with
  | .regional => []
  | .global => s.global.pool.spill (some s.global.most) p
  | .downstream => s.downstream.pool.spill s.downstream.bound p
  | .upstream => s.upstream.pool.spill s.upstream.bound p
  | .minDegree => s.minDegree.pool.spill s.minDegree.bound p
  | .maxDegree => s.maxDegree.pool.spill s.maxDegree.bound p
  | .busy => s.busy.pool.spill s.busy.bound p

theorem forceOf_put : (s.put kind p).forceOf = s.forceOf := by
  funext other
  cases kind <;> cases other <;> rfl

/-- An addition to the pool of one kind leaves those of all others. -/
theorem held_put_of_ne (h : other ≠ kind) : (s.put kind p).held other = s.held other := by
  cases kind <;> cases other <;> first | rfl | exact absurd rfl h

/-- Whoever is held by the pool of a kind is still held after an addition, or is pushed out. -/
theorem held_put_or_spill (kind : PoolKind) (p : Peer) (hr : r ∈ s.held other) :
    r ∈ (s.put kind p).held other ∨ other = kind ∧ r ∈ s.spill kind p := by
  by_cases hkind : other = kind
  · subst hkind
    cases other with
    | regional => exact Or.inl hr
    | global =>
        rcases List.mem_append.1 hr with hhint | hpool
        · exact Or.inl (List.mem_append_left _ hhint)
        · exact (Pool.mem_add_or_spill hpool).imp (List.mem_append_right _) fun h => ⟨rfl, h⟩
    | downstream | upstream | minDegree | maxDegree | busy =>
        exact (Pool.mem_add_or_spill hr).imp id fun h => ⟨rfl, h⟩
  · exact Or.inl (by rwa [held_put_of_ne hkind])

/-- Whoever is held after an addition was held before it, or was added. -/
theorem held_of_put (hr : r ∈ (s.put kind p).held other) :
    r ∈ s.held other ∨ other = kind ∧ r = p := by
  by_cases hkind : other = kind
  · subst hkind
    cases other with
    | regional => exact Or.inl hr
    | global =>
        rcases List.mem_append.1 hr with hhint | hpool
        · exact Or.inl (List.mem_append_left _ hhint)
        · exact (Pool.mem_of_add hpool).imp (List.mem_append_right _) fun h => ⟨rfl, h⟩
    | downstream | upstream | minDegree | maxDegree | busy =>
        exact (Pool.mem_of_add hr).imp id fun h => ⟨rfl, h⟩
  · exact Or.inl (by rwa [held_put_of_ne hkind] at hr)

section

variable {offers : List (PoolKind × Peer)}

theorem putAll_append (later : List (PoolKind × Peer)) :
    s.putAll (offers ++ later) = (s.putAll offers).putAll later :=
  List.foldl_append

theorem forceOf_putAll : (s.putAll offers).forceOf = s.forceOf := by
  induction offers generalizing s with
  | nil => rfl
  | cons offer offers ih => exact ih.trans forceOf_put

/-- Whoever is held is still held after several additions, or one of them pushes it out. -/
theorem held_putAll_or_spill (offers : List (PoolKind × Peer)) (hr : r ∈ s.held other) :
    r ∈ (s.putAll offers).held other ∨ ∃ front p back,
      offers = front ++ (other, p) :: back ∧ r ∈ (s.putAll front).spill other p := by
  induction offers generalizing s with
  | nil => exact Or.inl hr
  | cons offer offers ih =>
      rcases s.held_put_or_spill offer.1 offer.2 hr with hheld | ⟨rfl, hspilled⟩
      · rcases ih hheld with hheld | ⟨front, p, back, rfl, hspilled⟩
        · exact Or.inl hheld
        · exact Or.inr ⟨offer :: front, p, back, rfl, hspilled⟩
      · exact Or.inr ⟨[], offer.2, offers, rfl, hspilled⟩

/-- Whoever is held after several additions was held before them, or was added. -/
theorem held_of_putAll (hr : r ∈ (s.putAll offers).held other) :
    r ∈ s.held other ∨ (other, r) ∈ offers := by
  induction offers generalizing s with
  | nil => exact Or.inl hr
  | cons offer offers ih =>
      rcases ih hr with hheld | hoffered
      · rcases held_of_put hheld with hheld | ⟨rfl, rfl⟩
        · exact Or.inl hheld
        · exact Or.inr (by simp)
      · exact Or.inr (List.mem_cons_of_mem _ hoffered)

end

theorem putAll_downstream (s : SearchPools) (peers : List Peer) :
    s.putAll (peers.map (.downstream, ·)) =
      { s with downstream := s.downstream.addAll peers } := by
  induction peers generalizing s with
  | nil => rfl
  | cons p peers ih => exact ih _

theorem putAll_upstream (s : SearchPools) (peers : List Peer) :
    s.putAll (peers.map (.upstream, ·)) = { s with upstream := s.upstream.addAll peers } := by
  induction peers generalizing s with
  | nil => rfl
  | cons p peers ih => exact ih _

end SearchPools

/-- **What a search learns from a refusal are additions, one after another.** -/
theorem Search.pools_learn (search : Search) (self peer : Peer) (refusal : Refusal) :
    (search.learn self peer refusal).pools =
      search.pools.putAll (refusal.offers self peer) := by
  cases refusal with
  | busy => rfl
  | maxDegree siblings =>
      exact (SearchPools.putAll_downstream (search.pools.put .maxDegree peer) siblings).symm
  | minDegree upstream =>
      exact (SearchPools.putAll_upstream (search.pools.put .minDegree peer) upstream).symm
  | depthOrColor hint =>
      cases hint with
      | none => rfl
      | some hint =>
          simp only [learn, Refusal.offers]
          split <;> rfl

end BrokerForest
