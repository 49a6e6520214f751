import BrokerForest.Proofs.Drawing
/-!
# Precedence: whose turn it is among the pools

A search takes its next candidate from the first kind of pool in its order that holds anybody
usable.  Until then it empties one pool after another; in the pool with the candidate it stops at
the candidate, and it does not look into any other.  From each pile that a pool consists of the
newest are taken first, so that what is left of it is its older part.

That nobody is lost on the way is what Drawing has; this file adds where a look goes and what it
leaves alone.

Main statements:

* `SearchPools.piles` — the piles that the pool of a kind consists of;
* `SearchPools.Spares` — the pool of a kind is left alone;
* `SearchPools.piles_nextFrom`, `SearchPools.spares_nextFrom` — a look into one pool;
* `SearchPools.nextAmong_of_found`, `SearchPools.nextAmong_of_none` — a look into one after
  another;
* **`SearchPools.next_by_precedence`** — the next candidate, and what becomes of all pools.
-/

namespace BrokerForest

/-! ## Stacks -/

/-- Some piles are left of others: of each its older part. -/
def LeftOf (rest piles : List (List Peer)) : Prop := List.Forall₂ (· <+: ·) rest piles

theorem LeftOf.refl (piles : List (List Peer)) : LeftOf piles piles := by
  induction piles with
  | nil => exact .nil
  | cons pile piles ih => exact .cons (List.prefix_refl pile) ih

theorem LeftOf.trans {last rest piles : List (List Peer)} (h : LeftOf last rest)
    (hrest : LeftOf rest piles) : LeftOf last piles := by
  induction hrest generalizing last with
  | nil => exact h
  | cons hfirst _ ih =>
      cases h with
      | cons hlast hlater => exact .cons (hlast.trans hfirst) (ih hlater)

/-- Who is drawn from a pool leaves its older part. -/
theorem Pool.prefix_of_draw {q rest : Pool} {p : Peer} (h : q.draw = some (p, rest)) :
    rest.entries <+: q.entries := ⟨[p], (entries_of_draw h).symm⟩

/-- The piles of a regional pool: ancestors, the farthest first, and siblings, the oldest
first. -/
def Regional.piles (r : Regional) : List (List Peer) :=
  [r.upstream.entries, r.siblingPool.entries]

/-- The piles of a global pool: the hint stands alone, beside the candidates, the oldest
first. -/
def Global.piles (g : Global) : List (List Peer) := [g.hint.toList, g.pool.entries]

/-- The pile of a reserve, the oldest first. -/
def Reserve.piles (r : Reserve) : List (List Peer) := [r.pool.entries]

theorem Regional.piles_drawNext {r rest : Regional} {ws : Words} {p : Peer}
    (h : (r.drawNext ws).1 = some (p, rest)) : LeftOf rest.piles r.piles := by
  rcases drawNext_cases h with ⟨left, hleft, rfl⟩ | ⟨left, hleft, rfl⟩
  · exact .cons (Pool.prefix_of_draw hleft) (LeftOf.refl _)
  · exact .cons (List.prefix_refl _) (.cons (Pool.prefix_of_draw hleft) .nil)

theorem Global.piles_drawNext {g rest : Global} {ws : Words} {p : Peer}
    (h : (g.drawNext ws).1 = some (p, rest)) : LeftOf rest.piles g.piles := by
  rcases drawNext_cases h with ⟨-, rfl⟩ | ⟨-, left, hleft, rfl⟩
  · exact .cons List.nil_prefix (LeftOf.refl _)
  · exact .cons (List.prefix_refl _) (.cons (Pool.prefix_of_draw hleft) .nil)

theorem Reserve.piles_drawNewest {r rest : Reserve} {ws : Words} {p : Peer}
    (h : (r.drawNewest ws).1 = some (p, rest)) : LeftOf rest.piles r.piles := by
  obtain ⟨left, hleft, rfl⟩ := drawNewest_cases h
  exact .cons (Pool.prefix_of_draw hleft) .nil

/-- However many are drawn, of each pile its older part is left. -/
theorem piles_drawUsable {σ : Type} {draw : σ → Words → Option (Peer × σ) × Words}
    {piles : σ → List (List Peer)}
    (hdraw : ∀ s ws p rest, (draw s ws).1 = some (p, rest) → LeftOf (piles rest) (piles s))
    (usable : Peer → Bool) (n : Nat) (s : σ) (ws : Words) :
    LeftOf (piles (drawUsable draw usable n s ws).rest) (piles s) :=
  drawUsable_keeps (G := fun q => LeftOf (piles q) (piles s))
    (fun q ws p rest hq hrest => (hdraw q ws p rest hrest).trans hq) usable n ws (.refl _)

namespace SearchPools

/-- The piles that the pool of a kind consists of. -/
def piles (s : SearchPools) : PoolKind → List (List Peer)
  | .regional => s.regional.piles
  | .global => s.global.piles
  | .downstream => s.downstream.piles
  | .upstream => s.upstream.piles
  | .minDegree => s.minDegree.piles
  | .maxDegree => s.maxDegree.piles
  | .busy => s.busy.piles

/-- The pool of a kind is the same afterwards. -/
def Spares (s t : SearchPools) : PoolKind → Prop
  | .regional => t.regional = s.regional
  | .global => t.global = s.global
  | .downstream => t.downstream = s.downstream
  | .upstream => t.upstream = s.upstream
  | .minDegree => t.minDegree = s.minDegree
  | .maxDegree => t.maxDegree = s.maxDegree
  | .busy => t.busy = s.busy

variable {s t u : SearchPools} {kind : PoolKind} {usable : Peer → PoolKind → Bool} {ws : Words}

/-- Whoever a pool holds stands in one of its piles. -/
theorem flatten_piles (s : SearchPools) (kind : PoolKind) :
    (s.piles kind).flatten = s.held kind := by
  cases kind <;> simp [piles, held, Regional.piles, Global.piles, Reserve.piles]

theorem Spares.refl (s : SearchPools) (kind : PoolKind) : s.Spares s kind := by
  cases kind <;> rfl

theorem Spares.trans (hst : s.Spares t kind) (htu : t.Spares u kind) : s.Spares u kind := by
  cases kind <;> exact Eq.trans htu hst

/-- A pool that is left alone consists of the same piles. -/
theorem Spares.piles (h : s.Spares t kind) : t.piles kind = s.piles kind := by
  cases kind with
  | regional => exact congrArg Regional.piles h
  | global => exact congrArg Global.piles h
  | downstream | upstream | minDegree | maxDegree | busy => exact congrArg Reserve.piles h

/-- And it holds the same peers. -/
theorem Spares.held (h : s.Spares t kind) : t.held kind = s.held kind := by
  rw [← flatten_piles, ← flatten_piles, h.piles]

/-! ## A look into one pool -/

/-- A look into the pool of a kind leaves the pools of all other kinds alone. -/
theorem spares_nextFrom (s : SearchPools) (usable : Peer → Bool) (ws : Words) {other : PoolKind}
    (h : other ≠ kind) : s.Spares (s.nextFrom kind usable ws).pools other := by
  cases kind with
  | regional | global =>
      rw [nextFrom, pools_ofDraw]
      cases other <;> first | rfl | exact absurd rfl h
  | downstream | upstream | minDegree | maxDegree | busy =>
      rw [nextFrom, ofReserve, pools_ofDraw]
      cases other <;> first | rfl | exact absurd rfl h

/-- Of each pile of the pool that it looks into, and of all others, it leaves the older part. -/
theorem piles_nextFrom (s : SearchPools) (kind : PoolKind) (usable : Peer → Bool) (ws : Words)
    (other : PoolKind) :
    LeftOf ((s.nextFrom kind usable ws).pools.piles other) (s.piles other) := by
  by_cases h : other = kind
  · subst h
    have hreserve : ∀ r : Reserve, LeftOf (r.draw usable ws).rest.piles r.piles := fun r =>
      piles_drawUsable (fun _ _ _ _ => Reserve.piles_drawNewest) usable r.size r ws
    cases other with
    | regional =>
        rw [nextFrom, pools_ofDraw]
        exact piles_drawUsable (fun _ _ _ _ => Regional.piles_drawNext) usable _ _ ws
    | global =>
        rw [nextFrom, pools_ofDraw]
        exact piles_drawUsable (fun _ _ _ _ => Global.piles_drawNext) usable _ _ ws
    | downstream | upstream | minDegree | maxDegree | busy =>
        rw [nextFrom, ofReserve, pools_ofDraw]
        exact hreserve _
  · rw [(s.spares_nextFrom usable ws h).piles]
    exact .refl _

/-! ## One pool after another -/

variable {kinds : List PoolKind}

/-- Of each pile a look into several pools leaves the older part. -/
theorem piles_nextAmong (usable : Peer → PoolKind → Bool) (kinds : List PoolKind)
    (s : SearchPools) (ws : Words) (other : PoolKind) :
    LeftOf ((nextAmong usable kinds s ws).pools.piles other) (s.piles other) := by
  induction kinds generalizing s ws with
  | nil => exact .refl _
  | cons kind kinds ih =>
      have hhere := s.piles_nextFrom kind (usable · kind) ws other
      simp only [nextAmong]
      split
      · exact hhere
      · exact (ih _ _).trans hhere

/-- Where no candidate is found, all pools that were not to be looked into are left alone. -/
theorem nextAmong_of_none (h : (nextAmong usable kinds s ws).found = none) {other : PoolKind}
    (hother : other ∉ kinds) : s.Spares (nextAmong usable kinds s ws).pools other := by
  induction kinds generalizing s ws with
  | nil => exact .refl s other
  | cons kind kinds ih =>
      rw [List.mem_cons, not_or] at hother
      simp only [nextAmong] at h ⊢
      cases hfound : (s.nextFrom kind (usable · kind) ws).found with
      | some c =>
          simp only [hfound, reduceCtorEq] at h
      | none =>
          simp only [hfound] at h ⊢
          exact (s.spares_nextFrom _ ws hother.1).trans (ih h hother.2)

/-- **Where a candidate is found, the pools before that of the candidate held nobody usable and
hold nobody any more, and those that are neither of them nor the candidate's are left alone.** -/
theorem nextAmong_of_found {c : Candidate} (h : (nextAmong usable kinds s ws).found = some c) :
    ∃ before after, kinds = before ++ c.source :: after ∧
      (∀ kind ∈ before, (∀ p ∈ s.held kind, usable p kind = false) ∧
        (nextAmong usable kinds s ws).pools.held kind = []) ∧
      ∀ kind, kind ∉ before → kind ≠ c.source →
        s.Spares (nextAmong usable kinds s ws).pools kind := by
  induction kinds generalizing s ws with
  | nil => cases h
  | cons kind kinds ih =>
      have hhere := s.nextFrom_conserves usable kind ws
      simp only [nextAmong] at h ⊢
      cases hfound : (s.nextFrom kind (usable · kind) ws).found with
      | some d =>
          simp only [hfound] at h ⊢
          cases h
          obtain ⟨hsource, -⟩ := hhere.found c hfound
          rw [List.mem_singleton] at hsource
          refine ⟨[], kinds, by rw [hsource, List.nil_append], by simp, fun other _ hother => ?_⟩
          exact s.spares_nextFrom _ ws (hsource ▸ hother)
      | none =>
          simp only [hfound] at h ⊢
          have hlater : (nextAmong usable kinds _ _).Conserves usable kinds _ :=
            nextAmong_conserves kinds (s.nextFrom kind (usable · kind) ws).pools
              (s.nextFrom kind (usable · kind) ws).words
          obtain ⟨before, after, hkinds, hbefore, hothers⟩ := ih h
          have hunusable : ∀ p ∈ s.held kind, usable p kind = false := fun p hp =>
            hhere.unusable hfound (List.mem_singleton_self kind) hp
          refine ⟨kind :: before, after, by rw [hkinds, List.cons_append], fun other hother => ?_,
            fun other hother hsource => ?_⟩
          · by_cases hkind : other = kind
            · subst hkind
              refine ⟨hunusable, List.eq_nil_iff_forall_not_mem.2 fun p hp => ?_⟩
              have hleft := hlater.held_of_left hp
              rw [(hhere.none hfound).1 other (List.mem_singleton_self other)] at hleft
              cases hleft
            · have hmem : other ∈ before := (List.mem_cons.1 hother).resolve_left hkind
              obtain ⟨hno, hempty⟩ := hbefore other hmem
              rw [(s.spares_nextFrom _ ws hkind).held] at hno
              exact ⟨hno, hempty⟩
          · rw [List.mem_cons, not_or] at hother
            exact (s.spares_nextFrom _ ws hother.1).trans (hothers other hother.2 hsource)

/-- **The next candidate comes from the first kind of pool that holds anybody usable, and nobody
else is lost.**  It is asked as the peers of this pool are; and there is none exactly if no pool in
the order holds anybody usable.  Then the pools before that of the candidate are empty, or all in
the order if there is none, and those after it or not in the order are as they were.  Whoever has
left a pool was asked about for it, once for each place; and all who were asked about were not
usable, but for the candidate, who was the last.  What is left of each pile is its older part. -/
theorem next_by_precedence (s : SearchPools) (usable : Peer → PoolKind → Bool) (ws : Words) :
    (∀ c, (s.next usable ws).found = some c →
      ∃ before after, s.order.kinds = before ++ c.source :: after ∧
        c.peer ∈ s.held c.source ∧ usable c.peer c.source = true ∧
        c.force = s.forceOf c.source ∧
        (∀ kind ∈ before, (∀ p ∈ s.held kind, usable p kind = false) ∧
          (s.next usable ws).pools.held kind = []) ∧
        ∀ kind, kind ∈ after ∨ kind ∉ s.order.kinds → s.Spares (s.next usable ws).pools kind) ∧
    ((s.next usable ws).found = none ↔
      ∀ kind ∈ s.order.kinds, ∀ p ∈ s.held kind, usable p kind = false) ∧
    ((s.next usable ws).found = none →
      (∀ kind ∈ s.order.kinds, (s.next usable ws).pools.held kind = []) ∧
        ∀ kind ∉ s.order.kinds, s.Spares (s.next usable ws).pools kind) ∧
    (∃ skipped, (∀ a ∈ skipped, usable a.1 a.2 = false) ∧ (s.next usable ws).asked = skipped ++
      ((s.next usable ws).found.map fun c => (c.peer, c.source)).toList) ∧
    ∀ kind,
      (s.held kind).Perm (((s.next usable ws).asked.filter fun a => a.2 = kind).map Prod.fst ++
        (s.next usable ws).pools.held kind) ∧
      LeftOf ((s.next usable ws).pools.piles kind) (s.piles kind) := by
  have hconserves := s.next_conserves usable ws
  refine ⟨fun c hc => ?_, ⟨fun hnone kind hkind p hp => ?_, fun hno => ?_⟩, fun hnone => ?_, ?_,
    fun kind => ⟨hconserves.perm kind, piles_nextAmong usable s.order.kinds s ws kind⟩⟩
  · obtain ⟨-, hforce, husable, -⟩ := hconserves.found c hc
    obtain ⟨before, after, hkinds, hbefore, hothers⟩ := nextAmong_of_found hc
    have hnodup := s.order.nodup
    rw [hkinds, List.nodup_append, List.nodup_cons] at hnodup
    obtain ⟨-, ⟨hsource, -⟩, hapart⟩ := hnodup
    refine ⟨before, after, hkinds, hconserves.held_of_found hc, husable, hforce, hbefore,
      fun kind hkind => ?_⟩
    rcases hkind with hafter | hunlisted
    · refine hothers kind (fun hmem => ?_) fun heq => hsource (heq ▸ hafter)
      exact hapart kind hmem kind (List.mem_cons_of_mem _ hafter) rfl
    · rw [hkinds, List.mem_append, List.mem_cons, not_or, not_or] at hunlisted
      exact hothers kind hunlisted.1 hunlisted.2.1
  · exact hconserves.unusable hnone hkind hp
  · cases hfound : (s.next usable ws).found with
    | none => rfl
    | some c =>
        obtain ⟨hsource, -, husable, -⟩ := hconserves.found c hfound
        rw [hno c.source hsource c.peer (hconserves.held_of_found hfound)] at husable
        cases husable
  · exact ⟨(hconserves.none hnone).1, fun kind hkind => nextAmong_of_none hnone hkind⟩
  · cases hfound : (s.next usable ws).found with
    | none => exact ⟨(s.next usable ws).asked, (hconserves.none hfound).2, by simp⟩
    | some c =>
        obtain ⟨-, -, -, skipped, hasked, hskipped⟩ := hconserves.found c hfound
        exact ⟨skipped, hskipped, by simp [hasked]⟩

end SearchPools

/-- Ancestor and sibling are not usable, nobody was busy, and neither are the hint and the newest
that was heard of: the next candidate is the oldest that was heard of, and whoever refused for its
degree is still there. -/
theorem Rehearsal.next_by_precedence_of_hearsay :
    let pools : SearchPools :=
      { SearchPools.start ⟨[.regional, .busy, .global, .maxDegree], by decide⟩
          ⟨⟨[broker 1 "x"]⟩, ⟨[broker 2 "y"]⟩, 4, 4⟩
          ⟨⟨[broker 3 "z", broker 4 "w"]⟩, some (broker 5 "v"), 8⟩ 8 (.ofMilliseconds 500) with
        maxDegree := (Reserve.forced .overMax 8).add (broker 6 "u") }
    let usable := fun (p : Peer) (_ : PoolKind) => p.same (broker 3 "z") || p.same (broker 6 "u")
    let next := pools.next usable still
    let c : Candidate := ⟨broker 3 "z", .none, .global⟩
    next.found = some c ∧ ∃ before after, pools.order.kinds = before ++ c.source :: after ∧
      c.peer ∈ pools.held c.source ∧ usable c.peer c.source = true ∧
      c.force = pools.forceOf c.source ∧
      (∀ kind ∈ before, (∀ p ∈ pools.held kind, usable p kind = false) ∧
        next.pools.held kind = []) ∧
      ∀ kind, kind ∈ after ∨ kind ∉ pools.order.kinds → pools.Spares next.pools kind := by
  intro pools usable next c
  have hfound : next.found = some c := by decide +kernel
  exact ⟨hfound, (pools.next_by_precedence usable still).1 c hfound⟩

end BrokerForest
