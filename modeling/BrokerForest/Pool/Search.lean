import BrokerForest.Pool.Global
import BrokerForest.Pool.Order
import BrokerForest.Pool.Regional
import BrokerForest.Pool.Reserve
/-!
# The pools of one search

A search draws from its own copies of the node's regional and global pools, and from
reserves that the refusals it meets fill.

* `SearchPools.next` — the next usable candidate, from the first pool in the order that has
  one;
* `SearchPools.onBusy`, `onMaxDegree`, `onMinDegree`, `onHint` — what a refusal adds.
-/

namespace BrokerForest

/-- A peer to ask, with what force, and from which kind of pool it came. -/
structure Candidate where
  peer : Peer
  force : Force
  source : PoolKind
deriving DecidableEq

/-- The pools of one search. -/
structure SearchPools where
  order : SearchOrder
  regional : Regional
  global : Global
  downstream : Reserve
  upstream : Reserve
  minDegree : Reserve
  maxDegree : Reserve
  busy : Reserve
deriving DecidableEq

/-- What came of looking for the next candidate. -/
structure NextCandidate where
  /-- The candidate, if any listed pool had a usable one. -/
  found : Option Candidate
  /-- Everyone who was asked about, and for which kind of pool, in order. -/
  asked : List (Peer × PoolKind)
  /-- The pools without those who were drawn. -/
  pools : SearchPools
  /-- The words that are left. -/
  words : Words
  /-- The pause before the candidate is asked, in milliseconds. -/
  pause : Option Nat

namespace SearchPools

/-- The pools at the start of a search: the reserves are empty. -/
def start (order : SearchOrder) (regional : Regional) (global : Global) (most : Nat)
    (busyDelay : Duration) : SearchPools where
  order := order
  regional := regional
  global := global
  downstream := .plain most
  upstream := .plain most
  minDegree := .forced .underMin most
  maxDegree := .forced .overMax most
  busy := .delayed busyDelay

/-- How many a pool holds. -/
def size (s : SearchPools) : PoolKind → Nat
  | .downstream => s.downstream.size
  | .upstream => s.upstream.size
  | .minDegree => s.minDegree.size
  | .regional => s.regional.size
  | .busy => s.busy.size
  | .global => s.global.size
  | .maxDegree => s.maxDegree.size

/-- A draw from one kind of pool, as the next candidate with a force after a pause. -/
def ofDraw {σ : Type} (kind : PoolKind) (force : Force) (pause : σ → Words → Option Nat × Words)
    (put : σ → SearchPools) (d : Draw σ) : NextCandidate :=
  let asked := d.asked.map fun p => (p, kind)
  match d.found with
  | none => ⟨none, asked, put d.rest, d.words, none⟩
  | some p =>
    let (length, ws) := pause d.rest d.words
    ⟨some ⟨p, force, kind⟩, asked, put d.rest, ws, length⟩

/-- Draws from a pool that is no reserve need no pause. -/
def noPause {σ : Type} (_ : σ) (ws : Words) : Option Nat × Words := (none, ws)

/-- Draws from a reserve, as the next candidate. -/
def ofReserve (kind : PoolKind) (r : Reserve) (put : Reserve → SearchPools)
    (usable : Peer → Bool) (ws : Words) : NextCandidate :=
  ofDraw kind r.force Reserve.pause put (r.draw usable ws)

/-- The next usable candidate from one kind of pool. -/
def nextFrom (s : SearchPools) (kind : PoolKind) (usable : Peer → Bool) (ws : Words) :
    NextCandidate :=
  match kind with
  | .regional =>
    ofDraw kind .none noPause (fun r => { s with regional := r }) (s.regional.draw usable ws)
  | .global =>
    ofDraw kind .none noPause (fun g => { s with global := g }) (s.global.draw usable ws)
  | .downstream => ofReserve kind s.downstream (fun r => { s with downstream := r }) usable ws
  | .upstream => ofReserve kind s.upstream (fun r => { s with upstream := r }) usable ws
  | .minDegree => ofReserve kind s.minDegree (fun r => { s with minDegree := r }) usable ws
  | .maxDegree => ofReserve kind s.maxDegree (fun r => { s with maxDegree := r }) usable ws
  | .busy => ofReserve kind s.busy (fun r => { s with busy := r }) usable ws

/-- The next usable candidate from the first of some kinds of pools that has one. -/
def nextAmong (usable : Peer → PoolKind → Bool) :
    List PoolKind → SearchPools → Words → NextCandidate
  | [], s, ws => ⟨none, [], s, ws, none⟩
  | kind :: kinds, s, ws =>
    let here := s.nextFrom kind (usable · kind) ws
    match here.found with
    | some _ => here
    | none =>
      let later := nextAmong usable kinds here.pools here.words
      { later with asked := here.asked ++ later.asked }

/-- The next usable candidate. -/
def next (s : SearchPools) (usable : Peer → PoolKind → Bool) (ws : Words) : NextCandidate :=
  nextAmong usable s.order.kinds s ws

/-- A peer was busy: it may be asked again. -/
def onBusy (s : SearchPools) (p : Peer) : SearchPools := { s with busy := s.busy.add p }

/-- A peer has too many neighbors: it may be asked with force, and its children too. -/
def onMaxDegree (s : SearchPools) (p : Peer) (siblings : List Peer) : SearchPools :=
  { s with maxDegree := s.maxDegree.add p, downstream := s.downstream.addAll siblings }

/-- A peer has too few neighbors: it may be asked with force, and its ancestors too. -/
def onMinDegree (s : SearchPools) (p : Peer) (upstream : List Peer) : SearchPools :=
  { s with minDegree := s.minDegree.add p, upstream := s.upstream.addAll upstream }

/-- A peer named a good candidate. -/
def onHint (s : SearchPools) (p : Peer) : SearchPools := { s with global := s.global.add p }

end SearchPools

end BrokerForest
