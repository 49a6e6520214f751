import BrokerForest.Proofs.SearchEpisodes
/-!
# Forced requests: nobody is asked with force who was not asked without it

A broker may be asked to overlook a bound on its degree.  A search does so only when the broker
has refused it for this bound before: it is then that the broker comes into the reserve from
which candidates are asked with this force.  Other refusals may bring the same broker into other
pools, and refusals of other brokers may name it, but from those pools it is asked without force;
and no candidate is taken out of a reserve twice.

Main statements:

* `PoolKind.force`, `Refusal.force` — which force belongs to a pool, and which one a refusal
  justifies;
* `Refused` — a peer has refused the search;
* `Search.Restrained`, `Search.Pursuit.restrained` — whoever is held for force has refused;
* `Search.Pursuit.taken_of_requested` — whom a search asks it has taken before;
* `Holder.Due`, `Life.due` — whoever else is asked is asked to join a tree, and without force;
* **`Search.Pursuit.forces_only_refused`** — a search asks with force only whom it has asked
  without, and with each force once.
-/

namespace BrokerForest

/-- The force that a candidate from a pool is asked with. -/
def PoolKind.force : PoolKind → Force
  | .maxDegree => .overMax
  | .minDegree => .underMin
  | .regional | .global | .downstream | .upstream | .busy => .none

/-- The force that a refusal justifies. -/
def Refusal.force : Refusal → Force
  | .maxDegree _ => .overMax
  | .minDegree _ => .underMin
  | .depthOrColor _ | .busy => .none

theorem PoolKind.force_maxDegree_iff (kind : PoolKind) :
    kind.force.maxDegree = true ↔ kind = .maxDegree := by
  cases kind <;> decide

theorem PoolKind.force_minDegree_iff (kind : PoolKind) :
    kind.force.minDegree = true ↔ kind = .minDegree := by
  cases kind <;> decide

theorem Refusal.eq_of_overMax {refusal : Refusal} (h : refusal.force = .overMax) :
    ∃ siblings, refusal = .maxDegree siblings := by
  cases refusal with
  | maxDegree siblings => exact ⟨siblings, rfl⟩
  | minDegree | depthOrColor | busy => cases h

theorem Refusal.eq_of_underMin {refusal : Refusal} (h : refusal.force = .underMin) :
    ∃ upstream, refusal = .minDegree upstream := by
  cases refusal with
  | minDegree upstream => exact ⟨upstream, rfl⟩
  | maxDegree | depthOrColor | busy => cases h

/-- A peer was waited for, and has refused. -/
def Refused (past : List Episode) (peer : Peer) (refusal : Refusal) : Prop :=
  ∃ arrival ∈ past, ∃ response, arrival.Brings peer response ∧
    response.answer = .refused refusal

theorem Refused.append {past : List Episode} {peer : Peer} {refusal : Refusal}
    (h : Refused past peer refusal) (later : List Episode) :
    Refused (past ++ later) peer refusal := by
  obtain ⟨arrival, harrival, hbrings⟩ := h
  exact ⟨arrival, List.mem_append_left _ harrival, hbrings⟩

/-- Only the peer that refuses comes into a pool from which candidates are asked with force, and
then with the force that its refusal justifies. -/
theorem Refusal.eq_of_offers {refusal : Refusal} {self peer p : Peer} {kind : PoolKind}
    (h : (kind, p) ∈ refusal.offers self peer) (hforce : kind.force ≠ .none) :
    p = peer ∧ refusal.force = kind.force := by
  cases refusal with
  | busy =>
      obtain ⟨rfl, rfl⟩ := Prod.mk.inj (List.mem_singleton.1 h)
      exact absurd rfl hforce
  | maxDegree named | minDegree named =>
      simp only [offers, List.mem_cons, List.mem_map, Prod.mk.injEq] at h
      obtain ⟨rfl, rfl⟩ | ⟨other, -, rfl, rfl⟩ := h
      · exact ⟨rfl, rfl⟩
      · exact absurd rfl hforce
  | depthOrColor hint =>
      cases hint with
      | none => simp [offers] at h
      | some hint =>
          simp only [offers] at h
          split at h
          · simp at h
          · obtain ⟨rfl, rfl⟩ := Prod.mk.inj (List.mem_singleton.1 h)
            exact absurd rfl hforce

namespace Search

/-- The pools of a search ask with the force that belongs to their kinds, and hold for force only
whom has refused for it. -/
structure Restrained (past : List Episode) (search : Search) : Prop where
  force : ∀ kind, search.pools.forceOf kind = kind.force
  earned : ∀ kind : PoolKind, kind.force ≠ .none → ∀ p ∈ search.pools.held kind,
    ∃ refusal, refusal.force = kind.force ∧ Refused past p refusal

namespace Restrained

variable {past : List Episode} {search : Search}

theorem append (h : search.Restrained past) (later : List Episode) :
    search.Restrained (past ++ later) where
  force := h.force
  earned kind hforce p hp := by
    obtain ⟨refusal, heq, hrefused⟩ := h.earned kind hforce p hp
    exact ⟨refusal, heq, hrefused.append later⟩

/-- A search begins with empty reserves. -/
theorem start (order : SearchOrder) (regional : Regional) (global : Global) (most : Nat)
    (busyDelay : Duration) (dead : Option Peer) (asRoot : Bool) (connector : Option Nat) :
    Restrained past
      ⟨dead, asRoot, connector, .start order regional global most busyDelay, [], 0⟩ where
  force kind := by cases kind <;> rfl
  earned kind hforce p hp := by cases kind <;> first | exact absurd rfl hforce | cases hp

/-- A candidate that is taken leaves the others where they are. -/
theorem mark {usable : Peer → PoolKind → Bool} {kinds : List PoolKind} {next : NextCandidate}
    (h : search.Restrained past) (c : Candidate)
    (hnext : next.Conserves usable kinds search.pools) :
    (search.mark next.pools c).Restrained past where
  force kind := (congrFun hnext.force kind).trans (h.force kind)
  earned kind hforce p hp := h.earned kind hforce p (hnext.held_of_left hp)

/-- Whoever refuses may be held for force. -/
theorem learn {self peer : Peer} {refusal : Refusal} (h : search.Restrained past)
    (hrefused : Refused past peer refusal) : (search.learn self peer refusal).Restrained past where
  force kind := by
    rw [pools_learn, SearchPools.forceOf_putAll]
    exact h.force kind
  earned kind hforce p hp := by
    rw [pools_learn] at hp
    rcases SearchPools.held_of_putAll hp with hheld | hoffered
    · exact h.earned kind hforce p hheld
    · obtain ⟨rfl, heq⟩ := Refusal.eq_of_offers hoffered hforce
      exact ⟨refusal, heq, hrefused⟩

end Restrained

namespace Pursuit

variable {start : Node} {dead : Option Peer} {asRoot : Bool} {connector : Option Nat}
  {past later : List Episode} {e : Episode} {n : Node} {search : Search} {c : Candidate}

/-- Whoever a search holds for force has refused it. -/
theorem restrained (pursuit : Pursuit start dead asRoot connector past n)
    (h : n.search? = some search) : search.Restrained past := by
  refine pursuit.along (motive := fun past _ search => search.Restrained past) ?_ ?_ h
  · intro n search hbegins
    rw [hbegins.fresh]
    exact Restrained.start ..
  · intro past e search search' pursuit hbefore hmoves hafter ih
    have hearlier := ih.append [e]
    rcases hmoves.next hbefore hafter with rfl | ⟨c, next, -, hnext, -, rfl⟩ |
      ⟨peer, refusal, hlearns, rfl⟩
    · exact hearlier
    · exact hearlier.mark c hnext
    · obtain hrefused : Refused past peer refusal := pursuit.brings_of_learns hlearns
      exact hearlier.learn (hrefused.append [e])

/-- A candidate is asked with the force that belongs to the pool it comes from. -/
theorem force_of_takes (pursuit : Pursuit start dead asRoot connector (past ++ e :: later) n)
    (takes : e.Takes search c) : c.force = c.source.force := by
  obtain ⟨next, hnext, hfound, -⟩ := takes.conserves
  obtain ⟨-, hforce, -⟩ := hnext.found c hfound
  rw [hforce, ((pursuit.split rfl).1.restrained takes.underway).force]

/-- A candidate that is asked to overlook a bound, for whose sake there is a reserve, has refused
for this bound, and was not asked to overlook it before. -/
theorem refused_of_overlooking {overlooks : Force → Bool} {reserve : PoolKind}
    (honly : ∀ kind : PoolKind, overlooks kind.force = true ↔ kind = reserve)
    (hreserve : reserve.force ≠ .none)
    (pursuit : Pursuit start dead asRoot connector (past ++ e :: later) n)
    (takes : e.Takes search c) (hoverlooks : overlooks c.force = true) :
    (∃ refusal, refusal.force = reserve.force ∧ Refused past c.peer refusal) ∧
      ∀ t ∈ past, ∀ earlier c', t.Takes earlier c' → c'.peer.id = c.peer.id →
        overlooks c'.force = false := by
  have hpast := (pursuit.split rfl).1
  have hsource : c.source = reserve := by
    rw [pursuit.force_of_takes takes] at hoverlooks
    exact (honly _).1 hoverlooks
  obtain ⟨next, hnext, hfound, -⟩ := takes.conserves
  constructor
  · have hheld := hnext.held_of_found hfound
    rw [hsource] at hheld
    exact (hpast.restrained takes.underway).earned reserve hreserve c.peer hheld
  · intro t ht earlier c' htakes hid
    obtain ⟨prior, since, rfl⟩ := List.append_of_mem ht
    rw [List.append_assoc, List.cons_append] at pursuit
    rw [pursuit.force_of_takes htakes, Bool.eq_false_iff]
    intro hoverlooks'
    -- The candidate was taken from this reserve before, and so may not be tried again.
    have htried : (c.peer.id, c.source) ∈ search.tried :=
      (hpast.tried_iff takes.underway _).2
        ⟨t, ht, earlier, c', htakes, by rw [hid, (honly _).1 hoverlooks', hsource]⟩
    obtain ⟨-, -, husable, -⟩ := hnext.found c hfound
    simp [admits, htried] at husable

end Pursuit

end Search

namespace Search.Pursuit

variable {start : Node} {dead : Option Peer} {asRoot : Bool} {connector : Option Nat}
  {past later : List Episode} {e : Episode} {n : Node}

/-- **In a pursuit a peer is asked only for the sake of the candidate that the search has taken
last**, with the force that belongs to it, and nobody else is. -/
theorem taken_of_requested (pursuit : Pursuit start dead asRoot connector (past ++ e :: later) n)
    {peer : Peer} {request : Request} {traffic : TrafficClass} {delivered : Bool}
    (hsent : .sent peer (.request request) traffic delivered ∈ e.seen) :
    e.seen = [.sent peer (.request request) traffic delivered] ∧
      ∃ prior t since search c, past = prior ++ t :: since ∧ t.Takes search c ∧
        request.force = c.force ∧ (∃ contact ∈ since, contact.Finds c [peer]) ∧
          ∀ a ∈ since, ∀ other request, ¬ a.Requests other request := by
  obtain ⟨hpast, -, σ, _, outside, ws, -, heq⟩ := pursuit.split rfl
  rw [heq] at hsent
  obtain ⟨hact, negotiation, hasking⟩ :=
    Session.asking_of_requested ⟨traffic, delivered, hsent⟩ rfl
  have hsubmits : e.Submits negotiation request := by
    rw [heq, hact]
    exact Session.submits_advance rfl hasking
  obtain ⟨sent, hseen⟩ := hsubmits.submitted
  rw [← heq, hseen] at hsent
  cases List.mem_singleton.1 hsent
  refine ⟨hseen, ?_⟩
  have habout : e.before.isAboutToAsk = true := by
    rw [Node.isAboutToAsk, hasking]
    rfl
  obtain ⟨prior, t, since, search, c, hpast, htakes, hpending, hsilent⟩ :=
    hpast.taken_of_isAboutToAsk habout
  rw [hasking] at hpending
  cases hpending with
  | asking past finds force =>
      exact ⟨prior, t, since, search, c, hpast, htakes, force, ⟨_, past, finds⟩, hsilent⟩

end Search.Pursuit

/-! ## Whom else a node asks -/

/-- Somebody is asked for the sake of a search, or to join a tree, and then without force. -/
def Purpose.Due (history : List Episode) (purpose : Purpose) (force : Force) : Prop :=
  (∃ search source, purpose = .search search source) ∨
    force = .none ∧ ∃ t ∈ history, ∃ url, t.act = .begin (.join url)

/-- Whoever is about to be asked is asked for the sake of a search, or to join a tree. -/
def Holder.Due (history : List Episode) : Holder → Prop
  | .opening attempt => attempt.purpose.Due history attempt.force
  | .asking negotiation request => negotiation.purpose.Due history request.force
  | .outsider | .searching _ | .negotiating _ | .retreating _ | .leaving _ | .founding _ => True

theorem Purpose.Due.append {history : List Episode} {purpose : Purpose} {force : Force}
    (h : purpose.Due history force) (later : List Episode) :
    purpose.Due (history ++ later) force := by
  rcases h with hsearch | ⟨hforce, t, ht, hjoin⟩
  · exact Or.inl hsearch
  · exact Or.inr ⟨hforce, t, List.mem_append_left _ ht, hjoin⟩

theorem Holder.Due.append {history : List Episode} {holder : Holder} (h : holder.Due history)
    (later : List Episode) : holder.Due (history ++ later) := by
  cases holder with
  | opening | asking => exact Purpose.Due.append h later
  | outsider | searching | negotiating | retreating | leaving | founding => trivial

/-- Whoever is about to be asked by a node is asked as is due. -/
def Node.Due (history : List Episode) (n : Node) : Prop :=
  ∀ holder, n.slot.holder = some holder → holder.Due history

namespace Session

variable {σ : Type} [Transport σ] {s : Session σ} {history : List Episode}

omit [Transport σ] in
/-- Nobody is about to be asked when a negotiation has been settled. -/
theorem due_settle (s : Session σ) (purpose : Purpose) (result : NegotiationResult) :
    (s.settle purpose result).node.Due history := by
  obtain ⟨_, _, _, hnode, hholder, -⟩ := s.settle_cases purpose result
  intro holder h
  rw [hnode] at h
  rcases hholder with rfl | ⟨search, source, next, -, rfl⟩
  · cases h
  · cases h
    trivial

/-- Going on leads nobody to be asked but as is due. -/
theorem due_advance (h : s.node.Due history) : s.advance.node.Due history := by
  have hnew {holder : Holder} {t : Session σ} (hholder : t.node.slot.holder = some holder)
      (hdue : holder.Due history) : t.node.Due history := by
    intro holder' h'
    cases hholder.symm.trans h'
    exact hdue
  have hended {t : Session σ} (hended : t.node.slot.holder = none ∨
      t.node.slot.holder = some (.founding true)) : t.node.Due history := by
    rcases hended with hfree | hfounding
    · intro holder h'
      cases hfree.symm.trans h'
    · exact hnew hfounding trivial
  match hholder : s.node.slot.holder with
  | none | some .outsider | some (.negotiating _) =>
      rwa [advance_of_not_ready (by simp [Node.isReady, hholder, Holder.isReady])]
  | some (.searching search) =>
      rw [advance_of_searching hholder]
      rcases s.draw_cases search with ⟨-, heq⟩ | ⟨-, ⟨-, heq⟩ | ⟨c, -, heq⟩⟩ <;> rw [heq]
      · exact hended ((frame_endSearch ..).1.imp_right And.right)
      · exact hended ((frame_endSearch ..).1.imp_right And.right)
      · refine hnew rfl ?_
        rcases c.holder_cases (search.mark (s.nextCandidate search).pools c) with
          ⟨-, heq⟩ | ⟨url, -, heq⟩ <;> rw [heq]
        · trivial
        · exact Or.inl ⟨_, _, rfl⟩
  | some (.opening attempt) =>
      rw [advance_of_opening hholder]
      rcases s.approach_cases attempt with
        ⟨error, -, heq⟩ | ⟨peer, -, ⟨-, heq⟩ | ⟨-, heq⟩⟩ <;> rw [heq]
      · exact due_settle _ _ _
      · exact due_settle _ _ _
      · have hdue : attempt.purpose.Due history attempt.force := h _ hholder
        exact hnew rfl hdue
  | some (.asking negotiation request) =>
      rw [advance_of_asking hholder]
      obtain ⟨holder, hnode, hwaits⟩ := s.submit_cases negotiation request
      have hafter : (s.submit negotiation request).node.slot.holder = some holder := by rw [hnode]
      refine hnew hafter ?_
      rcases hwaits with ⟨rfl, -⟩ | ⟨rfl, -⟩ <;> trivial
  | some (.retreating negotiation) =>
      rw [advance_of_retreating hholder, retreat_eq]
      exact due_settle _ _ _
  | some (.leaving father) =>
      rw [advance_of_leaving hholder]
      exact hnew rfl trivial
  | some (.founding repair) =>
      rw [advance_of_founding hholder]
      exact hended (Or.inl (by rw [node_found]; rfl))

/-- Whoever is about to be asked as an errand begins is asked to join a tree. -/
theorem due_begin (hfree : s.node.slot.isBusy = false) (errand : Errand)
    (hjoins : ∀ url, errand = .join url → ∃ t ∈ history, ∃ url, t.act = .begin (.join url)) :
    (s.begin errand).node.Due history := by
  have hnone : s.node.slot.holder = none := by simpa [Slot.isBusy] using hfree
  have hsearch (dead : Option Peer) (asRoot : Bool) (connector : Option Nat) :
      (s.search dead asRoot connector).node.Due history := by
    intro holder h
    rcases s.search_cases dead asRoot connector with
      ⟨-, outcome, hnode⟩ | ⟨-, -, search, -, -, hnode⟩
    · obtain ⟨c, hc⟩ := s.node.settleConnector_cases connector outcome
      rw [hnode, hc] at h
      cases hnone.symm.trans h
    · rw [hnode] at h
      cases h
      trivial
  cases errand with
  | repair dead => exact hsearch _ _ _
  | connect connector => exact hsearch _ _ _
  | join url =>
      intro holder h
      simp only [begin, join] at h
      split at h
      · cases hnone.symm.trans h
      · cases h
        exact Or.inr ⟨rfl, hjoins url rfl⟩
  | reroot =>
      intro holder h
      simp only [begin, reroot] at h
      split at h <;>
        · cases h
          trivial

/-- Every act leads nobody to be asked but as is due. -/
theorem due_run {a : Act} (possible : a.Possible s.node) (h : s.node.Due history)
    (hjoins : ∀ url, a = .begin (.join url) → ∃ t ∈ history, ∃ url, t.act = .begin (.join url)) :
    (a.run s).node.Due history := by
  cases a with
  | advance => exact due_advance h
  | resume =>
      change s.resume.node.Due history
      by_cases hn : ∃ negotiation, s.node.slot.holder = some (.negotiating negotiation)
      · obtain ⟨negotiation, hn⟩ := hn
        rw [resume_of_negotiating hn]
        exact due_settle _ _ _
      · rwa [resume_of_not_negotiating (by simpa using hn)]
  | begin errand =>
      refine due_begin ?_ errand fun url heq => hjoins url (by rw [heq])
      exact possible.2
  | event | start | stop | requestJoin | requestReroot | leave | tick | gossip =>
      intro holder hholder
      rw [(meanwhile_of_aside (by simp) (by simp) (by simp)).2] at hholder
      exact h holder hholder

end Session

/-- **In every life whoever is about to be asked is asked as is due.** -/
theorem Life.due {cond : Episode → Prop} {history : List Episode} {n : Node}
    (life : Life cond history n) : n.Due history := by
  induction life with
  | birth =>
      intro holder h
      simp [Node.start, Slot.free] at h
  | @act history n a σ _ life outside ws possible _ ih =>
      refine Session.due_run possible (fun holder h => (ih holder h).append _) ?_
      rintro url rfl
      exact ⟨_, List.mem_concat_self, url, rfl⟩

namespace Search.Pursuit

variable {start : Node} {dead : Option Peer} {asRoot : Bool} {connector : Option Nat}
  {past later : List Episode} {e : Episode} {n : Node}

/-- **A search asks with force only whom it has asked without.**  In every pursuit, whatever is
answered and whatever else happens: a candidate that is asked to overlook a bound on its degree
has refused the search for this bound before, and was not asked to overlook it before; nobody is
asked to overlook both; and whoever is asked was found at the end of a link to the candidate that
the search has taken last, and is the only one to be asked for its sake.  In every life a node
asks only in a pursuit, or to join a tree, and then without force. -/
theorem forces_only_refused
    (pursuit : Pursuit start dead asRoot connector (past ++ e :: later) n) :
    (∀ search c, e.Takes search c →
      (c.force.maxDegree = true →
        (∃ siblings, Refused past c.peer (.maxDegree siblings)) ∧
          ∀ t ∈ past, ∀ earlier c', t.Takes earlier c' → c'.peer.id = c.peer.id →
            c'.force.maxDegree = false) ∧
      (c.force.minDegree = true →
        (∃ upstream, Refused past c.peer (.minDegree upstream)) ∧
          ∀ t ∈ past, ∀ earlier c', t.Takes earlier c' → c'.peer.id = c.peer.id →
            c'.force.minDegree = false) ∧
      (c.force.maxDegree = false ∨ c.force.minDegree = false)) ∧
    (∀ peer request traffic delivered,
      .sent peer (.request request) traffic delivered ∈ e.seen →
        e.seen = [.sent peer (.request request) traffic delivered] ∧
          ∃ prior t since search c, past = prior ++ t :: since ∧ t.Takes search c ∧
            request.force = c.force ∧ (∃ contact ∈ since, contact.Finds c [peer]) ∧
              ∀ a ∈ since, ∀ other request, ¬ a.Requests other request) ∧
    ∀ {cond : Episode → Prop} {history after : List Episode} {b : Episode} {m : Node}
      (_ : Life cond (history ++ b :: after) m) (peer : Peer) (request : Request),
      b.Requests peer request → b.act = .advance ∧
        ((∃ earlier past start dead asRoot connector, history = earlier ++ past ∧
            Pursuit start dead asRoot connector (past ++ b :: []) b.after) ∨
          request.force = .none ∧ ∃ t ∈ history, ∃ url, t.act = .begin (.join url)) := by
  refine ⟨fun search c htakes => ⟨fun hmax => ?_, fun hmin => ?_, ?_⟩,
    fun _ _ _ _ => pursuit.taken_of_requested, fun life peer request hrequests => ?_⟩
  · obtain ⟨⟨refusal, hforce, hrefused⟩, honce⟩ := refused_of_overlooking
      PoolKind.force_maxDegree_iff (by decide) pursuit htakes hmax
    obtain ⟨siblings, rfl⟩ := Refusal.eq_of_overMax hforce
    exact ⟨⟨siblings, hrefused⟩, honce⟩
  · obtain ⟨⟨refusal, hforce, hrefused⟩, honce⟩ := refused_of_overlooking
      PoolKind.force_minDegree_iff (by decide) pursuit htakes hmin
    obtain ⟨upstream, rfl⟩ := Refusal.eq_of_underMin hforce
    exact ⟨⟨upstream, hrefused⟩, honce⟩
  · rw [pursuit.force_of_takes htakes]
    cases c.source <;> decide
  · obtain ⟨hbefore, -, σ, _, outside, ws, possible, heq⟩ := life.split rfl
    rw [heq] at hrequests
    obtain ⟨hact, negotiation, hasking⟩ := Session.asking_of_requested hrequests rfl
    refine ⟨hact, (hbefore.due _ hasking).imp_left fun ⟨search, source, hpurpose⟩ => ?_⟩
    have hunderway : _ = true := Node.isUnderway_iff.2 (Or.inl ⟨search, by
      rw [Node.search?_of_holder hasking, Holder.search?, hpurpose, Purpose.search?]⟩)
    obtain ⟨earlier, past, start, dead, asRoot, connector, hhistory, hpursuit⟩ :=
      hbefore.pursuit hunderway
    refine ⟨earlier, past, start, dead, asRoot, connector, hhistory, ?_⟩
    rw [heq]
    exact hpursuit.act outside ws possible hunderway

end Search.Pursuit

namespace Rehearsal

/-- A full sibling names a child of its own that cannot be reached. -/
def insistence : List Act :=
  [.advance, .advance, .advance,
    .event (.message (broker 2 "y") (.response ⟨default, .refused (.maxDegree [broker 4 "w"])⟩)),
    .resume, .advance, .advance, .advance, .advance]

/-- Whether somebody is seen to be asked to overlook the upper bound. -/
def insists : Effect → Bool
  | .sent _ (.request request) _ _ => request.force.maxDegree
  | _ => false

/-- Whether somebody is seen to be asked. -/
def requests : Effect → Bool
  | .sent _ (.request _) _ _ => true
  | _ => false

/-- A broker whose sibling is full, and names nobody who can be reached, asks the sibling once more,
and with force.  A broker that joins a tree asks without. -/
theorem forces_only_refused_of_insistence :
    let begun := (orphaned.search (some (broker 3 "z")) false none).node
    let past := begun.story trio still insistence
    let e := (begun.grown trio still insistence).live trio still .advance
    let history := newborn.story trio still (courtship.take 5)
    let b := (newborn.grown trio still (courtship.take 5)).live trio still .advance
    Search.Pursuit orphaned.node (some (broker 3 "z")) false none (past ++ e :: []) e.after ∧
      Life (fun _ => True) (history ++ b :: []) b.after ∧
      (∃ peer request, e.Requests peer request ∧
        ∃ prior t since search c, past = prior ++ t :: since ∧ t.Takes search c ∧
          request.force = c.force ∧ (∃ contact ∈ since, contact.Finds c [peer]) ∧
            c.force.maxDegree = true ∧ c.force.minDegree = false ∧
              (∃ siblings, Refused prior c.peer (.maxDegree siblings)) ∧
                ∀ t' ∈ prior, ∀ earlier c', t'.Takes earlier c' → c'.peer.id = c.peer.id →
                  c'.force.maxDegree = false) ∧
      ∃ peer request, b.Requests peer request ∧ request.force = .none ∧
        ∃ t ∈ history, ∃ url, t.act = .begin (.join url) := by
  intro begun past e history b
  have hbegun : Search.Pursuit orphaned.node (some (broker 3 "z")) false none [] begun :=
    .begin trio still rfl
  have hpast : Search.Pursuit orphaned.node (some (broker 3 "z")) false none past
      (begun.grown trio still insistence) :=
    hbegun.story trio still insistence (by decide +kernel)
  have hwhole : Search.Pursuit orphaned.node (some (broker 3 "z")) false none (past ++ e :: [])
      e.after := hpast.live trio still (a := .advance) trivial (by decide +kernel)
  have hpossible : ∀ e ∈ history, e.act.Possible e.before ∧ (fun _ : Episode => True) e := by
    decide +kernel
  have hlife : Life (fun _ => True) (history ++ b :: []) b.after :=
    ((Life.birth .standard (broker 1 "x") still).story trio still hpossible).act
      (a := .advance) trio still trivial trivial
  obtain ⟨-, hrequested, hothers⟩ := hwhole.forces_only_refused
  refine ⟨hwhole, hlife, ?_, ?_⟩
  · obtain ⟨effect, hseen, hforce⟩ : ∃ effect ∈ e.seen, insists effect = true :=
      List.any_eq_true.1 (by decide +kernel)
    unfold insists at hforce
    split at hforce
    · rename_i peer request traffic delivered
      obtain ⟨-, prior, t, since, search, c, heq, htakes, hsame, hfinds, -⟩ :=
        hrequested _ _ _ _ hseen
      have hsplit := hwhole
      rw [heq, List.append_assoc, List.cons_append] at hsplit
      obtain ⟨hforced, -⟩ := hsplit.forces_only_refused
      rw [hsame] at hforce
      obtain ⟨hmax, -, hboth⟩ := hforced search c htakes
      exact ⟨peer, request, ⟨traffic, delivered, hseen⟩, prior, t, since, search, c, heq, htakes,
        hsame, hfinds, hforce, by simpa [hforce] using hboth, hmax hforce⟩
    · cases hforce
  · have hidle : b.before.isUnderway = false := by decide +kernel
    obtain ⟨effect, hseen, hrequest⟩ : ∃ effect ∈ b.seen, requests effect = true :=
      List.any_eq_true.1 (by decide +kernel)
    unfold requests at hrequest
    split at hrequest
    · rename_i peer request traffic delivered
      have hrequests : b.Requests peer request := ⟨traffic, delivered, hseen⟩
      obtain ⟨-, ⟨_, _, _, _, _, _, -, hpursuit⟩ | hjoins⟩ := hothers hlife peer request hrequests
      · exact absurd (hidle.symm.trans (hpursuit.split rfl).2.1) (by decide)
      · exact ⟨peer, request, hrequests, hjoins⟩
    · cases hrequest

end Rehearsal

end BrokerForest
