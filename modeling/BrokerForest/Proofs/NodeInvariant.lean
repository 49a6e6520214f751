import BrokerForest.Proofs.GroveTransport
import BrokerForest.Proofs.Neighborhood
import BrokerForest.Proofs.PairInvariant
import BrokerForest.Proofs.Shifts
/-!
# The node invariant: what holds between a node and each other

At every moment the pair invariant holds between a node and each other node that lives, and of
one that is dead a node has no more than what it may not know yet.  An act of a node is about
one other at most; all others see of it at most the news for its children.

Main statements:

* `Node.stance` — what the state of a node says about another;
* `Widow` — what holds between a node and a dead one;
* `Facing` — what holds between a node and another, dead or alive;
* **`Facing.spread`** — news that a node spreads among its children, with the new rank that
  they tell of, preserve this for everyone.
-/

namespace BrokerForest

/-- Whether what holds a slot may still come to ask someone. -/
def Holder.isLooking : Holder → Bool
  | .searching _ | .opening _ | .asking _ _ | .negotiating _ | .retreating _ => true
  | .outsider | .leaving _ | .founding _ => false

/-- Whether the node may still come to ask someone. -/
def Node.isLooking (n : Node) : Bool := n.slot.holder.any Holder.isLooking

/-- The dead father for which a search looks for another. -/
def Holder.dead (holder : Holder) : Option Peer := holder.search?.bind Search.dead

/-- Whether what holds a slot waits for an answer of the peer of an identity. -/
def Holder.awaits (v : NodeId) : Holder → Bool
  | .negotiating negotiation => negotiation.peer.id = v
  | _ => false

/-- Whether what holds a slot is to leave the father of an identity, which was told so. -/
def Holder.leaves (v : NodeId) : Holder → Bool
  | .leaving father => father.id = v
  | _ => false

/-- Whether what holds a slot has a reference to the link with the peer of an identity. -/
def Holder.links (v : NodeId) (holder : Holder) : Bool :=
  holder.negotiation?.any (fun negotiation => negotiation.peer.id = v) || holder.leaves v

/-- Whether what holds a slot is to take the node out of its tree, of its own accord. -/
def Holder.isParting : Holder → Bool
  | .leaving _ | .founding false => true
  | _ => false

/-- Whether the node is on its way out of its tree, of its own accord. -/
def Node.isParting (n : Node) : Bool := n.slot.holder.any Holder.isParting

/-- How a node stands towards another.  The father that a node is about to leave is none any
more, although the node takes note of it only later. -/
def Node.stance (n : Node) (v : NodeId) : Stance where
  has := n.position.has v && !n.slot.holder.any (Holder.leaves v)
  under := n.position.under v && !n.isParting
  rank := n.position.rank
  floor := if n.position.under v && !n.isParting then n.position.fatherDepth else none
  links := n.slot.holder.any (Holder.links v)
  awaits := n.slot.holder.any (Holder.awaits v)
  taken := if n.slot.holder.any (Holder.awaits v) then n.mailbox.delivered else none
  engaged := n.isLooking
  shuns := (n.slot.holder.bind Holder.dead).any fun q => q.id = v

/-- What holds between a node and a dead one. -/
structure Widow (a : Stance) (inbox outbox : List Event) (refs : Nat) : Prop where
  beside : a.under = true → a.has = true
  told : a.has = true → inbox ≠ []
  deaths : ∀ e ∈ inbox, e.isDeath = true
  links : a.links = false
  silent : outbox = []
  refs : refs = 0

/-- What holds between a node and another, dead or alive. -/
def Facing (other : Option Node) (self : Peer) (a : Stance) (inbox outbox : List Event)
    (refs : Nat) : Prop :=
  match other with
  | some m => PairInvariant self m.self a (m.stance self.id) inbox outbox refs
  | none => Widow a inbox outbox refs

section

variable {other : Option Node} {self : Peer} {a : Stance} {inbox outbox : List Event} {refs : Nat}

/-- With whom a loss is on its way there is no link but between neighbors. -/
theorem Facing.links_eq_false {e : Event} (h : Facing other self a (e :: inbox) outbox refs)
    (he : e.matter = .loss) : a.links = false := by
  cases other with
  | none =>
      have hw : Widow _ _ _ _ := h
      exact hw.links
  | some m =>
      have hpair : PairInvariant _ _ _ _ _ _ _ := h
      exact (hpair.here.lost (by simp [he])).2

/-- With whoever lives there is a pair invariant. -/
theorem Facing.pair (h : Facing other self a inbox outbox refs) {m : Node} (hm : other = some m) :
    PairInvariant self m.self a (m.stance self.id) inbox outbox refs := by
  rwa [hm] at h

/-- Of whoever is gone a node is a widow. -/
theorem Facing.widow (h : Facing other self a inbox outbox refs) (hm : other = none) :
    Widow a inbox outbox refs := by
  rwa [hm] at h

end

namespace Node

/-- How a node stands towards another once it is elsewhere. -/
theorem stance_withPosition (n : Node) (p : Position) (v : NodeId) :
    { n with position := p }.stance v =
      { n.stance v with
        has := p.has v && !n.slot.holder.any (Holder.leaves v)
        under := p.under v && !n.isParting
        rank := p.rank
        floor := if p.under v && !n.isParting then p.fatherDepth else none } := rfl

variable {n : Node} {v : NodeId}

/-- Only a node that is on its way out of its tree leaves anybody. -/
theorem leaves_of_not_parting (h : n.isParting = false) (v : NodeId) :
    n.slot.holder.any (Holder.leaves v) = false := by
  unfold isParting at h
  cases hholder : n.slot.holder with
  | none => rfl
  | some holder =>
      rw [hholder] at h
      cases holder with
      | leaving father => cases h
      | _ => rfl

/-- A node that is not on its way out of its tree stands towards others as its place says. -/
theorem stance_of_not_parting (h : n.isParting = false) (v : NodeId) :
    (n.stance v).has = n.position.has v ∧ (n.stance v).under = n.position.under v ∧
      (n.stance v).floor = if n.position.under v then n.position.fatherDepth else none := by
  simp [stance, h, leaves_of_not_parting h v]

/-- Whom a node is to leave it has a link to. -/
theorem leaves_of_not_linked (h : (n.stance v).links = false) :
    n.slot.holder.any (Holder.leaves v) = false := by
  simp only [stance, Option.any_eq_false] at h ⊢
  intro holder hholder
  have hlinks := h holder hholder
  simp only [Holder.links, Bool.or_eq_false_iff] at hlinks
  simpa using hlinks.2

/-- Whoever may still ask someone looks for a father. -/
theorem isSeeking_of_looking (h : n.isLooking = true) : n.isSeeking = true := by
  obtain ⟨holder, hholder, hlooks⟩ := (Option.any_eq_true ..).1 h
  rw [isSeeking, hholder]
  cases holder with
  | outsider | leaving _ | founding _ => cases hlooks
  | _ => rfl

theorem isEngaged_congr {n k : Node} (h : n.slot = k.slot) : n.isEngaged = k.isEngaged := by
  rw [isEngaged, isEngaged, h]

theorem isLooking_congr {n k : Node} (h : n.slot = k.slot) : n.isLooking = k.isLooking := by
  rw [isLooking, isLooking, h]

/-- What can go on is a reconfiguration. -/
theorem isEngaged_of_ready (h : n.isReady = true) : n.isEngaged = true := by
  obtain ⟨holder, hholder, hready⟩ := (Option.any_eq_true ..).1 h
  rw [isEngaged, hholder]
  cases holder with
  | outsider => cases hready
  | _ => rfl

/-- A node on its way out of its tree looks for no father. -/
theorem isParting_of_seeking (h : n.isSeeking = true) : n.isParting = false := by
  obtain ⟨holder, hholder, hseeks⟩ := (Option.any_eq_true ..).1 h
  rw [isParting, hholder]
  cases holder with
  | leaving father => cases hseeks
  | founding repair => cases repair with
    | true => rfl
    | false => cases hseeks
  | _ => rfl

/-- Whoever looks for a father has its slot held. -/
theorem isEngaged_of_seeking (h : n.isSeeking = true) : n.isEngaged = true := by
  obtain ⟨holder, hholder, hseeks⟩ := (Option.any_eq_true ..).1 h
  rw [isEngaged, hholder]
  cases holder with
  | outsider => cases hseeks
  | _ => rfl

/-- Whoever has its slot held looks for a father, or is on its way out of its tree. -/
theorem seeks_or_parts (h : n.isEngaged = true) : n.isSeeking = true ∨ n.isParting = true := by
  obtain ⟨holder, hholder, hengaged⟩ := (Option.any_eq_true ..).1 h
  rw [isSeeking, isParting, hholder]
  cases holder with
  | outsider => cases hengaged
  | leaving father => exact Or.inr rfl
  | founding repair => cases repair with
    | true => exact Or.inl rfl
    | false => exact Or.inr rfl
  | _ => exact Or.inl rfl

/-- A node in which nothing goes on neither looks for a father nor leaves one. -/
theorem idle_of_not_engaged (h : n.isEngaged = false) :
    n.isLooking = false ∧ n.isParting = false ∧ n.negotiation? = none := by
  unfold isEngaged at h
  unfold isLooking isParting negotiation?
  cases hholder : n.slot.holder with
  | none => exact ⟨rfl, rfl, rfl⟩
  | some holder =>
      rw [hholder] at h
      cases holder with
      | outsider => exact ⟨rfl, rfl, rfl⟩
      | _ => cases h

/-- A node that is neither on its way out of its tree nor linked to anyone for a negotiation
stands towards others as its place says. -/
theorem stance_of_pending (hstays : n.isParting = false) (hnone : n.negotiation? = none)
    (v : NodeId) :
    n.stance v = ⟨n.position.has v, n.position.under v, n.position.rank,
      if n.position.under v then n.position.fatherDepth else none, false, false, none,
      n.isLooking, (n.slot.holder.bind Holder.dead).any fun q => q.id = v⟩ := by
  have hleaves := leaves_of_not_parting hstays v
  have hlinks : n.slot.holder.any (Holder.links v) = false := by
    unfold negotiation? at hnone
    cases hholder : n.slot.holder with
    | none => rfl
    | some holder =>
        rw [hholder] at hnone hleaves
        have hnone' : holder.negotiation? = none := hnone
        simpa [Holder.links, hnone'] using hleaves
  have hawaits : n.slot.holder.any (Holder.awaits v) = false := by
    unfold negotiation? at hnone
    cases hholder : n.slot.holder with
    | none => rfl
    | some holder =>
        rw [hholder] at hnone
        cases holder with
        | negotiating negotiation => cases hnone
        | _ => rfl
  simp [stance, hstays, hleaves, hlinks, hawaits]

end Node

/-! ## News for children -/

/-- The stance with another rank, in which no reconfiguration goes on if one has ended. -/
def Stance.turn (a : Stance) (rank : Rank) (ended : Bool) : Stance :=
  { a with rank := rank, engaged := a.engaged && !ended, shuns := a.shuns && !ended }

/-- What a node may tell its children, with its rank before it and after. -/
inductive Tidings (sibling : Peer → Prop) : Rank → List Message → Rank → Prop where
  | none (rank : Rank) : Tidings sibling rank [] rank
  | obituary {rank : Rank} (news : SiblingDead) (same : news.rank = rank) :
      Tidings sibling rank [.siblingDead news] rank
  | birth {rank : Rank} (news : NewSibling) (other : sibling news.sibling)
      (color : news.rank.color = rank.color)
      (depth : news.rank.depth = rank.depth ∨ news.rank.depth < rank.depth) :
      Tidings sibling rank [.newSibling news] news.rank
  | adoption {rank : Rank} (news : NewSibling) (update : Update) (other : sibling news.sibling)
      (depth : news.rank.depth = rank.depth ∨ news.rank.depth < rank.depth) :
      Tidings sibling rank [.newSibling news, .update update] update.rank
  | update {rank : Rank} (update : Update) : Tidings sibling rank [.update update] update.rank

section

variable {p q : Peer} {a b : Stance} {inbox outbox : List Event} {refs : Nat}
  {sibling : Peer → Prop} {messages : List Message} {rank : Rank} {o : Peer}

theorem PairInvariant.spread (h : PairInvariant p q a b inbox outbox refs)
    (ht : Tidings sibling a.rank messages rank)
    (hsibling : ∀ s, sibling s → a.has = true → a.under = false → s.same q = false)
    (hgrant : rank = a.rank ∧ (∀ m ∈ messages, ∃ news, m = .siblingDead news) ∨
      grant b.taken outbox = none)
    (hcolor : a.under = true → rank.color = a.rank.color) :
    PairInvariant p q { a with rank := rank } b inbox
      (if a.has && !a.under && decide (refs ≠ 0) then outbox ++ messages.map (.message o)
        else outbox) refs := by
  by_cases hchild : a.has = true ∧ a.under = false
  · obtain ⟨hhas, hunder⟩ := hchild
    have hrefs : refs ≠ 0 := by
      rw [h.refs, hhas, Bool.toNat_true]
      omega
    rw [if_pos (by simp [hhas, hunder, hrefs])]
    cases ht with
    | none => simpa using h
    | obituary news same => exact h.announce hhas hunder same
    | birth news other color depth =>
        have hnone : grant b.taken outbox = none := by simpa using hgrant
        exact h.herald hhas hunder hnone (hsibling _ other hhas hunder) color depth
    | adoption news update other depth =>
        have hnone : grant b.taken outbox = none := by simpa using hgrant
        exact h.heraldNew hhas hunder hnone (hsibling _ other hhas hunder) depth
    | update update =>
        have hnone : grant b.taken outbox = none := by simpa using hgrant
        exact h.proclaim hhas hunder hnone
  · rw [if_neg]
    swap
    · intro hall
      simp only [Bool.and_eq_true, Bool.not_eq_true'] at hall
      exact hchild hall.1
    refine h.turn (fun hhas => ?_) hcolor
    by_contra hunder
    exact hchild ⟨hhas, by simpa using hunder⟩

/-- A node whose reconfiguration has ended is in order with another that it does not
negotiate with. -/
theorem PairInvariant.turn_ended {ended : Bool}
    (h : PairInvariant p q { a with rank := rank } b inbox outbox refs)
    (hended : ended = true → a.awaits = false) :
    PairInvariant p q (a.turn rank ended) b inbox outbox refs := by
  cases ended with
  | false => simpa [Stance.turn] using h
  | true => simpa [Stance.turn] using h.release (hended rfl)

variable {other : Option Node} {ended : Bool}

/-- News that a node spreads among its children leave it in order with everyone, and so does
the end of a reconfiguration. -/
theorem Facing.spread (h : Facing other p a inbox outbox refs)
    (ht : Tidings sibling a.rank messages rank)
    (hsibling : ∀ s m, sibling s → other = some m → s.same m.self = false)
    (hgrant : rank = a.rank ∧ (∀ m ∈ messages, ∃ news, m = .siblingDead news) ∨
      ∀ m, other = some m → grant (m.stance p.id).taken outbox = none)
    (hcolor : a.under = true → rank.color = a.rank.color)
    (hended : ended = true → a.awaits = false) :
    Facing other p (a.turn rank ended) inbox
      (if a.has && !a.under && decide (refs ≠ 0) then outbox ++ messages.map (.message o)
        else outbox) refs := by
  cases other with
  | none =>
      have hw : Widow a inbox outbox refs := h
      rw [if_neg (by simp [hw.refs])]
      exact ⟨hw.beside, hw.told, hw.deaths, hw.links, hw.silent, hw.refs⟩
  | some m =>
      refine PairInvariant.turn_ended
        (PairInvariant.spread h ht (fun s hs _ _ => hsibling s m hs rfl) ?_ hcolor)
        hended
      exact hgrant.imp_right fun hgrant => hgrant m rfl

/-! ## Parting -/

/-- The stance without the other, if it was a neighbor. -/
def Stance.part (a : Stance) : Stance := { a with has := false, under := false, floor := none }

/-- The loss of another is experienced, and the link with it released if there was one. -/
theorem Facing.part {e : Event} (h : Facing other p a (e :: inbox) outbox refs)
    (he : e.matter = .loss) :
    Facing other p a.part inbox
      (if a.has && decide (refs = 1) then outbox ++ [.closed o] else outbox)
      (refs - a.has.toNat) := by
  cases other with
  | none =>
      have hw : Widow _ _ _ _ := h
      rw [hw.refs, if_neg (by simp)]
      exact ⟨by simp [Stance.part], by simp [Stance.part], fun x hx => hw.deaths x (by simp [hx]),
        hw.links, hw.silent, by simp⟩
  | some m =>
      have hpair : PairInvariant _ _ _ _ _ _ _ := h
      have hlose := hpair.lose he
      by_cases hclose : a.has = true ∧ refs = 1
      · obtain ⟨hhas, rfl⟩ := hclose
        rw [hhas] at hlose ⊢
        refine PairInvariant.close hlose rfl fun hengaged => ?_
        -- A node that looks for a father has nothing to do with one that has it for a child.
        by_contra hshuns
        have hcalm := (hpair.there.calm hengaged (by simpa using hshuns)).2.1 (by simp [he])
        rw [hhas] at hcalm
        cases hcalm
      · rw [if_neg (by simpa using fun hhas hrefs => hclose ⟨hhas, hrefs⟩)]
        exact hlose

end

end BrokerForest
