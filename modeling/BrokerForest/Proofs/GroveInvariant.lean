import BrokerForest.Proofs.KnownPeers
import BrokerForest.Proofs.RankUpdates
/-!
# The grove invariant: what holds in a grove at every moment

Operations follow one another in a grove, and what they cause goes its way through many
nodes.  At every moment the pair invariant holds between any two that live, and each knows nobody
but the nodes of the network; one node at most looks for a father; and if it was accepted,
then nobody but whoever accepted it tells of a new rank of its own accord.

The last of these is what keeps an acceptance true until it is taken note of: the node that
granted it is a root until then, so that no news from above change its rank.

Main statements:

* `Grove.Invariant` — what holds at every moment;
* `Grove.Invariant.after` — an act that is in order with everyone preserves it;
* `Grove.Invariant.ungranted` — a node that passes on news of a new rank has accepted nobody who
  does not know yet;
* **`Grove.Invariant.step`**, **`Grove.invariant_of_reachable`** — whatever happens preserves it.
-/

namespace BrokerForest

namespace Grove

/-- What holds of an event on its way from one node to another: it tells truly whom it comes
from, and everyone that it is about is of the network. -/
structure Signed (g : Grove) (v w : NodeId) (e : Event) : Prop where
  source : e.source.id = v
  known : e.source ∈ g.atlas.peers
  receiver : ∃ p ∈ g.atlas.peers, p.id = w
  named : ∀ origin message, e = .message origin message →
    ∀ p ∈ message.named, p ∈ g.atlas.peers
  death : e.isDeath = true → g.node? v = none

/-- Whether a new rank is told of anywhere. -/
def Stirred (g : Grove) : Prop := ∃ v w, ∃ e ∈ g.queue v w, e.isUpdate = true

/-- While a node looks for a father, nobody is told of a new rank unless some root has it for
a child already. -/
def Hosted (g : Grove) : Prop :=
  ∀ w m, g.node? w = some m → m.isLooking = true → g.Stirred →
    ∃ u n, g.node? u = some n ∧ n.position.father = none ∧ n.position.has w = true ∧
      (m.stance u).shuns = false

/-- What holds in a grove at every moment. -/
structure Invariant (g : Grove) : Prop where
  knows : ∀ u n, g.node? u = some n → n.Knows (· ∈ g.atlas.peers)
  solo : ∀ u n, g.node? u = some n → n.Solo u
  facing : ∀ u n v, g.node? u = some n → v ≠ u →
    Facing (g.node? v) n.self (n.stance v) (g.queue v u) (g.queue u v) (g.refs u v)
  apart : ∀ u, g.refs u u = 0 ∧ g.queue u u = []
  one : g.OneAtATime
  signed : ∀ v w, ∀ e ∈ g.queue v w, g.Signed v w e
  hosted : g.Hosted

/-- A grove without some of what was on its way to a node. -/
structure Spends (g : Grove) (u : NodeId) (g' : Grove) : Prop where
  atlas : g'.atlas = g.atlas
  node? : g'.node? = g.node?
  refs : g'.refs = g.refs
  others : ∀ x y, y ≠ u → g'.queue x y = g.queue x y
  rest : ∀ x, ∀ e ∈ g'.queue x u, e ∈ g.queue x u

variable {g g' : Grove} {u v w : NodeId} {n m : Node} {e : Event} {later : List Event}
  {ws : Words} {t : Session Berth}

theorem spends_refl (g : Grove) (u : NodeId) : g.Spends u g :=
  ⟨rfl, rfl, rfl, fun _ _ _ => rfl, fun _ _ => id⟩

theorem spends_dropOldest (g : Grove) (v u : NodeId) : g.Spends u (g.dropOldest v u) := by
  refine ⟨rfl, rfl, rfl, fun x y hy => ?_, fun x e he => ?_⟩
  · simp [dropOldest, hy]
  · simp only [dropOldest] at he
    split at he
    · exact List.mem_of_mem_tail he
    · exact he

theorem queue_dropOldest (hqueue : g.queue v u = e :: later) :
    (fun x => (g.dropOldest v u).queue x u) = Function.update (fun x => g.queue x u) v later := by
  funext x
  by_cases hx : x = v
  · subst hx
    simp [dropOldest, hqueue]
  · simp [dropOldest, hx]

/-! ## A node and the others -/

theorem Invariant.id_of_node (h : g.Invariant) : ∀ v m, g.node? v = some m → m.self.id = v :=
  fun v m hm => (h.solo v m hm).self

theorem Invariant.pair (h : g.Invariant) (hn : g.node? u = some n) (hm : g.node? v = some m)
    (hne : v ≠ u) :
    PairInvariant n.self m.self (n.stance v) (m.stance u) (g.queue v u) (g.queue u v)
    (g.refs u v) := by
  have hpair := (h.facing u n v hn hne).pair hm
  rwa [h.id_of_node u n hn] at hpair

/-- A node at work begins in order with everyone. -/
theorem Invariant.fits_session (h : g.Invariant) (hspends : g.Spends u g')
    (hn : g.node? u = some n) (ws : Words) :
    (g'.session n ws).Fits g (fun v => g.queue v u) u where
  post := by
    change (⟨g'.atlas, n.self, fun v => (g'.node? v).isSome⟩ : Post) = _
    rw [hspends.atlas, hspends.node?]
    rfl
  solo := h.solo u n hn
  facing v hv := by
    have hfacing := h.facing u n v hn hv
    change Facing (g.node? v) n.self (n.stance v) (g.queue v u) (g'.queue n.self.id v)
      (g'.refs n.self.id v)
    rwa [h.id_of_node u n hn, hspends.refs, hspends.others u v hv]
  apart := by
    change g'.refs n.self.id u = 0 ∧ g'.queue n.self.id u = []
    rw [h.id_of_node u n hn, hspends.refs]
    refine ⟨(h.apart u).1, List.eq_nil_iff_forall_not_mem.2 fun e he => ?_⟩
    have hold := hspends.rest u e he
    rw [(h.apart u).2] at hold
    cases hold

/-! ## After an act -/

theorem node?_after (hspends : g.Spends u g') (t : Session Berth) (v : NodeId) :
    (g'.after u t).node? v = if v = u then some t.node else g.node? v := by
  simp [after, Function.update_apply, hspends.node?]

theorem node?_after_cases (hspends : g.Spends u g')
    (hm : (g'.after u t).node? v = some m) :
    v = u ∧ m = t.node ∨ v ≠ u ∧ g.node? v = some m := by
  rw [node?_after hspends] at hm
  split at hm
  · rename_i hv
    exact Or.inl ⟨hv, (Option.some.inj hm).symm⟩
  · rename_i hv
    exact Or.inr ⟨hv, hm⟩

/-- What is on its way after an act the node has put there, or it was so before. -/
theorem mem_queue_after (hspends : g.Spends u g') (he : e ∈ (g'.after u t).queue v w) :
    v = u ∧ e ∈ t.outside.out w ∨ v ≠ u ∧ e ∈ g.queue v w := by
  change e ∈ if v = u then t.outside.out w else g'.queue v w at he
  split at he
  · rename_i hv
    exact Or.inl ⟨hv, he⟩
  · rename_i hv
    refine Or.inr ⟨hv, ?_⟩
    by_cases hw : w = u
    · subst hw
      exact hspends.rest v e he
    · rwa [hspends.others v w hw] at he

/-- What a node has on its way before it acts. -/
theorem Invariant.mem_out (h : g.Invariant) (hspends : g.Spends u g') (hn : g.node? u = some n)
    (he : e ∈ (g'.session n ws).outside.out w) : e ∈ g.queue u w := by
  change e ∈ g'.queue n.self.id w at he
  rw [h.id_of_node u n hn] at he
  by_cases hw : w = u
  · subst hw
    exact hspends.rest w e he
  · rwa [hspends.others u w hw] at he

/-- What a node that is in order with everyone has on its way goes to nodes of the network. -/
theorem Invariant.receiver_of_fits (h : g.Invariant) {inbox : NodeId → List Event}
    (hfits : t.Fits g inbox u) (he : e ∈ t.outside.out w) : ∃ p ∈ g.atlas.peers, p.id = w := by
  by_cases hw : w = u
  · subst hw
    rw [hfits.apart.2] at he
    cases he
  · have hfacing := hfits.facing w hw
    cases hm : g.node? w with
    | some m => exact ⟨m.self, (h.knows w m hm).self, h.id_of_node w m hm⟩
    | none =>
        have hw := hfacing.widow hm
        rw [hw.silent] at he
        cases he

/-- Everything on its way is in order after an act. -/
theorem Invariant.signed_after (h : g.Invariant) (hspends : g.Spends u g') (hn : g.node? u = some n)
    {inbox : NodeId → List Event} (hfits : t.Fits g inbox u)
    (hvouches : (g'.session n ws).Vouches (· ∈ g.atlas.peers) t)
    (he : e ∈ (g'.after u t).queue v w) : (g'.after u t).Signed v w e := by
  have hatlas : (g'.after u t).atlas = g.atlas := hspends.atlas
  have hkeep : g.Signed v w e → (g'.after u t).Signed v w e := fun hsigned => by
    refine ⟨hsigned.source, hatlas ▸ hsigned.known, hatlas ▸ hsigned.receiver,
      hatlas ▸ hsigned.named, fun hdeath => ?_⟩
    have hnone := hsigned.death hdeath
    rw [node?_after hspends, if_neg, hnone]
    rintro rfl
    rw [hn] at hnone
    cases hnone
  rcases mem_queue_after hspends he with ⟨rfl, hout⟩ | ⟨_, hbefore⟩
  · have hid := h.id_of_node v n hn
    have hself : n.self ∈ (g'.after v t).atlas.peers := hatlas ▸ (h.knows v n hn).self
    have hreceiver : ∃ p ∈ (g'.after v t).atlas.peers, p.id = w :=
      hatlas ▸ h.receiver_of_fits hfits hout
    rcases Session.mem_out_of_keeps hvouches.keeps hout with
      hold | rfl | rfl | ⟨peer, message, delivered, rfl, hnamed⟩
    · exact hkeep (h.signed v w e (h.mem_out hspends hn hold))
    · exact ⟨hid, hself, hreceiver, by simp, by simp [Event.isDeath]⟩
    · exact ⟨hid, hself, hreceiver, by simp, by simp [Event.isDeath]⟩
    · refine ⟨hid, hself, hreceiver, fun origin message' heq => ?_, by simp [Event.isDeath]⟩
      cases heq
      rw [hatlas]
      exact hnamed
  · exact hkeep (h.signed v w e hbefore)

/-- After an act that is in order with everyone, everyone is in order with everyone. -/
theorem Invariant.facing_after (h : g.Invariant) (hspends : g.Spends u g') (hn : g.node? u = some n)
    (hfits : t.Fits g (fun v => g'.queue v u) u) (hm : (g'.after u t).node? v = some m)
    (hne : w ≠ v) :
    Facing ((g'.after u t).node? w) m.self (m.stance w) ((g'.after u t).queue w v)
      ((g'.after u t).queue v w) ((g'.after u t).refs v w) := by
  rw [node?_after hspends]
  rcases node?_after_cases hspends hm with ⟨rfl, rfl⟩ | ⟨hv, hold⟩
  · have hfacing := hfits.facing w hne
    simpa [after, hne] using hfacing
  · by_cases hw : w = u
    · subst hw
      have hsymm := ((hfits.facing v hv).pair hold).symm
      rw [hfits.solo.self] at hsymm
      rw [if_pos rfl]
      change PairInvariant _ _ _ _ _ _ _
      simpa [after, h.id_of_node v m hold, hv] using hsymm
    · have hfacing := h.facing v m w hold hne
      rw [if_neg hw]
      simpa [after, hv, hw, hspends.refs, hspends.others] using hfacing

/-- An act that is in order with everyone leaves a grove in order. -/
theorem Invariant.after (h : g.Invariant) (hspends : g.Spends u g') (hn : g.node? u = some n)
    (hfits : t.Fits g (fun v => g'.queue v u) u)
    (hvouches : (g'.session n ws).Vouches (· ∈ g.atlas.peers) t)
    (hone : t.node.isEngaged = true → ∀ v m, v ≠ u → g.node? v = some m → m.isEngaged = false)
    (hhosted : (g'.after u t).Hosted) : (g'.after u t).Invariant where
  knows v m hm := by
    change m.Knows (· ∈ g'.atlas.peers)
    rw [hspends.atlas]
    rcases node?_after_cases hspends hm with ⟨_, rfl⟩ | ⟨_, hold⟩
    · exact hvouches.node
    · exact h.knows v m hold
  solo v m hm := by
    rcases node?_after_cases hspends hm with ⟨rfl, rfl⟩ | ⟨_, hold⟩
    · exact hfits.solo
    · exact h.solo v m hold
  facing v m w hm hne := h.facing_after hspends hn hfits hm hne
  apart v := by
    by_cases hv : v = u
    · subst hv
      simpa [Grove.after] using hfits.apart
    · simpa [Grove.after, hv, hspends.refs, hspends.others] using h.apart v
  one v m w k hm hk hengaged hengaged' := by
    rcases node?_after_cases hspends hm with ⟨rfl, rfl⟩ | ⟨hv, hold⟩ <;>
      rcases node?_after_cases hspends hk with ⟨rfl, rfl⟩ | ⟨hw, hold'⟩
    · rfl
    · rw [hone hengaged w k hw hold'] at hengaged'
      cases hengaged'
    · rw [hone hengaged' v m hv hold] at hengaged
      cases hengaged
    · exact h.one v m w k hold hold' hengaged hengaged'
  signed v w e he := h.signed_after hspends hn hfits hvouches he
  hosted := hhosted

/-! ## Whom a new rank is told of -/

theorem hosted_of_idle (h : g.Idle) : g.Hosted := by
  intro w m hm hlooks
  rw [(Node.idle_of_not_engaged (h w m hm)).1] at hlooks
  cases hlooks

/-- A new rank that is told of after discreet work was so before. -/
theorem Invariant.stirred_of_discreet (h : g.Invariant) (hspends : g.Spends u g')
    (hn : g.node? u = some n) (hkeeps : (g'.session n ws).Keeps .discreet t)
    (hstirred : (g'.after u t).Stirred) : g.Stirred := by
  obtain ⟨x, y, e, he, hupdate⟩ := hstirred
  rcases mem_queue_after hspends he with ⟨rfl, hout⟩ | ⟨_, hbefore⟩
  · rcases Session.mem_out_of_keeps hkeeps hout with
      hold | rfl | rfl | ⟨peer, message, delivered, rfl, hdiscreet⟩
    · exact ⟨x, y, e, h.mem_out hspends hn hold, hupdate⟩
    · cases hupdate
    · cases hupdate
    · have hquiet : message.isUpdate = false := hdiscreet
      rw [show message.isUpdate = true from hupdate] at hquiet
      cases hquiet
  · exact ⟨x, y, e, hbefore, hupdate⟩

/-- While a node has a father and a new rank is told of, nobody waits for the node that it has
accepted: the root that hosts whoever looks for a father is another. -/
theorem Invariant.ungranted (h : g.Invariant) (hn : g.node? u = some n)
    (hfather : n.position.father ≠ none) (hstirred : g.Stirred) (hne : v ≠ u)
    (hm : g.node? v = some m) : grant (m.stance u).taken (g.queue u v) = none := by
  have hpair := h.pair hn hm hne
  cases hgrant : grant (m.stance u).taken (g.queue u v) with
  | none => rfl
  | some rank =>
      have hawaits := hpair.there.awaits_of_grant hgrant
      have hlooks : m.isLooking = true := (hpair.there.seeks hawaits).1
      have hroot := (h.solo v m hm).root (Node.isSeeking_of_looking hlooks)
      obtain ⟨x, k, hk, hkroot, hhas, hshuns⟩ := h.hosted v m hm hlooks hstirred
      have hvx : v ≠ x := by
        rintro rfl
        rw [(h.solo v k hk).apart.1] at hhas
        cases hhas
      have hpair' := h.pair hk hm hvx
      have hunder : (k.stance v).under = false := by
        simp [Node.stance, Position.under, hkroot]
      have hbeside : (k.stance v).has = true := by
        simp [Node.stance, hhas, (h.solo x k hk).leaves_of_root hkroot]
      rcases hpair'.here.claimed hbeside hunder with hchild | hloss | hsome
      · have hnot : (m.stance x).under = false := by simp [Node.stance, Position.under, hroot]
        rw [hnot] at hchild
        cases hchild
      · have hlost := (hpair'.there.calm hlooks hshuns).2.1 hloss
        rw [hbeside] at hlost
        cases hlost
      · -- A node that waits for two others is none.
        obtain ⟨rank', hgrant'⟩ := Option.isSome_iff_exists.1 hsome
        have hawaits' := hpair'.there.awaits_of_grant hgrant'
        obtain ⟨negotiation, hslot, rfl, _⟩ := (h.solo v m hm).negotiates hawaits
        obtain ⟨negotiation', hslot', rfl, _⟩ := (h.solo v m hm).negotiates hawaits'
        rw [hslot] at hslot'
        cases hslot'
        rw [hn] at hk
        cases hk
        exact absurd hkroot hfather

end Grove

/-- Who is a neighbor stays one, whatever the node experiences, but for the loss of it. -/
theorem Node.Shift.has {n : Node} {e : Event} {p : Position} {w : NodeId}
    (h : n.Shift (.event e) p)
    (hw : n.position.has w = true) (hloss : e.matter = .loss → e.source.id ≠ w) :
    p.has w = true := by
  have hforget : ∀ peer : Peer, (Act.event e).Parts peer →
      (n.position.forget peer).has w = true := by
    intro peer hparts
    rw [Position.has_forget, hw]
    have hpeer : w ≠ peer.id := by
      rintro rfl
      cases e with
      | closed p | dead p =>
          obtain rfl : p = peer := hparts
          exact hloss rfl rfl
      | opened p => exact hparts.elim
      | message origin message =>
          cases message with
          | noLongerChild =>
              obtain rfl : origin = peer := hparts
              exact hloss rfl rfl
          | _ => exact hparts.elim
    simpa using hpeer
  cases h with
  | forget parts other => exact hforget _ parts
  | lose parts broker father => exact hforget _ parts
  | welcome verdict =>
      rename_i child _ admission _ _
      cases hbroker : child.broker with
      | true => exact (Position.has_add hbroker _).trans (by simp [hw])
      | false => simpa [Position.welcome, Position.has, Neighbors.add, hbroker] using hw
  | heed father =>
      rw [Position.has_heed]
      exact hw
  | serve sort => simpa [Position.has, Neighbors.add, sort] using hw
  | stay | keepHint | takeHint | hear | bury | greet => exact hw

namespace Grove

variable {g g' : Grove} {u v w : NodeId} {n m : Node} {e : Event} {later : List Event}
  {ws : Words} {t : Session Berth}

/-- While the word of a new rank is about, whoever hosts a node that looks for a father goes on
doing so, whatever it experiences. -/
theorem Invariant.host_deliver (h : g.Invariant) (hn : g.node? u = some n)
    (hqueue : g.queue v u = e :: later) (ws : Words) {w : NodeId} {k : Node}
    (hk : g.node? w = some k) (hlooks : k.isLooking = true) (hstirred : g.Stirred) :
    ∃ x n', ((g.dropOldest v u).after u (((g.dropOldest v u).session n ws).onEvent e)).node? x =
      some n' ∧ n'.position.father = none ∧ n'.position.has w = true ∧
        (k.stance x).shuns = false := by
  let s := (g.dropOldest v u).session n ws
  have hspends := spends_dropOldest g v u
  have hturns : s.Turns (.event e) (s.onEvent e) := Session.turns_onEvent s e
  have hfather : n.position.father = none → (s.onEvent e).node.position.father = none :=
    fun hnone => hturns.shift.father.elim (fun hsame => hsame.elim (fun h => h.trans hnone) id)
      fun hresume => Act.noConfusion hresume.1
  obtain ⟨x, n', hx, hroot, hhas, hshun⟩ := h.hosted w k hk hlooks hstirred
  by_cases hxu : x = u
  · subst hxu
    rw [hn] at hx
    cases hx
    have hwx : w ≠ x := by
      rintro rfl
      rw [(h.solo w n hn).apart.1] at hhas
      cases hhas
    have hbeside : (n.stance w).has = true := by
      simp [Node.stance, hhas, (h.solo x n hn).leaves_of_root hroot]
    have hcalm := ((h.pair hn hk hwx).there.calm hlooks hshun).2.1
    have hkeep := hturns.shift.has hhas fun hloss hsource => ?_
    · exact ⟨x, (s.onEvent e).node, by rw [node?_after hspends, if_pos rfl], hfather hroot,
        hkeep, hshun⟩
    · have hlost := hcalm (by
        rw [← hsource, (h.signed v x e (by simp [hqueue])).source, hqueue]
        simp [hloss])
      rw [hbeside] at hlost
      cases hlost
  · exact ⟨x, n', by rw [node?_after hspends, if_neg hxu, hx], hroot, hhas, hshun⟩

/-- After a node has experienced something, whoever looks for a father is still hosted. -/
theorem Invariant.hosted_deliver (h : g.Invariant) (hn : g.node? u = some n)
    (hqueue : g.queue v u = e :: later) (ws : Words) :
    ((g.dropOldest v u).after u (((g.dropOldest v u).session n ws).onEvent e)).Hosted := by
  let s := (g.dropOldest v u).session n ws
  have hspends := spends_dropOldest g v u
  have hsigned := h.signed v u e (by simp [hqueue])
  have hvu : v ≠ u := by
    rintro rfl
    rw [(h.apart v).2] at hqueue
    cases hqueue
  have hslot : (s.onEvent e).node.slot = n.slot := (Session.meanwhile_event s e).2
  intro w m hm hlooks hstirred
  -- Whoever looks for a father did so before.
  obtain ⟨k, hk, hkslot⟩ : ∃ k, g.node? w = some k ∧ m.slot = k.slot := by
    rcases node?_after_cases hspends hm with ⟨rfl, rfl⟩ | ⟨_, hold⟩
    · exact ⟨n, hn, hslot⟩
    · exact ⟨m, hold, rfl⟩
  have hklooks : k.isLooking = true := (Node.isLooking_congr hkslot).symm.trans hlooks
  have hshuns : ∀ x, (m.stance x).shuns = (k.stance x).shuns := fun x => by
    unfold Node.stance
    rw [hkslot]
  simp only [hshuns]
  have hbroker := g.atlas.brokers _ hsigned.known
  rcases Session.discreet_onEvent s hbroker with hdiscreet | hupdate | ⟨request, heq, hroot, hhas⟩
  · exact h.host_deliver hn hqueue ws hk hklooks
      (h.stirred_of_discreet hspends hn hdiscreet hstirred)
  · exact h.host_deliver hn hqueue ws hk hklooks ⟨v, u, e, by simp [hqueue], hupdate⟩
  · -- Whoever has sent a request looks for a father, and nobody else does.
    obtain ⟨c, hc⟩ := (h.fits_session (spends_refl g u) hn ws).live hvu hqueue
      (by rw [heq]; rfl)
    have hpair := h.pair hn hc hvu
    rw [hqueue] at hpair
    have howed := hpair.owed (by rw [heq]; rfl)
    obtain ⟨hclooks, hcshuns⟩ := hpair.there.seeks howed.awaits
    have hengaged : ∀ {j : Node}, j.isLooking = true → j.isEngaged = true := fun hj =>
      Node.isEngaged_of_seeking (Node.isSeeking_of_looking hj)
    obtain rfl : w = v := h.one w k v c hk hc (hengaged hklooks) (hengaged hclooks)
    rw [hk] at hc
    cases hc
    rw [hsigned.source] at hhas
    exact ⟨u, (s.onEvent e).node, by rw [node?_after hspends, if_pos rfl], hroot, hhas, hcshuns⟩

/-- A reconfiguration that goes on without a word of a new rank is still hosted. -/
theorem Invariant.hosted_goesOn (h : g.Invariant) (hn : g.node? u = some n)
    (hbusy : n.isEngaged = true) (hlooking : t.node.isLooking = true → n.isLooking = true)
    (hgoesOn : t.node.isEngaged = false ∨ (g.session n ws).GoesOn t) : (g.after u t).Hosted := by
  have hspends := spends_refl g u
  have hothers : ∀ v m, v ≠ u → g.node? v = some m → m.isEngaged = false := fun v m hv hm => by
    by_contra hengaged
    exact hv (h.one v m u n hm hn (by simpa using hengaged) hbusy)
  rcases hgoesOn with hidle | hgoesOn
  · refine hosted_of_idle fun v m hm => ?_
    rcases node?_after_cases hspends hm with ⟨_, rfl⟩ | ⟨hv, hold⟩
    · exact hidle
    · exact hothers v m hv hold
  · intro w m hm hlooks hstirred
    have hold := h.stirred_of_discreet hspends hn hgoesOn.keeps hstirred
    rcases node?_after_cases hspends hm with ⟨rfl, rfl⟩ | ⟨hv, hold⟩
    · obtain ⟨x, n', hx, hroot, hhas, hshun⟩ := h.hosted w n hn (hlooking hlooks) hold
      have hxw : x ≠ w := by
        rintro rfl
        rw [(h.solo x n' hx).apart.1] at hhas
        cases hhas
      refine ⟨x, n', by rw [node?_after hspends, if_neg hxw, hx], hroot, hhas, ?_⟩
      change (t.node.slot.holder.bind Holder.dead).any _ = false
      rcases hgoesOn.dead with hsame | hnone
      · rw [hsame]
        exact hshun
      · rw [hnone]
        rfl
    · rw [(Node.idle_of_not_engaged (hothers w m hv hold)).1] at hlooks
      cases hlooks

/-! ## What can happen -/

/-- Nobody but who looks for a father looks for one. -/
theorem Invariant.idle_of_engaged (h : g.Invariant) (hn : g.node? u = some n)
    (hbusy : n.isEngaged = true) : ∀ v m, v ≠ u → g.node? v = some m → m.isEngaged = false := by
  intro v m hv hm
  by_contra hengaged
  exact hv (h.one v m u n hm hn (by simpa using hengaged) hbusy)

/-- A node begins to act among links that lead to nodes of the network. -/
theorem finds_session (hspends : g.Spends u g') :
    Finds (· ∈ g.atlas.peers) (g'.session n ws).outside := by
  have hfinds := (g'.session n ws).outside.finds
  rwa [show (g'.session n ws).outside.atlas = g.atlas from hspends.atlas] at hfinds

/-- An operation starts. -/
theorem Invariant.order (h : g.Invariant) (hrest : g.AtRest) (hn : g.node? u = some n) {a : Act}
    (horder : a.isOrder = true) (ws : Words) :
    (g.after u (a.run (g.session n ws))).Invariant := by
  have hspends := spends_refl g u
  have hslot : (a.run (g.session n ws)).node.slot = n.slot := by
    refine (Session.meanwhile_of_aside ?_ ?_ ?_).2
    · rintro errand rfl
      cases horder
    · rintro rfl
      cases horder
    · rintro rfl
      cases horder
  have hidle : (a.run (g.session n ws)).node.isEngaged = false := by
    rw [Node.isEngaged_congr hslot]
    exact hrest.2.1 u n hn
  refine h.after hspends hn ?_ (Session.vouches_run (h.knows u n hn) (finds_session hspends) ?_ ?_)
    (fun hbusy => ?_) (hosted_of_idle fun v m hm => ?_)
  · exact (h.fits_session hspends hn ws).order h.id_of_node (fun v => hrest.1 v u)
      (fun v => hrest.1 _ v) (hrest.2.1 u n hn) hrest.2.1 horder
  · rintro e rfl
    cases horder
  · rintro rfl
    cases horder
  · rw [hidle] at hbusy
    cases hbusy
  · rcases node?_after_cases hspends hm with ⟨_, rfl⟩ | ⟨_, hold⟩
    · exact hidle
    · exact hrest.2.1 v m hold

/-- A node experiences something. -/
theorem Invariant.deliver (h : g.Invariant) (hn : g.node? u = some n)
    (hqueue : g.queue v u = e :: later) {ws : Words} (room : (Act.event e).Roomy n ws) :
    ((g.dropOldest v u).after u
      ((Act.event e).run ((g.dropOldest v u).session n ws))).Invariant := by
  have hspends := spends_dropOldest g v u
  have hsigned := h.signed v u e (by simp [hqueue])
  have hvu : e.source.id ≠ u := by
    rw [hsigned.source]
    rintro rfl
    rw [(h.apart v).2] at hqueue
    cases hqueue
  refine h.after hspends hn ?_ (Session.vouches_run (h.knows u n hn) (finds_session hspends) ?_
    Act.noConfusion) (fun hbusy => ?_) (h.hosted_deliver hn hqueue ws)
  · have hinbox : (fun x => (g.dropOldest v u).queue x u) =
        Function.update (fun x => g.queue x u) e.source.id later := by
      rw [hsigned.source]
      exact queue_dropOldest hqueue
    rw [hinbox]
    refine (h.fits_session hspends hn ws).onEvent h.id_of_node h.one ⟨n, hn, rfl⟩ hvu
      hsigned.known (by rw [hsigned.source]; exact hqueue) room ?_
    rintro origin news rfl hfather v' m hv' hm
    refine Eq.trans ?_ (h.ungranted hn hfather
      ⟨v, u, .message origin (.update news), by simp [hqueue], rfl⟩ hv' hm)
    congr 1
    change (g.dropOldest v u).queue n.self.id v' = _
    rw [h.id_of_node u n hn, hspends.others u v' hv']
  · rintro e' heq
    cases heq
    exact ⟨hsigned.known, hsigned.named⟩
  · refine h.idle_of_engaged hn ((Node.isEngaged_congr ?_).symm.trans hbusy)
    exact (Session.meanwhile_event ((g.dropOldest v u).session n ws) e).2

/-- While an errand can begin nobody is told of a new rank. -/
theorem not_stirred_of_clear {errand : Errand} (h : g.Clear u errand) : ¬g.Stirred := by
  rintro ⟨x, y, e, he, hupdate⟩
  cases errand with
  | repair lost =>
      have hleft : Leftover u lost x y e := h x y e he
      rcases e with ⟨origin, message⟩ | _ | _ | _
      · cases message with
        | update news => simp [Leftover, Event.isDeath, Event.isObituary, Event.isLoss] at hleft
        | _ => cases hupdate
      all_goals cases hupdate
  | connect _ | join _ | reroot =>
      have hsilent : g.Silent := h
      rw [hsilent x y] at he
      cases he

/-- While a node can begin to look for a father in place of one that it lost, nothing of the
past is on its way between it and anyone else that lives. -/
theorem Invariant.calm_of_clear (h : g.Invariant) {lost : Peer} (hclear : g.Clear u (.repair lost))
    (hn : g.node? u = some n) (hm : g.node? v = some m) (hne : v ≠ u) (hlost : lost.id ≠ v) :
    carries (g.queue v u) .loss = false ∧ carries (g.queue u v) .loss = false ∧
      carries (g.queue v u) .news = false := by
  have hleft : ∀ x y, ∀ e ∈ g.queue x y, Leftover u lost x y e := hclear
  have hlives : ∀ x y k, g.node? x = some k → ∀ e ∈ g.queue x y, e.isDeath = false := by
    intro x y k hk e he
    by_contra hdeath
    have hnone := (h.signed x y e he).death (by simpa using hdeath)
    rw [hk] at hnone
    cases hnone
  have hin : ∀ e ∈ g.queue v u, False := by
    intro e he
    rcases hleft v u e he with hdeath | ⟨_, hsource⟩ | ⟨_, ⟨hvu, _⟩ | ⟨hvlost, _⟩⟩
    · rw [hlives v u m hm e he] at hdeath
      cases hdeath
    · exact hlost (hsource rfl).symm
    · exact hne hvu
    · exact hlost hvlost.symm
  have hout : ∀ e ∈ g.queue u v, e.matter ≠ .loss := by
    intro e he hloss
    rcases hleft u v e he with hdeath | ⟨hobituary, _⟩ | ⟨_, ⟨_, hvlost⟩ | ⟨_, hvu⟩⟩
    · rw [hlives u v n hn e he] at hdeath
      cases hdeath
    · rcases e with ⟨origin, message⟩ | _ | _ | _
      · cases message <;> simp [Event.isObituary, Event.matter] at hobituary hloss
      all_goals cases hobituary
    · exact hlost hvlost.symm
    · exact hne hvu
  rw [List.eq_nil_iff_forall_not_mem.2 hin]
  refine ⟨rfl, ?_, rfl⟩
  simpa [carries] using hout

/-- An errand begins. -/
theorem Invariant.begin (h : g.Invariant) (hn : g.node? u = some n) {errand : Errand}
    (hidle : g.Idle) (hclear : g.Clear u errand) (ws : Words) :
    (g.after u ((Act.begin errand).run (g.session n ws))).Invariant := by
  have hspends := spends_refl g u
  let s := (g.session n ws).withNode { n with errands := n.errands.erase errand }
  have hfits : s.Fits g (fun v => g.queue v u) u :=
    (h.fits_session hspends hn ws).aside rfl rfl
  have hout : ∀ v, s.outside.out v = g.queue u v := fun v => by
    change g.queue n.self.id v = _
    rw [h.id_of_node u n hn]
  refine h.after hspends hn (hfits.begin (hidle u n hn) hidle errand ?_ ?_)
    (Session.vouches_run (h.knows u n hn) (finds_session hspends) (fun _ => Act.noConfusion)
      Act.noConfusion) (fun _ v m _ hm => hidle v m hm) ?_
  · intro hother v
    have hsilent : g.Silent := by
      cases errand with
      | repair lost => exact absurd rfl (hother lost)
      | connect _ | join _ | reroot => exact hclear
    rw [hout]
    exact ⟨hsilent v u, hsilent u v⟩
  · rintro lost rfl v m hv hm hlost
    rw [hout]
    exact h.calm_of_clear hclear hn hm hv hlost
  · intro w m hm hlooks hstirred
    have hkeeps : (g.session n ws).Keeps .discreet (s.begin errand) :=
      (Session.keeps_withNode _ _).trans (Session.discreet_begin s errand)
    exact absurd (h.stirred_of_discreet hspends hn hkeeps hstirred) (not_stirred_of_clear hclear)

/-- Whom a node is to ask is not the father that it lost. -/
theorem Invariant.shuns_of_opening (h : g.Invariant) (hn : g.node? u = some n) {attempt : Attempt}
    (hslot : n.slot.holder = some (.opening attempt)) {p : Peer}
    (hp : g.atlas.resolve attempt.url = some p) : (n.stance p.id).shuns = false := by
  have hknows : attempt.Knows (· ∈ g.atlas.peers) := (h.knows u n hn).holder _ hslot
  change (n.slot.holder.bind Holder.dead).any _ = false
  rw [hslot]
  change (attempt.purpose.search?.bind Search.dead).any _ = false
  cases hsearch : attempt.purpose.search? with
  | none => rfl
  | some search =>
      obtain ⟨q, hq, hurl, hother⟩ := hknows.2 search hsearch
      obtain ⟨url, hurl', hresolve⟩ := g.atlas.resolves q hq
      obtain rfl : attempt.url = url := Option.some.inj (hurl.symm.trans hurl')
      obtain rfl : p = q := Option.some.inj (hp.symm.trans hresolve)
      rw [← hother, Bool.eq_iff_iff, Peer.isThe_iff]
      simp only [Option.bind_some, Option.any_eq_true, decide_eq_true_eq]
      exact exists_congr fun _ => and_congr_right fun _ => eq_comm

/-- A reconfiguration goes on by one step. -/
theorem Invariant.advance (h : g.Invariant) (hn : g.node? u = some n)
    (hready : n.isReady = true) (ws : Words) :
    (g.after u (Act.advance.run (g.session n ws))).Invariant := by
  have hspends := spends_refl g u
  have hbusy := Node.isEngaged_of_ready hready
  have hothers := h.idle_of_engaged hn hbusy
  exact h.after hspends hn
    ((h.fits_session hspends hn ws).advance h.id_of_node
      (fun attempt hslot p hp => h.shuns_of_opening hn hslot hp) hothers)
    (Session.vouches_run (h.knows u n hn) (finds_session hspends) (fun _ => Act.noConfusion)
      Act.noConfusion)
    (fun _ => hothers)
    (h.hosted_goesOn hn hbusy Session.looking_of_advance (Session.goesOn_advance _))

/-- The wait for an answer ends. -/
theorem Invariant.resume (h : g.Invariant) (hn : g.node? u = some n) {negotiation : Negotiation}
    (hslot : n.slot.holder = some (.negotiating negotiation))
    (hready : n.mailbox.awaited = none ∨ g.Silent) {ws : Words}
    (room : Act.resume.Roomy n ws) :
    (g.after u (Act.resume.run (g.session n ws))).Invariant := by
  have hspends := spends_refl g u
  have hbusy : n.isEngaged = true := by simp [Node.isEngaged, hslot, Holder.isEngaged]
  have hothers := h.idle_of_engaged hn hbusy
  have hholder : (Holder.negotiating negotiation).Knows (· ∈ g.atlas.peers) :=
    (h.knows u n hn).holder _ hslot
  exact h.after hspends hn
    ((h.fits_session hspends hn ws).resume h.id_of_node hslot hholder.1 hothers
      (hready.imp_right fun hsilent => ⟨hsilent _ _, hsilent _ _⟩) room)
    (Session.vouches_run (h.knows u n hn) (finds_session hspends) (fun _ => Act.noConfusion)
      Act.noConfusion)
    (fun _ => hothers)
    (h.hosted_goesOn hn hbusy (fun _ => by simp [Node.isLooking, hslot, Holder.isLooking])
      (Session.goesOn_resume hslot))

/-- Nothing is on its way after a node has crashed, but the news of its death. -/
theorem mem_queue_crash (hrest : g.AtRest) {x y : NodeId}
    (he : e ∈ (g.crash n).queue x y) :
    x = n.self.id ∧ g.refs x y ≠ 0 ∧ e = .dead n.self := by
  simp only [crash, hrest.1 x y, List.nil_append] at he
  split at he
  · rename_i hx
    split at he
    · cases he
    · rename_i hrefs
      exact ⟨hx, hrefs, by simpa using he⟩
  · split at he <;> cases he

/-- A link leads to a node of the network. -/
theorem Invariant.receiver_of_linked (h : g.Invariant) (hn : g.node? u = some n)
    (hrefs : g.refs u w ≠ 0) : ∃ p ∈ g.atlas.peers, p.id = w := by
  have hne : w ≠ u := by
    rintro rfl
    exact hrefs (h.apart w).1
  have hfacing := h.facing u n w hn hne
  cases hm : g.node? w with
  | some m => exact ⟨m.self, (h.knows w m hm).self, h.id_of_node w m hm⟩
  | none =>
      have hw := hfacing.widow hm
      exact absurd hw.refs hrefs

/-- A node crashes. -/
theorem Invariant.crash (h : g.Invariant) (hrest : g.AtRest) (hn : g.node? u = some n) :
    (g.crash n).Invariant := by
  have hid := h.id_of_node u n hn
  have hnode : ∀ v, (g.crash n).node? v = if v = u then none else g.node? v := fun v => by
    simp [Grove.crash, Function.update_apply, hid]
  have hcases : ∀ v m, (g.crash n).node? v = some m → v ≠ u ∧ g.node? v = some m := by
    intro v m hm
    rw [hnode] at hm
    split at hm
    · cases hm
    · exact ⟨‹_›, hm⟩
  refine ⟨fun v m hm => h.knows v m (hcases v m hm).2, fun v m hm => h.solo v m (hcases v m hm).2,
    fun v m w hm hne => ?_, fun v => ?_, fun v m w k hm hk => h.one v m w k (hcases v m hm).2
      (hcases w k hk).2, fun v w e he => ?_, hosted_of_idle fun v m hm => hrest.2.1 v m
        (hcases v m hm).2⟩
  · obtain ⟨hv, hold⟩ := hcases v m hm
    rw [hnode]
    by_cases hw : w = u
    · -- Whoever had the node for a neighbor is told of its death.
      subst hw
      have hpair := h.pair hold hn hne
      have hlinks : (m.stance w).links = false := by
        rw [Node.stance_of_idle (hrest.2.1 v m hold)]
      have hrefs := (h.pair hn hold hne.symm).refs
      rw [if_pos rfl]
      change Widow (m.stance w) _ _ _
      refine ⟨hpair.here.beside, fun hhas => ?_, fun e he => ?_, hlinks, ?_, ?_⟩
      · have hlinked : g.refs w v ≠ 0 := by
          rw [hrefs, hhas, Bool.toNat_true]
          omega
        simp [Grove.crash, hid, hlinked]
      · rw [(mem_queue_crash hrest he).2.2]
        rfl
      · simp [Grove.crash, hid, hv]
      · simp [Grove.crash, hid]
    · have hfacing := h.facing v m w hold hne
      rw [if_neg hw]
      simpa [Grove.crash, hid, hv, hw] using hfacing
  · refine ⟨?_, List.eq_nil_iff_forall_not_mem.2 fun e he => ?_⟩
    · simp [Grove.crash, (h.apart v).1]
    · have hv := (mem_queue_crash hrest he).1
      rw [hid] at hv
      subst hv
      simp [Grove.crash, hid, (h.apart v).1, (h.apart v).2] at he
  · obtain ⟨rfl, hrefs, rfl⟩ := mem_queue_crash hrest he
    rw [hid] at hrefs
    refine ⟨rfl, (h.knows u n hn).self, h.receiver_of_linked hn hrefs, by simp, fun _ => ?_⟩
    rw [hnode, if_pos hid]

/-- How a newborn node stands towards another. -/
theorem Newborn.stance {self : Peer} (h : Newborn self n) (v : NodeId) :
    n.stance v = ⟨false, false, n.position.rank, none, false, false, none, false, false⟩ := by
  obtain ⟨settings, ws, rfl⟩ := h
  rfl

/-- Two nodes that know nothing of each other. -/
theorem pair_of_strangers (p q : Peer) (r r' : Rank) :
    PairInvariant p q ⟨false, false, r, none, false, false, none, false, false⟩
      ⟨false, false, r', none, false, false, none, false, false⟩ [] [] 0 := by
  constructor
  · constructor <;> simp [Tidy]
  · constructor <;> simp [Tidy]
  · rfl

/-- A grove is in order when all its nodes are newborn. -/
theorem Fresh.invariant (h : g.Fresh) : g.Invariant := by
  obtain ⟨hnewborn, hrefs, hsilent⟩ := h
  refine ⟨fun u n hn => ?_, fun u n hn => ?_, fun u n v hn hne => ?_,
    fun u => ⟨hrefs u u, hsilent u u⟩, fun v m w k hm _ hengaged => ?_, fun v w e he => ?_,
    hosted_of_idle fun v m hm => ?_⟩
  · obtain ⟨p, hp, -, settings, ws, rfl⟩ := hnewborn u n hn
    exact ⟨hp, ⟨by simp [Node.start, Position.start], by simp [Node.start, Position.start,
      Neighbors.empty], ⟨Pool.all_empty, Pool.all_empty⟩, Pool.all_empty, by
        simp [Node.start, Position.start, Global.empty]⟩, by simp [Node.start, Slot.free],
      fun response hnone => (by cases hnone)⟩
  · obtain ⟨p, hp, rfl, settings, ws, rfl⟩ := hnewborn u n hn
    exact ⟨rfl, fun _ => Position.stands_of_root rfl rfl, rfl, ⟨rfl, rfl⟩, fun _ => rfl,
      fun _ hnone => (by cases hnone), fun _ hnone => (by cases hnone),
      fun _ hnone => (by cases hnone), fun _ hnone => (by cases hnone), Bool.noConfusion⟩
  · obtain ⟨p, _, _, hborn⟩ := hnewborn u n hn
    rw [hborn.stance, hsilent, hsilent, hrefs]
    cases hm : g.node? v with
    | none => exact ⟨by simp, by simp, by simp, rfl, rfl, rfl⟩
    | some m =>
        obtain ⟨q, _, _, hborn'⟩ := hnewborn v m hm
        change PairInvariant _ _ _ _ _ _ _
        rw [hborn'.stance]
        exact pair_of_strangers ..
  · obtain ⟨p, _, _, settings, ws, rfl⟩ := hnewborn v m hm
    cases hengaged
  · rw [hsilent v w] at he
    cases he
  · obtain ⟨p, _, _, settings, ws, rfl⟩ := hnewborn v m hm
    rfl

/-- Whether there is room around the depths that occur: all that is assumed of the arithmetic
of depths. -/
def WithRoom : ActCondition := fun n ws a => a.Roomy n ws

instance (n : Node) (ws : Words) (a : Act) : Decidable (WithRoom n ws a) :=
  inferInstanceAs (Decidable (a.Roomy n ws))

/-- Whatever happens in a grove that is in order, it is in order afterwards. -/
theorem Invariant.step (h : g.Invariant) (hstep : Step WithRoom g g') : g'.Invariant := by
  cases hstep with
  | order ws rest node order meets => exact h.order rest node order ws
  | crash rest node => exact h.crash rest node
  | deliver ws node oldest meets => exact h.deliver node oldest meets
  | begin ws node possible idle clear meets => exact h.begin node idle clear ws
  | advance ws node ready meets => exact h.advance node ready ws
  | resume ws node negotiating ready meets => exact h.resume node negotiating ready meets

end Grove

end BrokerForest
