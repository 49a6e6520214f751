import BrokerForest.Tree
/-!
# Neighborhood: who is beside a node, by identity

Neighbors are told apart by their identities alone.  This module says whom each operation
on them adds and removes, and how the brokers part into the father and the children.

Main statements:

* `Position.has`, `Position.under` — whether an identity is a broker's beside the node, and
  whether it is the father's;
* `Position.mem_children_iff` — the children are the brokers other than the father;
* `Position.has_add`, `Position.has_forget` — who is beside the node afterwards.
-/

namespace BrokerForest

/-- Whether the peer of an identity is among the brokers beside a node. -/
def Position.has (p : Position) (v : NodeId) : Bool := p.neighbors.brokers.any fun q => q.id = v

/-- Whether the peer of an identity is the father. -/
def Position.under (p : Position) (v : NodeId) : Bool := p.father.any fun q => q.id = v

namespace Position

theorem has_id (p : Position) (q : Peer) : p.has q.id = p.neighbors.isBroker q := by
  rw [Bool.eq_iff_iff, Neighbors.isBroker, Peer.among_iff]
  simp only [has, List.any_eq_true, decide_eq_true_eq]
  exact exists_congr fun _ => and_congr_right fun _ => eq_comm

theorem under_id (p : Position) (q : Peer) : p.under q.id = p.isFather q := by
  rw [Bool.eq_iff_iff, isFather, Peer.isThe_iff]
  simp only [under, Option.any_eq_true, decide_eq_true_eq]
  exact exists_congr fun _ => and_congr_right fun _ => eq_comm

/-- There is one father at most. -/
theorem under_of_under {p : Position} {u : NodeId} (h : p.under u = true) (v : NodeId) :
    p.under v = decide (v = u) := by
  obtain ⟨father, hfather, hu⟩ : ∃ father, p.father = some father ∧ father.id = u := by
    simpa [under, Option.any_eq_true] using h
  subst hu
  simp [under, hfather, eq_comm]

theorem has_iff {p : Position} {v : NodeId} :
    p.has v = true ↔ v ∈ p.neighbors.brokers.map Peer.id := by
  simp [has]

/-- The children are the brokers other than the father. -/
theorem mem_children_iff {p : Position} {v : NodeId} :
    v ∈ p.children.map Peer.id ↔ p.has v = true ∧ p.under v = false := by
  constructor
  · intro h
    obtain ⟨q, hq, rfl⟩ := List.mem_map.1 h
    obtain ⟨hmem, hnot⟩ := List.mem_filter.1 hq
    rw [has_iff, under_id]
    exact ⟨List.mem_map.2 ⟨q, hmem, rfl⟩, by simpa [isFather] using hnot⟩
  · rintro ⟨hhas, hunder⟩
    obtain ⟨q, hq, rfl⟩ := List.mem_map.1 (has_iff.1 hhas)
    rw [under_id] at hunder
    exact List.mem_map.2 ⟨q, List.mem_filter.2 ⟨hq, by simpa [isFather] using hunder⟩, rfl⟩

theorem nodup_children (p : Position) : (p.children.map Peer.id).Nodup :=
  p.neighbors.brokers_inOrder.nodup.sublist (List.filter_sublist.map _)

end Position

/-! ## Neighbors by their identities -/

namespace Neighbors

theorem mem_erase {p : Peer} {peers : List Peer} (h : (peers.map Peer.id).Nodup) {v : NodeId} :
    v ∈ (peers.eraseP p.same).map Peer.id ↔ v ∈ peers.map Peer.id ∧ v ≠ p.id := by
  induction peers with
  | nil => simp
  | cons q rest ih =>
      rw [List.map_cons, List.nodup_cons] at h
      by_cases hsame : p.same q = true
      · have hid := Peer.same_iff.1 hsame
        rw [List.eraseP_cons_of_pos hsame, List.map_cons, List.mem_cons, hid]
        constructor
        · intro hv
          exact ⟨Or.inr hv, fun heq => h.1 (heq ▸ hv)⟩
        · rintro ⟨heq | hv, hne⟩
          · exact absurd heq hne
          · exact hv
      · have hid : q.id ≠ p.id := fun heq => hsame (Peer.same_iff.2 heq.symm)
        rw [List.eraseP_cons_of_neg hsame, List.map_cons, List.map_cons, List.mem_cons,
          List.mem_cons, ih h.2]
        constructor
        · rintro (rfl | ⟨hv, hne⟩)
          · exact ⟨Or.inl rfl, hid⟩
          · exact ⟨Or.inr hv, hne⟩
        · rintro ⟨heq | hv, hne⟩
          · exact Or.inl heq
          · exact Or.inr ⟨hv, hne⟩

end Neighbors

namespace Position

variable {p : Position}

/-- Who is forgotten is not among the brokers any more, and all others are that were. -/
theorem has_forget (p : Position) (q : Peer) (v : NodeId) :
    (p.forget q).has v = (p.has v && decide (v ≠ q.id)) := by
  rw [Bool.eq_iff_iff]
  simp only [Bool.and_eq_true, decide_eq_true_eq, has_iff, forget, Neighbors.remove]
  split
  · exact Neighbors.mem_erase p.neighbors.brokers_inOrder.nodup
  · rename_i hq
    refine ⟨fun hv => ⟨hv, ?_⟩, And.left⟩
    rintro rfl
    rw [← has_id, has_iff] at hq
    exact hq hv

/-- A broker that is added is among the brokers, besides all that were. -/
theorem has_add {q : Peer} (hbroker : q.broker = true) (v : NodeId) :
    { p with neighbors := p.neighbors.add q }.has v = (p.has v || decide (v = q.id)) := by
  rw [Bool.eq_iff_iff]
  simp only [has_iff, Neighbors.add, hbroker, if_true, Neighbors.mem_insert, Bool.or_eq_true,
    decide_eq_true_eq]
  exact or_comm

end Position

namespace Neighbors

variable {n : Neighbors} {p q : Peer}

/-- Who is a broker beside a node, by identity. -/
theorem isBroker_iff : n.isBroker p = true ↔ p.id ∈ n.brokers.map Peer.id := by
  rw [isBroker, Peer.among_iff, List.mem_map]
  exact exists_congr fun _ => and_congr_right fun _ => eq_comm

/-- Whoever is added, the brokers remain. -/
theorem isBroker_add (h : n.isBroker p = true) (q : Peer) : (n.add q).isBroker p = true := by
  unfold add
  split
  · rw [isBroker_iff, mem_insert]
    exact Or.inr (isBroker_iff.1 h)
  · exact h

/-- A broker that is added is a broker beside the node. -/
theorem isBroker_add_self (h : p.broker = true) : (n.add p).isBroker p = true := by
  rw [isBroker_iff, add, if_pos h, mem_insert]
  exact Or.inl rfl

/-- The brokers remain but for the one that is removed. -/
theorem isBroker_remove (h : n.isBroker p = true) (hne : p.id ≠ q.id) :
    (n.remove q).isBroker p = true := by
  unfold remove
  split
  · obtain ⟨r, hr, hid⟩ := Peer.among_iff.1 h
    refine Peer.among_iff.2 ⟨r, (List.mem_eraseP_of_neg ?_).2 hr, hid⟩
    rw [Peer.same_iff, ← hid]
    exact hne.symm
  · exact h

end Neighbors

end BrokerForest
