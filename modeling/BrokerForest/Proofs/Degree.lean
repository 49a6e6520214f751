import BrokerForest.Proofs.Neighborhood
import BrokerForest.Proofs.Shifts
/-!
# Degree: how many brokers can be beside a node

A node admits no child once its degree has reached the bound of its settings, and the degree
counts the father.  Nothing is compared when it attaches to a father, and the place of a
father that is lost or left is free again.  So the degree alone could exceed the bound by more with
every father that comes and goes; that it never exceeds it by more than the father itself
is a fact about the children, which only an admission adds to.

Main statements:

* `Position.Moderate` — the children are within a bound, and the degree exceeds it by the
  father at most;
* `Node.Shift.moderate` — each way in which an act moves a node keeps it;
* **`Life.degree_le`** — so it holds in every life without a forced request.
-/

namespace BrokerForest

/-- Whether an act is to experience a request to overlook the upper bound on the degree. -/
def Act.forces : Act → Bool
  | event (.message _ (.request request)) => request.force.maxDegree
  | _ => false

/-- No request of an episode is to overlook the upper bound on the degree. -/
def Episode.Unforced (e : Episode) : Prop := e.act.forces = false

instance (e : Episode) : Decidable e.Unforced := inferInstanceAs (Decidable (_ = false))

/-- The children are within a bound, and the degree exceeds it by the father at most. -/
structure Position.Moderate (most : Nat) (p : Position) : Prop where
  children : p.children.length ≤ most
  degree : p.neighbors.degree ≤ most + 1

/-! ## How many neighbors there are -/

namespace Neighbors

variable {n : Neighbors} {p : Peer} {peers : List Peer}

theorem length_insert_le : (insert p peers).length ≤ peers.length + 1 := by
  induction peers with
  | nil => simp [insert]
  | cons q rest ih =>
      unfold insert
      split
      · simp
      · split
        · simp
        · simpa using ih

/-- Whoever is not kept may as well not be added. -/
theorem filter_insert {keep : Peer → Bool} (h : keep p = false) :
    (insert p peers).filter keep = peers.filter keep := by
  induction peers with
  | nil => simp [insert, h]
  | cons q rest ih =>
      unfold insert
      split
      · rfl
      · split
        · simp [h]
        · simp [List.filter_cons, ih]

theorem degree_add_le : (n.add p).degree ≤ n.degree + 1 := by
  unfold add degree
  split
  · exact length_insert_le
  · exact Nat.le_succ _

theorem brokers_remove_sublist : (n.remove p).brokers.Sublist n.brokers := by
  unfold remove
  split
  · exact List.eraseP_sublist
  · exact .refl _

/-- A broker that is removed is one less. -/
theorem degree_remove (h : n.isBroker p = true) : (n.remove p).degree + 1 = n.degree := by
  obtain ⟨q, hq, hid⟩ := Peer.among_iff.1 h
  have hlength := List.length_eraseP_of_mem hq (Peer.same_iff.2 hid)
  have hpos := List.length_pos_of_mem hq
  simp only [remove, h, if_true, degree, hlength]
  omega

end Neighbors

/-! ## Each way of moving -/

namespace Position

variable {p : Position} {peer : Peer} {most : Nat}

theorem isFather_of_father {father : Peer} (h : p.father = some father) :
    p.isFather father = true :=
  Peer.isThe_iff.2 ⟨father, h, rfl⟩

/-- Without a father every broker is a child. -/
theorem children_of_root (h : p.father = none) : p.children = p.neighbors.brokers := by
  simp [children, Neighbors.children, h, Peer.isThe]

/-- Beneath a father that is no broker beside the node every broker is a child. -/
theorem children_of_not_beside (h : p.isFather peer = true)
    (hbeside : p.neighbors.isBroker peer = false) : p.children = p.neighbors.brokers := by
  obtain ⟨father, hfather, hid⟩ := Peer.isThe_iff.1 h
  refine List.filter_eq_self.2 fun q hq => ?_
  rw [Bool.not_eq_true', Bool.eq_false_iff, ne_eq, Peer.isThe_iff, hfather]
  rintro ⟨_, heq, hsame⟩
  cases heq
  rw [Bool.eq_false_iff, ne_eq, Neighbors.isBroker, Peer.among_iff] at hbeside
  exact hbeside ⟨q, hq, hid.trans hsame.symm⟩

theorem length_children_le (p : Position) : p.children.length ≤ p.neighbors.degree :=
  List.length_filter_le _ _

/-- What has no more brokers than children are allowed has not too many of either. -/
theorem moderate_of_degree (h : p.neighbors.degree ≤ most) : p.Moderate most :=
  ⟨p.length_children_le.trans h, h.trans (Nat.le_succ _)⟩

/-- A root has no more brokers than it has children. -/
theorem Moderate.degree_of_root (h : p.Moderate most) (hroot : p.father = none) :
    p.neighbors.degree ≤ most := by
  have hchildren := h.children
  rwa [children_of_root hroot] at hchildren

/-- Whoever is forgotten, nobody comes in its place. -/
theorem Moderate.forget (h : p.Moderate most) (peer : Peer) : (p.forget peer).Moderate most :=
  have hsub : (p.forget peer).neighbors.brokers.Sublist p.neighbors.brokers :=
    Neighbors.brokers_remove_sublist
  ⟨(hsub.filter _).length_le.trans h.children, hsub.length_le.trans h.degree⟩

/-- The brokers beside a node without its father are its children. -/
theorem Moderate.degree_forget (h : p.Moderate most) {father : Peer}
    (hfather : p.father = some father ∨ p.father = none) :
    (p.forget father).neighbors.degree ≤ most := by
  rcases hfather with hfather | hroot
  · dsimp only [Position.forget]
    cases hbeside : p.neighbors.isBroker father with
    | true =>
        have hdegree := Neighbors.degree_remove hbeside
        have := h.degree
        omega
    | false =>
        have hchildren := h.children
        rw [children_of_not_beside (isFather_of_father hfather) hbeside] at hchildren
        simpa [Neighbors.remove, hbeside, Neighbors.degree] using hchildren
  · exact Neighbors.brokers_remove_sublist.length_le.trans (h.degree_of_root hroot)

/-- Beneath a new father a root has the children it had but for the father. -/
theorem Moderate.attach (h : p.Moderate most) (hroot : p.father = none) (self father : Peer)
    (rank : Rank) (acceptance : Acceptance) (ws : Words) :
    (p.attach self father rank acceptance ws).1.Moderate most := by
  obtain ⟨own, heq⟩ := p.attach_eq self father rank acceptance ws
  rw [heq]
  have hdegree := h.degree_of_root hroot
  refine ⟨?_, Neighbors.degree_add_le.trans (Nat.add_le_add_right hdegree 1)⟩
  have hbrokers : (p.neighbors.add father).brokers.filter (fun q => !q.isThe (some father)) =
      p.neighbors.brokers.filter fun q => !q.isThe (some father) := by
    unfold Neighbors.add
    split
    · exact Neighbors.filter_insert (by simp [Peer.isThe])
    · rfl
  calc ((p.neighbors.add father).brokers.filter fun q => !q.isThe (some father)).length
      = (p.neighbors.brokers.filter fun q => !q.isThe (some father)).length := by rw [hbrokers]
    _ ≤ most := (List.length_filter_le _ _).trans hdegree

/-- A client that is linked is no broker. -/
theorem brokers_of_client (p : Position) {client : Peer} (h : client.broker = false) :
    (p.neighbors.add client).brokers = p.neighbors.brokers := by
  simp [Neighbors.add, h]

end Position

namespace Node

variable {n : Node} {a : Act} {p : Position}

/-- A request that is not to overlook the bound is accepted only below it. -/
theorem degree_lt_of_refuseDegree {request : Request} (h : n.refuseDegree request = none)
    (hforce : request.force.maxDegree = false) :
    n.position.neighbors.degree < n.settings.maxDegree := by
  unfold refuseDegree at h
  dsimp only at h
  split at h
  · cases h
  · split at h
    · cases h
    · rename_i hnot
      simpa [hforce] using hnot

/-- Unless it is asked to overlook the bound, or takes a father, a node that has no more brokers
than children are allowed gets no more of them. -/
theorem Shift.degree_bound (h : n.Shift a p) (hforces : a.forces = false)
    (hidle : n.isWaiting = false) (hn : n.position.neighbors.degree ≤ n.settings.maxDegree) :
    p.neighbors.degree ≤ n.settings.maxDegree := by
  cases h with
  | stay | keepHint | takeHint | hear | bury | greet | fork | learn | found => exact hn
  | welcome verdict =>
      have hlt := degree_lt_of_refuseDegree (admission_of_judge verdict).2.2 hforces
      exact Neighbors.degree_add_le.trans hlt
  | heed father =>
      rw [(n.position.heed_frame ..).2.1]
      exact hn
  | serve sort =>
      rw [Neighbors.degree, n.position.brokers_of_client sort]
      exact hn
  | forget | lose | forsake => exact Neighbors.brokers_remove_sublist.length_le.trans hn
  | attach negotiating => simp [isWaiting, negotiating, Holder.isWaiting] at hidle

/-- Wherever an act takes a node, it remains moderate unless it is asked to overlook the
bound. -/
theorem Shift.moderate (h : n.Shift a p) (hforces : a.forces = false)
    (hseeking : n.isSeeking = true → n.position.father = none)
    (huprooted : n.isUprooted = true → n.position.neighbors.degree ≤ n.settings.maxDegree)
    (hm : n.position.Moderate n.settings.maxDegree) : p.Moderate n.settings.maxDegree := by
  cases h with
  | stay | keepHint | takeHint | hear | bury | greet | fork | learn =>
      exact ⟨hm.children, hm.degree⟩
  | welcome verdict =>
      have hlt := degree_lt_of_refuseDegree (admission_of_judge verdict).2.2 hforces
      exact Position.moderate_of_degree (Neighbors.degree_add_le.trans hlt)
  | heed father =>
      constructor
      · rw [Position.children_heed]
        exact hm.children
      · rw [(n.position.heed_frame ..).2.1]
        exact hm.degree
  | serve sort =>
      constructor
      · rw [Position.children, Neighbors.children, n.position.brokers_of_client sort]
        exact hm.children
      · rw [Neighbors.degree, n.position.brokers_of_client sort]
        exact hm.degree
  | forget | forsake => exact hm.forget _
  | lose _ broker _ =>
      have hdegree := Neighbors.degree_remove broker
      have := hm.degree
      refine Position.moderate_of_degree ?_
      dsimp only [Position.orphan, Position.forget]
      omega
  | @found repair ws founding =>
      refine Position.moderate_of_degree ?_
      cases repair with
      | true => exact hm.degree_of_root (hseeking (isSeeking_of_holder founding rfl))
      | false => exact huprooted (isUprooted_iff.2 founding)
  | attach negotiating _ _ => exact hm.attach (hseeking (isSeeking_of_holder negotiating rfl)) ..

end Node

/-- A node that has only to found its tree has no more brokers beside it than children are
allowed, if it was moderate before it left its father. -/
theorem Session.degree_of_uprooted {σ : Type} [Transport σ] {s : Session σ} {a : Act}
    (possible : a.Possible s.node) (hforces : a.forces = false)
    (hm : s.node.position.Moderate s.node.settings.maxDegree)
    (hbefore : s.node.isUprooted = true →
      s.node.position.neighbors.degree ≤ s.node.settings.maxDegree)
    (hleaving : ∀ father, s.node.slot.holder = some (.leaving father) →
      s.node.position.father = some father ∨ s.node.position.father = none)
    (h : (a.run s).node.isUprooted = true) :
    (a.run s).node.position.neighbors.degree ≤ s.node.settings.maxDegree := by
  have hshift := (turns_run s possible).shift
  have hholder := Node.isUprooted_iff.1 h
  cases (turns_run s possible).waits with
  | aside _ slot | deliver slot | cancel _ _ slot =>
      have huprooted := (Node.isUprooted_congr slot).symm.trans h
      refine hshift.degree_bound hforces ?_ (hbefore huprooted)
      simp [Node.isWaiting, Node.isUprooted_iff.1 huprooted, Holder.isWaiting]
  | step _ before _ _ _ _ _ founds =>
      exact hshift.degree_bound hforces before (hm.degree_of_root (founds hholder))
  | ask _ _ asked => rcases asked with ⟨h', -⟩ | h' <;> simp [hholder] at h'
  | forsake leaving =>
      change s.advance.node.position.neighbors.degree ≤ _
      rw [advance_of_leaving leaving, node_forsake]
      exact hm.degree_forget (hleaving _ leaving)
  | found _ free => simp [free, Slot.free] at hholder
  | rest _ _ after => simp [hholder] at after

/-- **In every life without a forced request the children are within the bound of the
settings, and the brokers beside the node exceed it by one at most.** -/
theorem Life.degree_le {history : List Episode} {n : Node}
    (life : Life Episode.Unforced history n) :
    n.position.children.length ≤ n.settings.maxDegree ∧
      n.position.neighbors.degree ≤ n.settings.maxDegree + 1 := by
  -- A father that is forgotten makes room for a child before it is the father no more.
  obtain ⟨hmoderate, -⟩ : n.position.Moderate n.settings.maxDegree ∧
      (n.isUprooted = true → n.position.neighbors.degree ≤ n.settings.maxDegree) := by
    induction life with
    | birth settings self ws =>
        exact ⟨Position.moderate_of_degree (Nat.zero_le _), fun _ => Nat.zero_le _⟩
    | @act history n a σ _ life outside ws possible meets ih =>
        obtain ⟨hm, huprooted⟩ := ih
        obtain ⟨-, hsettings, hshift, -, -⟩ := Session.turns_run ⟨n, outside, ws, []⟩ possible
        rw [hsettings]
        exact ⟨hshift.moderate meets life.father_of_seeking huprooted hm,
          Session.degree_of_uprooted possible meets hm huprooted
            fun _ => life.father_of_leaving⟩
  exact ⟨hmoderate.children, hmoderate.degree⟩

namespace Rehearsal

/-- A broker that is to have one broker beside it accepts a child, joins a tree, and has two:
its father and its child. -/
theorem degree_le_of_mother :
    let settings := { Settings.standard with maxDegree := 1 }
    let young := (Node.start settings (broker 1 "x") still).1
    let acts : List Act :=
      [.event (.message (broker 3 "z") (.request ⟨⟨.colorless, ⟨100.0⟩⟩, .none⟩)),
        .start, .requestJoin "y", .begin (.join "y"), .advance, .advance,
        .event (.message (broker 2 "y") (.response ⟨⟨.colorless, ⟨1.0⟩⟩, .accepted ⟨[], []⟩⟩)),
        .resume]
    let mother := young.grown trio still acts
    Life Episode.Unforced (young.story trio still acts) mother ∧
      mother.position.children = [broker 3 "z"] ∧ mother.position.neighbors.degree = 2 ∧
        (mother.position.children.length ≤ mother.settings.maxDegree ∧
          mother.position.neighbors.degree ≤ mother.settings.maxDegree + 1) := by
  intro settings young acts mother
  have hpossible : ∀ e ∈ young.story trio still acts,
      e.act.Possible e.before ∧ e.Unforced := by decide +kernel
  have life : Life Episode.Unforced (young.story trio still acts) mother :=
    (Life.birth settings (broker 1 "x") still).story trio still hpossible
  exact ⟨life, by decide +kernel, by decide +kernel, life.degree_le⟩

end Rehearsal

end BrokerForest
