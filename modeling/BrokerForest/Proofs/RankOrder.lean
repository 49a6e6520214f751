import BrokerForest.Admission
import BrokerForest.Proofs.ColorOrder
import BrokerForest.Proofs.DepthOrder
import BrokerForest.Tree
/-!
# The order of ranks

A rank is under another if its color can join the other's, or if the two share a color and
it is the deeper one.  Everything a node does to its own rank moves it up in this order:
it moves above a requester, takes a greater color, or becomes a new root.

Main statements:

* `Rank.Under`, `Rank.UpTo` — the strict order of ranks, and the same with equality;
* `Position.upTo_admission` — admitting a requester does not lower a rank;
* `Position.upTo_settle` — settling beneath a father does not lower a rank that was under it;
* `Position.upTo_newTree` — a new root stands above all its earlier ranks.
-/

namespace BrokerForest

namespace Rank

/-- A node of the one rank may stand beneath a node of the other. -/
def Under (r s : Rank) : Prop :=
  r.color.canJoin s.color = true ∨ r.color = s.color ∧ s.depth < r.depth

instance (r s : Rank) : Decidable (r.Under s) := inferInstanceAs (Decidable (_ ∨ _))

/-- The one rank is the other, or under it. -/
def UpTo (r s : Rank) : Prop := r = s ∨ r.Under s

/-- No rank is under itself. -/
theorem not_under_self (r : Rank) : ¬ r.Under r := by
  simp [Under]

/-- Being under a rank is transitive. -/
theorem Under.trans {r s t : Rank} (hrs : r.Under s) (hst : s.Under t) : r.Under t := by
  rcases hrs with hrs | ⟨hcrs, hdrs⟩
  · rcases hst with hst | ⟨hcst, _⟩
    · exact Or.inl (Color.canJoin_trans hrs hst)
    · exact Or.inl (hcst ▸ hrs)
  · rcases hst with hst | ⟨hcst, hdst⟩
    · exact Or.inl (hcrs ▸ hst)
    · exact Or.inr ⟨hcrs.trans hcst, Depth.lt_trans hdst hdrs⟩

/-- A rank is up to itself. -/
theorem UpTo.refl (r : Rank) : r.UpTo r := Or.inl rfl

/-- A rank under another is up to it. -/
theorem Under.upTo {r s : Rank} (h : r.Under s) : r.UpTo s := Or.inr h

/-- Being up to a rank is transitive. -/
theorem UpTo.trans {r s t : Rank} (hrs : r.UpTo s) (hst : s.UpTo t) : r.UpTo t := by
  rcases hrs with rfl | hrs
  · exact hst
  · rcases hst with rfl | hst
    · exact hrs.upTo
    · exact (hrs.trans hst).upTo

/-- What is under a rank is under all above it. -/
theorem Under.trans_upTo {r s t : Rank} (hrs : r.Under s) (hst : s.UpTo t) : r.Under t := by
  rcases hst with rfl | hst
  · exact hrs
  · exact hrs.trans hst

/-- A rank of the same color that is not as deep is above. -/
theorem under_of_depth_lt {color : Color} {d e : Depth} (h : e < d) :
    Rank.Under ⟨color, d⟩ ⟨color, e⟩ :=
  Or.inr ⟨rfl, h⟩

end Rank

namespace Position

/-- A node stands beneath the depth that its father last told of. -/
def BelowFather (p : Position) : Prop :=
  ∀ floor, p.fatherDepth = some floor → floor < p.rank.depth

instance (p : Position) : Decidable p.BelowFather :=
  inferInstanceAs (Decidable (∀ floor, p.fatherDepth = some floor → _))

/-- The ways in which a rank admits a requester. -/
theorem admission_cases
    {p : Position} {requester : Rank} {ws ws' : Words} {a : Admission}
    (h : p.admission requester ws = (some a, ws')) :
    (p.isRoot = true ∧ p.rank.color.canJoin requester.color = true ∧
        a = .adopt requester.color (p.rank.depth.rise requester.depth ws).1) ∨
      (p.rank.color = requester.color ∧
        p.admissionOfKin requester.depth ws = (some a, ws')) ∨
      (requester.color.canJoin p.rank.color = true ∧ a = .keep) := by
  unfold admission at h
  split at h
  · rename_i hc
    have hc : (p.isRoot = true ∧ p.rank.color.isColorless = true) ∧
        requester.color.isColorless = false := by
      simpa using hc
    cases h
    exact Or.inl ⟨hc.1.1, Color.canJoin_of_isColorless hc.1.2 hc.2, rfl⟩
  · split at h
    · rename_i hc
      exact Or.inr (Or.inl ⟨hc, h⟩)
    · split at h
      · rename_i hc
        cases h
        exact Or.inr (Or.inr ⟨hc, rfl⟩)
      · cases h

/-- A node stays where it is for a requester of its own color that is deeper, if it stands
beneath its father, and looks for another depth otherwise. -/
theorem admissionOfKin_eq (p : Position) (requester : Depth) (ws : Words) :
    p.admissionOfKin requester ws =
      if p.rank.depth < requester ∧ p.BelowFather then (some .keep, ws)
      else
        ((p.rank.depth.undercut requester p.fatherDepth ws).1.map .move,
          (p.rank.depth.undercut requester p.fatherDepth ws).2) := by
  unfold admissionOfKin
  cases hfd : p.fatherDepth <;> simp [BelowFather, hfd]

/-- The ways in which a rank admits a requester of its own color. -/
theorem admissionOfKin_cases
    {p : Position} {requester : Depth} {ws ws' : Words} {a : Admission}
    (h : p.admissionOfKin requester ws = (some a, ws')) :
    (a = .keep ∧ p.rank.depth < requester ∧ p.BelowFather) ∨
      ∃ d, a = .move d ∧
        p.rank.depth.undercut requester p.fatherDepth ws = (some d, ws') := by
  rw [admissionOfKin_eq] at h
  split at h
  · rename_i hc
    cases h
    exact Or.inl ⟨rfl, hc⟩
  · rcases hu : p.rank.depth.undercut requester p.fatherDepth ws with ⟨d, ws''⟩
    rw [hu] at h
    cases d with
    | none => cases h
    | some d =>
        cases h
        exact Or.inr ⟨d, rfl, rfl⟩

/-- A node of the requester's color takes its place between its father, if it has one,
and the requester. -/
theorem admissionOfKin_between
    {p : Position} {requester : Depth} {ws ws' : Words} {a : Admission}
    (room : requester.Roomy ws)
    (h : p.admissionOfKin requester ws = (some a, ws')) :
    (a.rank p.rank).color = p.rank.color ∧ (a.rank p.rank).depth < requester ∧
      ∀ floor, p.fatherDepth = some floor → floor < (a.rank p.rank).depth := by
  rcases admissionOfKin_cases h with ⟨rfl, hd, hf⟩ | ⟨d, rfl, hu⟩
  · exact ⟨rfl, hd, hf⟩
  · refine ⟨rfl, ?_⟩
    cases hfd : p.fatherDepth with
    | none =>
        rw [hfd] at hu
        have hd : (p.rank.depth.rise requester ws).1 = d := by
          simpa [Depth.undercut] using congrArg Prod.fst hu
        exact ⟨hd ▸ Depth.rise_lt room, by simp⟩
    | some floor =>
        rw [hfd] at hu
        have hb := Depth.between_of_undercut hu
        exact ⟨hb.2, by rintro _ ⟨⟩; exact hb.1⟩

/-- Admitting a requester of its own color moves no node down that stands beneath its
father. -/
theorem upTo_admissionOfKin
    {p : Position} {requester : Depth} {ws ws' : Words} {a : Admission}
    (hf : p.BelowFather) (hd : p.rank.depth.isNaN = false) (room : requester.Roomy ws)
    (h : p.admissionOfKin requester ws = (some a, ws')) :
    p.rank.UpTo (a.rank p.rank) := by
  rcases admissionOfKin_cases h with ⟨rfl, _, _⟩ | ⟨d, rfl, hu⟩
  · exact .refl _
  · have hle : d = p.rank.depth ∨ d < p.rank.depth := by
      cases hfd : p.fatherDepth with
      | none =>
          rw [hfd] at hu
          have hd' : (p.rank.depth.rise requester ws).1 = d := by
            simpa [Depth.undercut] using congrArg Prod.fst hu
          exact hd' ▸ Depth.rise_eq_or_lt room hd
      | some floor =>
          rw [hfd] at hu
          exact Depth.undercut_eq_or_lt (hf floor hfd) hu
    rcases hle with rfl | hlt
    · exact .refl _
    · exact (Rank.under_of_depth_lt hlt).upTo

/-- Admitting a requester moves no node down that stands beneath its father. -/
theorem upTo_admission
    {p : Position} {requester : Rank} {ws ws' : Words} {a : Admission}
    (hf : p.BelowFather) (hd : p.rank.depth.isNaN = false) (room : requester.depth.Roomy ws)
    (h : p.admission requester ws = (some a, ws')) :
    p.rank.UpTo (a.rank p.rank) := by
  rcases admission_cases h with ⟨_, hc, rfl⟩ | ⟨_, hk⟩ | ⟨_, rfl⟩
  · exact Or.inr (Or.inl hc)
  · exact upTo_admissionOfKin hf hd room hk
  · exact .refl _

/-- A node that admits a requester still stands beneath its father. -/
theorem belowFather_admission
    {p : Position} {requester : Rank} {ws ws' : Words} {a : Admission}
    (hroot : p.isRoot = true → p.fatherDepth = none)
    (hf : p.BelowFather) (room : requester.depth.Roomy ws)
    (h : p.admission requester ws = (some a, ws')) :
    ∀ floor, p.fatherDepth = some floor → floor < (a.rank p.rank).depth := by
  rcases admission_cases h with ⟨hr, _, rfl⟩ | ⟨_, hk⟩ | ⟨_, rfl⟩
  · simp [hroot hr]
  · exact (admissionOfKin_between room hk).2.2
  · exact hf

/-- Settling beneath a father remembers the depth that it told of. -/
@[simp]
theorem fatherDepth_settle (p : Position) (father : Rank) (ws : Words) :
    (p.settle father ws).2.1.fatherDepth = some father.depth := by
  simp only [settle]
  split
  · split <;> rfl
  · rfl

/-- Settling beneath a father takes its color. -/
@[simp]
theorem color_settle (p : Position) (father : Rank) (ws : Words) :
    (p.settle father ws).2.1.rank.color = father.color := by
  simp only [settle]
  split
  · rename_i hc
    split <;> exact hc
  · rfl

/-- Settling beneath a father ends deeper than the father, if there is room. -/
theorem depth_settle (p : Position) {father : Rank} {ws : Words}
    (room : father.depth.Roomy ws) :
    father.depth < (p.settle father ws).2.1.rank.depth := by
  simp only [settle]
  split
  · by_cases hd : father.depth < p.rank.depth
    · rw [Depth.exceed_of_lt hd]
      exact hd
    · simp only [Depth.exceed, hd, if_false]
      exact room.2
  · exact room.2

/-- Settling beneath a father of its own color leaves a deeper node where it is. -/
theorem rank_settle_of_depth_lt {p : Position} {father : Rank} {ws : Words}
    (hc : p.rank.color = father.color) (hd : father.depth < p.rank.depth) :
    (p.settle father ws).2.1.rank = p.rank := by
  simp [settle, hc, Depth.exceed_of_lt hd]

/-- Settling beneath a father moves no node down that was under its rank. -/
theorem upTo_settle {p : Position} {father : Rank} {ws : Words}
    (h : p.rank.Under father) :
    p.rank.UpTo (p.settle father ws).2.1.rank := by
  rcases h with hc | ⟨hc, hd⟩
  · exact Or.inr (Or.inl (by rwa [color_settle]))
  · rw [rank_settle_of_depth_lt hc hd]
    exact .refl _

/-- A new root stands above all its earlier ranks. -/
theorem upTo_newTree (p : Position) (self : Peer) (ws : Words) :
    p.rank.UpTo (p.newTree self ws).1.rank :=
  Or.inr (Or.inl (Color.canJoin_extend _ _))

end Position

end BrokerForest
