import BrokerForest.Depth
import Mathlib.Algebra.Order.Group.Int
import Mathlib.Data.Prod.Lex
/-!
# The order of depths

Depths are doubles, and doubles that are numbers are linearly ordered: by sign and kind,
then by exponent, then by mantissa.  A depth that is no number compares with none.

The comparison of doubles is read off a *key*, so that its laws are those of a product of
linear orders.

Main statements:

* `Depth.lt_irrefl`, `Depth.lt_trans`, `Depth.not_le_of_lt` — depths are strictly ordered;
* `Depth.lt_of_lt_of_not_lt` — a number that is not above a bound is below whatever is
  below the bound;
* `Depth.Roomy` — what is assumed of the arithmetic of doubles: a stride and a jitter move
  a depth;
* `Depth.rise_lt`, `Depth.rise_eq_or_lt` — rising past a bound ends above it, and never
  deeper than before;
* `Depth.between_of_undercut`, `Depth.undercut_eq_or_lt` — the same with a floor to stay
  below, whatever is drawn on the way.
-/

namespace BrokerForest

namespace Depth

open Float.Model

/-- Where an unpacked double stands among the others, unless it is no number. -/
def unpackedKey : UnpackedFloat → Option (Int ×ₗ Int ×ₗ Int)
  | .notANumber => none
  | .infinity .negative => some (toLex (-2, toLex (0, 0)))
  | .finite .negative mantissa exponent _ => some (toLex (-1, toLex (-exponent, -mantissa)))
  | .zero _ => some (toLex (0, toLex (0, 0)))
  | .finite .positive mantissa exponent _ => some (toLex (1, toLex (exponent, mantissa)))
  | .infinity .positive => some (toLex (2, toLex (0, 0)))

/-- The comparison of unpacked doubles is that of their keys. -/
theorem unpacked_lt_iff (a b : UnpackedFloat) :
    a.lt b = true ↔
      ∃ k l, unpackedKey a = some k ∧ unpackedKey b = some l ∧ k < l := by
  rcases a with (_ | _) | _ | _ | ⟨_ | _, m, e, hm⟩ <;>
    rcases b with (_ | _) | _ | _ | ⟨_ | _, n, f, hn⟩ <;>
    dsimp only [UnpackedFloat.lt, UnpackedFloat.compare, unpackedKey] <;>
    simp [Prod.Lex.toLex_lt_toLex, compare, compareOfLessAndEq, Ordering.then, Ordering.swap]
  all_goals grind

/-- So it is where they may be equal. -/
theorem unpacked_le_iff (a b : UnpackedFloat) :
    a.le b = true ↔
      ∃ k l, unpackedKey a = some k ∧ unpackedKey b = some l ∧ k ≤ l := by
  rcases a with (_ | _) | _ | _ | ⟨_ | _, m, e, hm⟩ <;>
    rcases b with (_ | _) | _ | _ | ⟨_ | _, n, f, hn⟩ <;>
    dsimp only [UnpackedFloat.le, UnpackedFloat.compare, unpackedKey] <;>
    simp [Prod.Lex.toLex_le_toLex, compare, compareOfLessAndEq, Ordering.then, Ordering.swap]
  all_goals grind [Ordering.isLE]

/-- Doubles are compared unpacked. -/
theorem lt_iff_unpacked_lt {x y : Float} :
    x < y ↔ UnpackedFloat.lt x.toModel.unpack y.toModel.unpack = true := by
  change (decide _ = true) ↔ _
  rw [decide_eq_true_iff]
  rfl

theorem le_iff_unpacked_le {x y : Float} :
    x ≤ y ↔ UnpackedFloat.le x.toModel.unpack y.toModel.unpack = true := by
  change (decide _ = true) ↔ _
  rw [decide_eq_true_iff]
  rfl

/-- Where a depth stands among the others, unless it is no number. -/
def key (d : Depth) : Option (Int ×ₗ Int ×ₗ Int) := unpackedKey d.value.toModel.unpack

/-- The comparison of depths is that of their keys. -/
theorem lt_iff_key {a b : Depth} :
    a < b ↔ ∃ k l, a.key = some k ∧ b.key = some l ∧ k < l := by
  have h : a < b ↔ UnpackedFloat.lt a.value.toModel.unpack b.value.toModel.unpack = true :=
    lt_iff_unpacked_lt
  rw [h, unpacked_lt_iff]
  rfl

theorem le_iff_key {a b : Depth} :
    a ≤ b ↔ ∃ k l, a.key = some k ∧ b.key = some l ∧ k ≤ l := by
  have h : a ≤ b ↔ UnpackedFloat.le a.value.toModel.unpack b.value.toModel.unpack = true :=
    le_iff_unpacked_le
  rw [h, unpacked_le_iff]
  rfl

/-- Exactly the depths that are no number have no key. -/
theorem isNaN_iff_key {d : Depth} : d.isNaN = true ↔ d.key = none := by
  change UnpackedFloat.isNaN d.value.toModel.unpack = true ↔
    unpackedKey d.value.toModel.unpack = none
  rcases d.value.toModel.unpack with (_ | _) | _ | _ | ⟨_ | _, m, e, hm⟩
  all_goals
    constructor
    all_goals
      intro h
      first
        | rfl
        | cases h

/-- No depth is below itself. -/
@[simp]
theorem lt_irrefl (d : Depth) : ¬ d < d := by
  rw [lt_iff_key]
  rintro ⟨k, l, hk, hl, hkl⟩
  rw [hk] at hl
  cases hl
  exact hkl.ne rfl

/-- The order of depths is transitive. -/
theorem lt_trans {a b c : Depth} (hab : a < b) (hbc : b < c) : a < c := by
  rw [lt_iff_key] at hab hbc ⊢
  obtain ⟨k, l, hk, hl, hkl⟩ := hab
  obtain ⟨l', m, hl', hm, hlm⟩ := hbc
  rw [hl] at hl'
  cases hl'
  exact ⟨k, m, hk, hm, hkl.trans hlm⟩

/-- Of two depths the greater one is not up to the other. -/
theorem not_le_of_lt {a b : Depth} (h : a < b) : ¬ b ≤ a := by
  rw [lt_iff_key] at h
  rw [le_iff_key]
  obtain ⟨k, l, hk, hl, hkl⟩ := h
  rintro ⟨l', k', hl', hk', hle⟩
  rw [hl] at hl'
  rw [hk] at hk'
  cases hl'
  cases hk'
  exact not_lt_of_ge hle hkl

/-- A depth below another is a number. -/
theorem isNaN_of_lt_left {a b : Depth} (h : a < b) : a.isNaN = false := by
  obtain ⟨k, _, hk, _⟩ := lt_iff_key.1 h
  rw [Bool.eq_false_iff, ne_eq, isNaN_iff_key, hk]
  exact Option.some_ne_none k

/-- A depth that another is below is a number. -/
theorem isNaN_of_lt_right {a b : Depth} (h : a < b) : b.isNaN = false := by
  obtain ⟨_, l, _, hl, _⟩ := lt_iff_key.1 h
  rw [Bool.eq_false_iff, ne_eq, isNaN_iff_key, hl]
  exact Option.some_ne_none l

/-- A number that is not below a bound is above whatever is below the bound. -/
theorem lt_of_lt_of_not_lt {a bound d : Depth}
    (h : a < bound) (hd : ¬ d < bound) (hnum : d.isNaN = false) :
    a < d := by
  rw [Bool.eq_false_iff, ne_eq, isNaN_iff_key] at hnum
  obtain ⟨m, hm⟩ := Option.ne_none_iff_exists'.1 hnum
  rw [lt_iff_key] at h hd ⊢
  obtain ⟨k, l, hk, hl, hkl⟩ := h
  have hlm : l ≤ m := by
    by_contra hml
    exact hd ⟨m, l, hm, hl, not_le.1 hml⟩
  exact ⟨k, m, hk, hm, hkl.trans_le hlm⟩

/-- What is assumed of the arithmetic of doubles where a depth occurs as a bound: a stride
and a jitter up from it lead to a smaller depth, and down from it to a greater one. -/
def Roomy (bound : Depth) (ws : Words) : Prop :=
  (above bound ws).1 < bound ∧ bound < (beneath bound ws).1

instance (bound : Depth) (ws : Words) : Decidable (Roomy bound ws) :=
  inferInstanceAs (Decidable (_ ∧ _))

/-- A depth with room around it is a number. -/
theorem Roomy.isNaN {bound : Depth} {ws : Words} (h : Roomy bound ws) : bound.isNaN = false :=
  isNaN_of_lt_left h.2

/-- A depth drawn from the gap between two others lies between them. -/
theorem between_of_drawBetween {floor bound d : Depth} {n : Nat} :
    ∀ {gap : Float} {ws ws' : Words},
      drawBetween floor bound n gap ws = (some d, ws') → Between floor bound d := by
  induction n with
  | zero => simp [drawBetween]
  | succ n ih =>
      intro gap ws ws' h
      simp only [drawBetween] at h
      split at h
      · rename_i hb
        cases h
        exact hb
      · exact ih h

/-- Whatever way a depth is found beneath a floor, it lies between the floor and the
bound. -/
theorem between_of_undercut {d bound floor e : Depth} {ws ws' : Words}
    (h : d.undercut bound (some floor) ws = (some e, ws')) :
    Between floor bound e := by
  simp only [undercut] at h
  split at h
  · rename_i hb
    cases h
    exact hb
  · split at h
    · cases h
    · split at h
      · rename_i hd
        cases h
        exact between_of_drawBetween hd
      · split at h
        · rename_i hb
          cases h
          exact hb
        · cases h

/-- A depth that has its place between floor and bound keeps it. -/
theorem undercut_of_between {d bound floor : Depth} {ws : Words}
    (h : Between floor bound d) :
    d.undercut bound (some floor) ws = (some d, ws) := by
  simp [undercut, h]

/-- A depth that is beneath the floor already never gets deeper. -/
theorem undercut_eq_or_lt {d bound floor e : Depth} {ws ws' : Words}
    (hd : floor < d) (h : d.undercut bound (some floor) ws = (some e, ws')) :
    e = d ∨ e < d := by
  by_cases hb : d < bound
  · rw [undercut_of_between ⟨hd, hb⟩] at h
    cases h
    exact Or.inl rfl
  · have he := between_of_undercut h
    exact Or.inr (lt_of_lt_of_not_lt he.2 hb (isNaN_of_lt_right hd))

/-- A depth found where there is no floor is less than the bound, if there is room. -/
theorem rise_lt {d bound : Depth} {ws : Words} (room : bound.Roomy ws) :
    (d.rise bound ws).1 < bound := by
  unfold rise
  split
  · assumption
  · exact room.1

/-- Rising past a bound makes no depth greater. -/
theorem rise_eq_or_lt {d bound : Depth} {ws : Words}
    (room : bound.Roomy ws) (hd : d.isNaN = false) :
    (d.rise bound ws).1 = d ∨ (d.rise bound ws).1 < d := by
  unfold rise
  split
  · exact Or.inl rfl
  · rename_i h
    exact Or.inr (lt_of_lt_of_not_lt room.1 h hd)

/-- A depth beneath a bound is not moved past it again. -/
theorem exceed_of_lt {d bound : Depth} {ws : Words} (h : bound < d) :
    d.exceed bound ws = (none, ws) := by
  simp [exceed, h]

end Depth

end BrokerForest
