import BrokerForest.Depth
import BrokerForest.Proofs.Doubles
/-!
# The magnitude of doubles: why the jitter of depths is finite

A depth gets a random part of less than a tenth.  It is computed from a word of sixty-four
bits by products and one sum, each of them rounded.  Rounding makes a double at most twice
as great, so that a bound on the leading bits of the factors is a bound on the result, far
below where doubles overflow.

Main statements:

* `Double.within_roundWithAccuracy` — one step of rounding costs one bit;
* `Double.within_ofNat`, `Double.within_mul` — whole numbers and products;
* `Double.within_unpack_pack` — a bounded double stays one when it is packed;
* **`Double.isFinite_jitter`** — the random part of a depth is a finite number.
-/

namespace BrokerForest.Double

open Float.Model
open UnpackedFloat hiding unpack pack

/-- An unpacked double less than `2 ^ k`. -/
def Within (k : Int) : UnpackedFloat → Prop
  | .zero _ => True
  | .finite _ m e _ => totalExponent m e ≤ k
  | .infinity _ | .notANumber => False

instance (k : Int) : (u : UnpackedFloat) → Decidable (Within k u)
  | .zero _ => .isTrue trivial
  | .finite _ m e _ => inferInstanceAs (Decidable (totalExponent m e ≤ k))
  | .infinity _ | .notANumber => .isFalse id

/-- A double that is bounded is finite. -/
theorem Within.isFinite {k : Int} {u : UnpackedFloat} (h : Within k u) : u.isFinite = true := by
  cases u with
  | zero | finite => rfl
  | infinity | notANumber => cases h

/-- Shifting an extended mantissa halves its mantissa. -/
theorem mantissa_shiftRight (x : ExtendedMantissa) (n : Nat) :
    (x >>> n).mantissa = x.mantissa / 2 ^ n := by
  change (Nat.repeat ExtendedMantissa.shiftRightOne n x).mantissa = _
  induction n with
  | zero => simp [Nat.repeat]
  | succ n ih =>
    have hstep : (Nat.repeat ExtendedMantissa.shiftRightOne (n + 1) x).mantissa =
        (Nat.repeat ExtendedMantissa.shiftRightOne n x).mantissa / 2 := rfl
    rw [hstep, ih, Nat.div_div_eq_div_mul, ← Nat.pow_succ]

/-- A mantissa that is shifted has as many bits less. -/
theorem log2_div_two_pow {m n : Nat} (h : m / 2 ^ n ≠ 0) : (m / 2 ^ n).log2 + n ≤ m.log2 := by
  have hm : m ≠ 0 := by
    rintro rfl
    simp at h
  rw [Nat.le_log2 hm, Nat.pow_add]
  calc 2 ^ (m / 2 ^ n).log2 * 2 ^ n ≤ m / 2 ^ n * 2 ^ n :=
        Nat.mul_le_mul_right _ (Nat.log2_self_le h)
    _ ≤ m := Nat.div_mul_le_self m _

/-- Shifting to the target exponent makes no double greater, unless it was less than the
least of all. -/
theorem totalExponent_shift (m : Nat) (e : Int) (a : Accuracy) :
    totalExponent (shiftToTargetExponent .binary64 m e a).1.mantissa
      (shiftToTargetExponent .binary64 m e a).2 ≤ max (totalExponent m e) (-1073) := by
  have hmantissa (a : Accuracy) : (ExtendedMantissa.ofMantissaAndAccuracy m a).mantissa = m := by
    rcases a with _ | _ | _ | _ <;> rfl
  have htarget : Format.targetExponent .binary64 (totalExponent m e) =
      max (totalExponent m e - 53) (-1074) := rfl
  simp only [shiftToTargetExponent, shiftToExponent, mantissa_shiftRight, hmantissa, htarget]
  generalize hn : (max (totalExponent m e - 53) (-1074) - e).toNat = n
  simp only [totalExponent] at hn ⊢
  by_cases hz : m / 2 ^ n = 0
  · have hlog : m ≠ 0 → m.log2 < n := fun hm =>
      (Nat.log2_lt hm).2 (Nat.lt_of_div_eq_zero (Nat.two_pow_pos n) hz)
    rw [hz, Nat.log2_zero]
    by_cases hm : m = 0
    · rw [hm, Nat.log2_zero] at hn ⊢
      omega
    · have := hlog hm
      omega
  · have := log2_div_two_pow hz
    omega

/-- A mantissa is rounded up by one at most. -/
theorem roundedMantissa_le (x : ExtendedMantissa) : x.roundedMantissa ≤ x.mantissa + 1 := by
  obtain ⟨m, _ | _, _ | _⟩ := x <;>
    simp only [ExtendedMantissa.roundedMantissa, ExtendedMantissa.accuracy,
      Accuracy.roundToNearestEven] <;> omega

/-- A mantissa that is rounded has at most one bit more. -/
theorem log2_roundedMantissa (x : ExtendedMantissa) :
    x.roundedMantissa.log2 ≤ x.mantissa.log2 + 1 := by
  have hround := roundedMantissa_le x
  by_cases hz : x.roundedMantissa = 0
  · simp [hz]
  · refine Nat.lt_succ_iff.1 ((Nat.log2_lt hz).2 (hround.trans_lt ?_))
    have := Nat.lt_log2_self (n := x.mantissa)
    rw [Nat.pow_succ]
    omega

/-- Rounding makes a double at most twice as great. -/
theorem within_roundWithAccuracy {k : Int} {m : Nat} {e : Int} (s : Sign) (a : Accuracy)
    (h : totalExponent m e ≤ k) (hk : -1073 ≤ k) :
    Within (k + 1) (roundWithAccuracy .binary64 s m e a) := by
  simp only [roundWithAccuracy]
  split
  · trivial
  · have hfirst := totalExponent_shift m e a
    have hround := log2_roundedMantissa (shiftToTargetExponent .binary64 m e a).1
    have hsecond := totalExponent_shift
      (shiftToTargetExponent .binary64 m e a).1.roundedMantissa
      (shiftToTargetExponent .binary64 m e a).2 .exact
    simp only [totalExponent] at h hfirst hsecond
    simp only [Within, totalExponent]
    omega

/-- Writing a number with a smaller exponent changes nothing about its size. -/
theorem totalExponent_decrease {m : Nat} (hm : m ≠ 0) (e t : Int) :
    totalExponent (decreaseExponent m e t).1 (decreaseExponent m e t).2 = totalExponent m e := by
  have hlog (n : Nat) : (m <<< n).log2 = m.log2 + n := by
    rw [Nat.shiftLeft_eq, Nat.log2_eq_iff (Nat.mul_ne_zero hm (Nat.two_pow_pos n).ne')]
    constructor
    · rw [Nat.pow_add]
      exact Nat.mul_le_mul_right _ (Nat.log2_self_le hm)
    · rw [Nat.add_right_comm, Nat.pow_add]
      exact Nat.mul_lt_mul_of_pos_right Nat.lt_log2_self (Nat.two_pow_pos n)
  simp only [totalExponent, decreaseExponent, hlog]
  omega

/-- Rounding makes a double at most twice as great, whatever its exponent. -/
theorem within_round {k : Int} {m : Nat} {e : Int} (s : Sign) (hm : m ≠ 0)
    (h : totalExponent m e ≤ k) (hk : -1073 ≤ k) : Within (k + 1) (round .binary64 s m e) :=
  within_roundWithAccuracy s .exact ((totalExponent_decrease hm ..).trans_le h) hk

/-- A whole number with `k` bits is less than `2 ^ k`, and rounded at most twice as great. -/
theorem within_ofNat {k n : Nat} (h : n < 2 ^ k) :
    Within (k + 1) (UnpackedFloat.ofNat .binary64 n) := by
  obtain rfl | hn := Nat.eq_zero_or_pos n
  · trivial
  · have hgt : compare (n : Int) 0 = .gt := compare_gt_iff_gt.2 (by omega)
    simp only [UnpackedFloat.ofNat, UnpackedFloat.ofInt, UnpackedFloat.normalize, hgt,
      Int.toNat_natCast]
    refine within_round _ hn.ne' ?_ (by omega)
    have := (Nat.log2_lt hn.ne').2 h
    simp only [totalExponent]
    omega

/-- A product is less than the product of the bounds, and rounded at most twice as great. -/
theorem within_mul {j k : Int} {u v : UnpackedFloat} (hu : Within j u) (hv : Within k v)
    (hjk : -1073 ≤ j + k) : Within (j + k + 1) (UnpackedFloat.mul .binary64 u v) := by
  match u, v with
  | .infinity _, _ | .notANumber, _ => cases hu
  | .zero _, .infinity _ | .zero _, .notANumber => cases hv
  | .finite .., .infinity _ | .finite .., .notANumber => cases hv
  | .zero _, .zero _ | .zero _, .finite .. | .finite .., .zero _ => trivial
  | .finite s m e hm, .finite t n f hn =>
    refine within_roundWithAccuracy _ _ ?_ hjk
    have hlog : (m * n).log2 < m.log2 + 1 + (n.log2 + 1) := by
      rw [Nat.log2_lt (Nat.mul_pos hm hn).ne', Nat.pow_add]
      exact Nat.mul_lt_mul'' Nat.lt_log2_self Nat.lt_log2_self
    simp only [Within, totalExponent] at hu hv ⊢
    omega

/-- Nothing is added with zero. -/
theorem within_zero_add {k : Int} {u : UnpackedFloat} (s : Sign) (h : Within k u) :
    Within k (UnpackedFloat.add .binary64 (.zero s) u) := by
  cases u with
  | zero => simp only [UnpackedFloat.add]; split <;> trivial
  | finite => exact h
  | infinity | notANumber => cases h

/-- Bits in parts stand for a finite double that the exponent bounds. -/
theorem within_unpack_packComponents {k : Int} (s : Sign) {e : BitVec 11} (m : BitVec 52)
    (hall : e.toNat < 2047) (he : e.toNat - 1022 ≤ k) :
    Within k (UnpackedFloat.unpack .binary64 (packComponents .binary64 s e m)) := by
  have hbias := exponentBias_binary64
  simp only [UnpackedFloat.unpack, unpackExponent_packComponents, unpackMantissa_packComponents]
  rw [if_neg (by rintro rfl; exact absurd hall (by decide))]
  split
  · split
    · trivial
    · rename_i hnone hrest
      have hm : m.toNat.log2 < 52 :=
        (Nat.log2_lt fun hz => hrest (BitVec.toNat_inj.1 (by simpa using hz))).2 m.isLt
      have hn : e.toNat = 0 := by rw [hnone]; rfl
      simp only [Within, totalExponent]
      omega
  · have hvalue := toNat_implicit m
    have hlog : (1#1 ++ m).toNat.log2 = 52 := by
      have := m.isLt
      refine (Nat.log2_eq_iff ?_).2 ?_ <;> omega
    simp only [Within, totalExponent, hlog]
    omega

/-- A double that is bounded by less than the greatest of all keeps its bound when it is
packed. -/
theorem within_unpack_pack {k : Int} {u : UnpackedFloat} (h : Within k u) (hlow : -1022 ≤ k)
    (hhigh : k ≤ 972) :
    Within k (UnpackedFloat.unpack .binary64 (UnpackedFloat.pack .binary64 u)) := by
  match u with
  | .infinity _ | .notANumber => cases h
  | .zero s => exact within_unpack_packComponents s 0 (by decide) (by simpa using hlow)
  | .finite s m e hm =>
    simp only [Within, totalExponent] at h
    obtain ⟨hlog, hpack⟩ | ⟨-, hpack⟩ := pack_finite s hm (show e < 972 by omega)
    · rw [hpack]
      have hexp : (BitVec.ofNat 11 (e + 1075).toNat).toNat = (e + 1075).toNat := by
        rw [BitVec.toNat_ofNat]
        omega
      refine within_unpack_packComponents s _ ?_ ?_ <;> rw [hexp] <;> omega
    · rw [hpack]
      exact within_unpack_packComponents s _ (by decide) (by simpa using hlow)

/-- The random part of a depth is a finite number. -/
theorem isFinite_jitter (ws : Words) : (ws.real 0.0 Depth.jitter).1.isFinite = true := by
  have hword : Within 65 (ws.next.1 >>> 11).toFloat.toModel.unpack :=
    within_unpack_pack (within_ofNat (UInt64.toNat_lt _)) (by decide) (by decide)
  have hresolution : Within 0 Words.resolution.toModel.unpack := by decide +kernel
  have hfraction : Within 66 (Words.fraction ws.next.1).toModel.unpack :=
    within_unpack_pack (within_mul hword hresolution (by decide)) (by decide) (by decide)
  have hspan : Within 0 (Depth.jitter - 0.0).toModel.unpack := by decide +kernel
  have hoffset : Within 67 ((Depth.jitter - 0.0) * Words.fraction ws.next.1).toModel.unpack :=
    within_unpack_pack (within_mul hspan hfraction (by decide)) (by decide) (by decide)
  have hzero : (0.0 : Float).toModel.unpack = .zero .positive := rfl
  refine Within.isFinite (within_unpack_pack (k := 67) ?_ (by decide) (by decide))
  rw [hzero]
  exact within_zero_add _ hoffset

end BrokerForest.Double
