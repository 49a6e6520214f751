import BrokerForest.Pool.Global
import BrokerForest.Proofs.DepthOrder
import BrokerForest.Proofs.Magnitude
/-!
# Rounding: nothing is rounded past a double

The share of a pool is the product of the number of its members and of a fraction, computed in
doubles and then brought to a whole number.  Each of these steps rounds, and may round up.  But
what is no greater than a double is no greater after rounding, nor is what is a little greater,
as long as no other double is as close.  A whole number of at most fifty-three bits is a double
itself.

Main statements:

* `Double.Upto`, `Double.Tight` — bounds on doubles, and what is rounded to them;
* `Double.Tight.upto_roundWithAccuracy`, `Double.upto_mul`, `Double.upto_unpack_pack` — bounds on
  what is rounded, on products and on what is packed;
* `Double.tight_natCast` — a whole number is a double;
* `Double.upto_clamp` — a fraction that is clamped is at most one, whatever it was;
* **`Global.share_le`** — a share is no more than there is to be shared.
-/

namespace BrokerForest

namespace Double

open Float.Model
open UnpackedFloat hiding unpack pack

/-- An unpacked double whose size is at most `b`, unless it is no number. -/
def Upto (b : ℚ) : UnpackedFloat → Prop
  | .notANumber | .zero _ => True
  | .finite _ m e _ => (m : ℚ) * 2 ^ e ≤ b
  | .infinity _ => False

/-- What is at most `c` is rounded to at most `b`: this is a double, and `c` is closer to it than
to any that is greater. -/
def Tight (b c : ℚ) : Prop :=
  0 < c → ∃ (n : ℕ) (t : ℤ), 2 ^ 52 ≤ n ∧ n < 2 ^ 53 ∧ -1074 ≤ t ∧ b = n * 2 ^ t ∧
    2 * c < (2 * n + 1) * 2 ^ t

variable {m n : ℕ} {e : ℤ} {b c : ℚ}

/-! ## Powers of two -/

/-- A whole number of `k` binary places is compared without them. -/
theorem mul_two_zpow_neg_le_iff {k : ℕ} :
    (m : ℚ) * 2 ^ (-(k : ℤ)) ≤ n ↔ m ≤ n * 2 ^ k := by
  rw [zpow_neg, zpow_natCast, mul_inv_le_iff₀ (by positivity)]
  norm_cast

/-- A few bits far enough behind the point come to less than one. -/
theorem mul_two_zpow_neg_le {j k : ℕ} (hm : m ≤ 2 ^ j) (hjk : j ≤ k) (hn : 0 < n) :
    (m : ℚ) * 2 ^ (-(k : ℤ)) ≤ n := by
  rw [mul_two_zpow_neg_le_iff]
  calc m ≤ 2 ^ k := hm.trans (Nat.pow_le_pow_right Nat.two_pos hjk)
    _ ≤ n * 2 ^ k := Nat.le_mul_of_pos_left _ hn

/-- The leading bit of a double that is less than a power of two. -/
theorem log2_add_lt {k : ℤ} (hm : m ≠ 0) (h : (m : ℚ) * 2 ^ e < 2 ^ k) : m.log2 + e < k := by
  have hbit : ((2 ^ m.log2 : ℕ) : ℚ) ≤ m := by exact_mod_cast Nat.log2_self_le hm
  have hpow : (2 : ℚ) ^ ((m.log2 : ℤ) + e) < 2 ^ k := by
    calc (2 : ℚ) ^ ((m.log2 : ℤ) + e) = (2 ^ m.log2 : ℕ) * 2 ^ e := by
          rw [zpow_add₀ two_ne_zero, zpow_natCast]
          norm_cast
      _ ≤ m * 2 ^ e := by gcongr
      _ < 2 ^ k := h
  exact (zpow_lt_zpow_iff_right₀ one_lt_two).1 hpow

/-! ## Rounding -/

/-- The first bit that is cut off decides whether a mantissa is rounded up. -/
theorem roundedMantissa_shiftRight_succ {k : ℕ} (h : 2 * m < (2 * n + 1) * 2 ^ (k + 1)) :
    (ExtendedMantissa.ofMantissaAndAccuracy m .exact >>> (k + 1)).roundedMantissa ≤ n := by
  have hmantissa := mantissa_shiftRight (ExtendedMantissa.ofMantissaAndAccuracy m .exact) k
  have hstep : ExtendedMantissa.ofMantissaAndAccuracy m .exact >>> (k + 1) =
      (ExtendedMantissa.ofMantissaAndAccuracy m .exact >>> k).shiftRightOne := rfl
  have hbits : m / 2 ^ k < 2 * n + 1 := by
    rw [Nat.div_lt_iff_lt_mul (Nat.two_pow_pos k)]
    rw [Nat.pow_succ, ← Nat.mul_assoc] at h
    omega
  rw [hstep]
  generalize ExtendedMantissa.ofMantissaAndAccuracy m .exact >>> k = x at hmantissa ⊢
  change x.mantissa = m / 2 ^ k at hmantissa
  rw [← hmantissa] at hbits
  have hround := roundedMantissa_le x.shiftRightOne
  change _ ≤ x.mantissa / 2 + 1 at hround
  by_cases hbelow : x.mantissa / 2 < n
  · omega
  · -- Only if the first bit that is cut off is none could rounding up do harm.
    have heven : (x.mantissa % 2 != 0) = false := by
      rw [bne_eq_false_iff_eq]
      omega
    have hfloor : x.shiftRightOne.roundedMantissa = x.mantissa / 2 := by
      cases hsticky : (x.roundBit || x.stickyBit) <;>
        simp [ExtendedMantissa.roundedMantissa, ExtendedMantissa.shiftRightOne, heven, hsticky,
          ExtendedMantissa.accuracy, Accuracy.roundToNearestEven]
    omega

/-- The first shift, and the rounding after it. -/
theorem Tight.roundedMantissa_le (ht : Tight b c) (hm : 0 < m) (h : (m : ℚ) * 2 ^ e ≤ c) :
    ((shiftToTargetExponent .binary64 m e .exact).1.roundedMantissa : ℚ) *
      2 ^ (shiftToTargetExponent .binary64 m e .exact).2 ≤ b := by
  have hvalue : (0 : ℚ) < m * 2 ^ e := by positivity
  obtain ⟨n, t, hlow, hhigh, hleast, rfl, hc⟩ := ht (hvalue.trans_le h)
  have hbelow : 2 * ((m : ℚ) * 2 ^ e) < (2 * n + 1) * 2 ^ t :=
    (mul_le_mul_of_nonneg_left h zero_le_two).trans_lt hc
  have hlead : m.log2 + e < 53 + t := by
    refine log2_add_lt hm.ne' ?_
    have hwhole : (2 * n + 1 : ℚ) ≤ 2 * 2 ^ (53 : ℤ) := by exact_mod_cast (by omega)
    have hpow : (2 * n + 1 : ℚ) * 2 ^ t ≤ 2 * 2 ^ (53 : ℤ) * 2 ^ t := by gcongr
    rw [zpow_add₀ two_ne_zero]
    linarith
  have htarget : Format.targetExponent .binary64 (totalExponent m e) =
      max (totalExponent m e - 53) (-1074) := rfl
  simp only [shiftToTargetExponent, shiftToExponent, htarget]
  generalize hk : (max (totalExponent m e - 53) (-1074) - e).toNat = k
  simp only [totalExponent] at hk
  obtain hless | hge := lt_or_ge (e + k) t
  · -- Whatever has so small an exponent is far below.
    have hbits : m / 2 ^ k < 2 ^ 53 := by
      rw [Nat.div_lt_iff_lt_mul (Nat.two_pow_pos k), ← Nat.pow_add]
      exact Nat.lt_log2_self.trans_le (Nat.pow_le_pow_right Nat.two_pos (by omega))
    have hround := Double.roundedMantissa_le (ExtendedMantissa.ofMantissaAndAccuracy m .exact >>> k)
    rw [mantissa_shiftRight] at hround
    change _ ≤ m / 2 ^ k + 1 at hround
    have hsize : (ExtendedMantissa.ofMantissaAndAccuracy m .exact >>> k).roundedMantissa ≤
        2 ^ 52 * 2 := by omega
    calc _ ≤ ((2 ^ 52 * 2 : ℕ) : ℚ) * 2 ^ (t - 1) := by
          gcongr
          · exact one_le_two
          · omega
      _ = (2 ^ 52 : ℕ) * 2 ^ t := by
          rw [zpow_sub₀ two_ne_zero]
          push_cast
          ring
      _ ≤ n * 2 ^ t := by gcongr
  · cases k with
    | zero =>
        obtain ⟨j, rfl⟩ : ∃ j : ℕ, e = t + j := ⟨(e - t).toNat, by omega⟩
        have hexact : (ExtendedMantissa.ofMantissaAndAccuracy m .exact >>> 0).roundedMantissa =
            m := rfl
        rw [zpow_add₀ two_ne_zero, zpow_natCast] at hbelow
        have hwhole : 2 * (m * 2 ^ j) < 2 * n + 1 := by
          have hpos : (0 : ℚ) < 2 ^ t := by positivity
          have hsmall : (2 * (m * 2 ^ j) : ℚ) * 2 ^ t < (2 * n + 1) * 2 ^ t := by linarith
          exact_mod_cast lt_of_mul_lt_mul_right hsmall hpos.le
        have hle : m * 2 ^ j ≤ n := by omega
        rw [hexact, Int.natCast_zero, Int.add_zero, zpow_add₀ two_ne_zero, zpow_natCast]
        calc (m : ℚ) * (2 ^ t * 2 ^ j) = (m * 2 ^ j : ℕ) * 2 ^ t := by
              push_cast
              ring
          _ ≤ n * 2 ^ t := by gcongr
    | succ k =>
        obtain rfl : t = e + (k + 1 : ℕ) := by omega
        rw [zpow_add₀ two_ne_zero, zpow_natCast] at hbelow
        have hwhole : 2 * m < (2 * n + 1) * 2 ^ (k + 1) := by
          have hpos : (0 : ℚ) < 2 ^ e := by positivity
          have hsmall : (2 * m : ℚ) * 2 ^ e < (2 * n + 1) * 2 ^ (k + 1) * 2 ^ e := by linarith
          exact_mod_cast lt_of_mul_lt_mul_right hsmall hpos.le
        have hround := roundedMantissa_shiftRight_succ hwhole
        gcongr

/-- Shifting once more makes nothing greater. -/
theorem mantissa_mul_le (m : ℕ) (e : ℤ) :
    ((shiftToTargetExponent .binary64 m e .exact).1.mantissa : ℚ) *
      2 ^ (shiftToTargetExponent .binary64 m e .exact).2 ≤ m * 2 ^ e := by
  simp only [shiftToTargetExponent, shiftToExponent, mantissa_shiftRight]
  generalize (Format.targetExponent .binary64 (totalExponent m e) - e).toNat = k
  have hdiv : ((m / 2 ^ k * 2 ^ k : ℕ) : ℚ) ≤ m := by exact_mod_cast Nat.div_mul_le_self m _
  calc ((m / 2 ^ k : ℕ) : ℚ) * 2 ^ (e + k) = (m / 2 ^ k * 2 ^ k : ℕ) * 2 ^ e := by
        rw [zpow_add₀ two_ne_zero, zpow_natCast]
        push_cast
        ring
    _ ≤ m * 2 ^ e := by gcongr

/-- **Nothing is rounded past a double.** -/
theorem Tight.upto_roundWithAccuracy (s : Sign) (ht : Tight b c) (hm : 0 < m)
    (h : (m : ℚ) * 2 ^ e ≤ c) : Upto b (roundWithAccuracy .binary64 s m e .exact) := by
  simp only [roundWithAccuracy]
  split
  · trivial
  · exact (mantissa_mul_le ..).trans (ht.roundedMantissa_le hm h)

/-- Writing a number with a smaller exponent leaves it what it is. -/
theorem decreaseExponent_mul (m : Nat) (e t : Int) :
    ((decreaseExponent m e t).1 : ℚ) * 2 ^ (decreaseExponent m e t).2 = m * 2 ^ e := by
  simp only [decreaseExponent]
  rw [Nat.shiftLeft_eq, zpow_sub₀ two_ne_zero, zpow_natCast]
  push_cast
  field_simp

/-- A whole number is a double. -/
theorem tight_natCast (hn : n < 2 ^ 53) : Tight n n := by
  intro hpos
  have hnz : n ≠ 0 := by
    rintro rfl
    simp at hpos
  have hlog : n.log2 < 53 := (Nat.log2_lt hnz).2 hn
  have hpow : (n : ℚ) = (n * 2 ^ (52 - n.log2) : ℕ) * 2 ^ ((n.log2 : ℤ) - 52) := by
    have hexp : ((n.log2 : ℤ) - 52) = -((52 - n.log2 : ℕ) : ℤ) := by omega
    rw [hexp, zpow_neg, zpow_natCast]
    push_cast
    field_simp
  refine ⟨n * 2 ^ (52 - n.log2), n.log2 - 52, ?_, ?_, by omega, hpow, ?_⟩
  · calc 2 ^ 52 = 2 ^ n.log2 * 2 ^ (52 - n.log2) := by rw [← Nat.pow_add]; congr 1; omega
      _ ≤ n * 2 ^ (52 - n.log2) := Nat.mul_le_mul_right _ (Nat.log2_self_le hnz)
  · calc n * 2 ^ (52 - n.log2) < 2 ^ (n.log2 + 1) * 2 ^ (52 - n.log2) :=
          Nat.mul_lt_mul_of_pos_right Nat.lt_log2_self (Nat.two_pow_pos _)
      _ = 2 ^ 53 := by rw [← Nat.pow_add]; congr 1; omega
  · have hstep : (0 : ℚ) < 2 ^ ((n.log2 : ℤ) - 52) := by positivity
    linarith

/-- A whole number stays what it is. -/
theorem upto_ofNat (hn : n < 2 ^ 53) : Upto n (UnpackedFloat.ofNat .binary64 n) := by
  obtain rfl | hpos := Nat.eq_zero_or_pos n
  · trivial
  · have hgt : compare (n : Int) 0 = .gt := compare_gt_iff_gt.2 (by omega)
    simp only [UnpackedFloat.ofNat, UnpackedFloat.ofInt, UnpackedFloat.normalize, hgt,
      Int.toNat_natCast]
    refine (tight_natCast hn).upto_roundWithAccuracy _ ?_ ?_
    · simp only [Nat.shiftLeft_eq]
      positivity
    · exact ((decreaseExponent_mul n 0 _).trans (by simp)).le

/-- A product is rounded to what its bound is rounded to. -/
theorem upto_mul {u v : UnpackedFloat} {p q : ℚ} (ht : Tight b (p * q)) (hu : Upto p u)
    (hv : Upto q v) : Upto b (UnpackedFloat.mul .binary64 u v) := by
  match u, v with
  | .infinity _, _ => cases hu
  | .zero _, .infinity _ | .finite .., .infinity _ | .notANumber, .infinity _ => cases hv
  | .notANumber, .notANumber | .notANumber, .zero _ | .notANumber, .finite .. => trivial
  | .zero _, .notANumber | .zero _, .zero _ | .zero _, .finite .. => trivial
  | .finite .., .notANumber | .finite .., .zero _ => trivial
  | .finite s m e hm, .finite t k f hk =>
    change (m : ℚ) * 2 ^ e ≤ p at hu
    have hp : 0 ≤ p := hu.trans' (by positivity)
    apply ht.upto_roundWithAccuracy _ (Nat.mul_pos hm hk)
    calc ((m * k : ℕ) : ℚ) * 2 ^ (e + f) = (m * 2 ^ e) * (k * 2 ^ f) := by
          rw [zpow_add₀ two_ne_zero]
          push_cast
          ring
      _ ≤ p * q := mul_le_mul hu hv (by positivity) hp

/-! ## Packing -/

/-- Bits in parts stand for a very small double, or for one that can be read off them. -/
theorem upto_unpack_packComponents (s : Sign) {x : BitVec 11} {v : BitVec 52}
    (hall : x.toNat < 2047) (hsmall : 2 ^ (-1022 : ℤ) ≤ b)
    (hgreat : x.toNat ≠ 0 → ((2 ^ 52 + v.toNat : ℕ) : ℚ) * 2 ^ ((x.toNat : ℤ) - 1075) ≤ b) :
    Upto b (UnpackedFloat.unpack .binary64 (packComponents .binary64 s x v)) := by
  have hbias := exponentBias_binary64
  simp only [UnpackedFloat.unpack, unpackExponent_packComponents, unpackMantissa_packComponents]
  rw [if_neg (by rintro rfl; exact absurd hall (by decide))]
  split
  · split
    · trivial
    · rename_i hnone _
      have hzero : x.toNat = 0 := by rw [hnone]; rfl
      have hbits : (v.toNat : ℚ) ≤ 2 ^ 52 := by exact_mod_cast v.isLt.le
      have hfloor : (v.toNat : ℚ) * 2 ^ (-1074 : ℤ) ≤ b := by
        calc (v.toNat : ℚ) * 2 ^ (-1074 : ℤ) ≤ 2 ^ 52 * 2 ^ (-1074 : ℤ) := by gcongr
          _ = 2 ^ (-1022 : ℤ) := by
              rw [← zpow_natCast, ← zpow_add₀ two_ne_zero]
              rfl
          _ ≤ b := hsmall
      simpa [Upto, hbias, hzero] using hfloor
  · rename_i hsome
    have hvalue := toNat_implicit v
    have hnonzero : x.toNat ≠ 0 := fun hzero => hsome (BitVec.toNat_inj.1 (by simpa using hzero))
    have hexponent : (x.toNat : ℤ) - ((Format.binary64.exponentBias : ℕ) + (52 : ℕ)) =
        x.toNat - 1075 := by
      rw [hbias]
      omega
    change (((1#1 ++ v).toNat : ℕ) : ℚ) * 2 ^ ((x.toNat : ℤ) - _) ≤ b
    rw [hvalue, hexponent]
    exact hgreat hnonzero

/-- A bound that is neither very small nor great is kept when a double is packed. -/
theorem upto_unpack_pack {u : UnpackedFloat} (hsmall : 0 < b → 2 ^ (-1022 : ℤ) ≤ b)
    (hb : b < 2 ^ (53 : ℤ)) (h : Upto b u) :
    Upto b (UnpackedFloat.unpack .binary64 (UnpackedFloat.pack .binary64 u)) := by
  match u with
  | .infinity _ => cases h
  | .notANumber =>
    have hNaN : UnpackedFloat.pack .binary64 .notANumber = packedNaN .binary64 := rfl
    rw [hNaN, unpack_packedNaN]
    trivial
  | .zero s =>
    have hzero : UnpackedFloat.pack .binary64 (.zero s) = packedZero .binary64 s := rfl
    rw [hzero, unpack_packedZero]
    trivial
  | .finite s m e hm =>
    change (m : ℚ) * 2 ^ e ≤ b at h
    have hvalue : (0 : ℚ) < m * 2 ^ e := by positivity
    have hlow := hsmall (hvalue.trans_le h)
    have hlead := log2_add_lt hm.ne' (h.trans_lt hb)
    obtain ⟨hlog, hpack⟩ | ⟨-, hpack⟩ := pack_finite s hm (show e < 972 by omega)
    · rw [hpack]
      have hexponent : (BitVec.ofNat 11 (e + 1075).toNat).toNat = (e + 1075).toNat := by
        rw [BitVec.toNat_ofNat]
        omega
      have hmantissa : 2 ^ 52 + (BitVec.ofNat 52 m).toNat = m := by
        have hbits := (Nat.log2_eq_iff hm.ne').1 hlog
        rw [BitVec.toNat_ofNat]
        omega
      apply upto_unpack_packComponents s
      · rw [hexponent]
        omega
      · exact hlow
      · intro hnormal
        rw [hexponent] at hnormal ⊢
        have hsame : ((e + 1075).toNat : ℤ) - 1075 = e := by omega
        rw [hmantissa, hsame]
        exact h
    · rw [hpack]
      exact upto_unpack_packComponents s (by decide) hlow fun hnormal => absurd rfl hnormal

/-- A whole number is such a bound. -/
theorem upto_natCast_unpack_pack {u : UnpackedFloat} (hn : n < 2 ^ 53) (h : Upto n u) :
    Upto n (UnpackedFloat.unpack .binary64 (UnpackedFloat.pack .binary64 u)) := by
  refine upto_unpack_pack (fun hpos => ?_) (by exact_mod_cast hn) h
  have hone : (1 : ℚ) ≤ n := by exact_mod_cast Nat.cast_pos.1 hpos
  exact (zpow_le_one_of_nonpos₀ one_le_two (by decide)).trans hone

/-! ## Reading -/

/-- The exponent of a double, as it is read. -/
theorem toNat_unpackExponent (b : BitVec 64) :
    (@unpackExponent .binary64 b).toNat = b.toNat / 2 ^ 52 % 2048 := by
  simp [unpackExponent, BitVec.extractLsb, BitVec.extractLsb'_toNat, Nat.shiftRight_eq_div_pow]

/-- The mantissa of a double, as it is read. -/
theorem toNat_unpackMantissa (b : BitVec 64) :
    (@unpackMantissa .binary64 b).toNat = b.toNat % 2 ^ 52 := by
  simp [unpackMantissa, BitVec.extractLsb, BitVec.extractLsb'_toNat]

/-- What is read off the bits of a double keeps to its bound. -/
theorem read_le {x : Float} {negative : Bool} (h : Upto n x.toModel.unpack)
    (hread : Binary64.read x = .finite negative m e) : (m : ℚ) * 2 ^ e ≤ n := by
  have hbias := exponentBias_binary64
  change Upto n (UnpackedFloat.unpack .binary64 x.toModel.toBits.toBitVec) at h
  change Binary64.readBits x.toModel.toBits = _ at hread
  generalize x.toModel.toBits = bits at h hread
  have hexponent := toNat_unpackExponent bits.toBitVec
  have hmantissa := toNat_unpackMantissa bits.toBitVec
  have himplicit := toNat_implicit (@unpackMantissa .binary64 bits.toBitVec)
  change _ = bits.toNat / Nat.pow 2 52 % 2048 at hexponent
  change _ = bits.toNat % Nat.pow 2 52 at hmantissa
  simp only [Binary64.readBits, ← hexponent, ← hmantissa] at hread
  simp only [UnpackedFloat.unpack] at h
  split at hread
  · split at hread <;> cases hread
  · rename_i hfinite
    rw [if_neg (fun hall => hfinite (by rw [hall]; rfl))] at h
    split at hread
    · rename_i hzero
      cases hread
      rw [if_pos (BitVec.toNat_inj.1 hzero)] at h
      split at h
      · rename_i hnone
        rw [hnone]
        simp
      · simpa [Upto, hbias, hzero] using h
    · rename_i hnormal
      cases hread
      rw [if_neg (fun hzero => hnormal (by rw [hzero]; rfl))] at h
      change (((1#1 ++ @unpackMantissa .binary64 bits.toBitVec).toNat : Nat) : ℚ) * _ ≤ n at h
      rw [himplicit, hbias, Nat.add_comm] at h
      exact h

/-- A mantissa has fifty-three bits at most. -/
theorem mantissa_lt {b : BitVec 64} {s : Sign} {hm : 0 < m}
    (h : UnpackedFloat.unpack .binary64 b = .finite s m e hm) : m < 2 ^ 53 := by
  have hbits := (@unpackMantissa .binary64 b).isLt
  have hvalue := toNat_implicit (@unpackMantissa .binary64 b)
  simp only [UnpackedFloat.unpack] at h
  split at h
  · split at h <;> cases h
  · split at h
    · split at h
      · cases h
      · cases h
        change _ < 2 ^ 52 at hbits
        omega
    · cases h
      change _ < 2 ^ 52 at hbits
      omega

/-- A fraction that is clamped is at most one, unless it is no number. -/
theorem upto_clamp (fraction : Float) : Upto 1 (Global.clamp fraction).toModel.unpack := by
  have hzero : (0.0 : Float).toModel.unpack = .zero .positive := rfl
  have hone : (1.0 : Float).toModel.unpack =
      .finite .positive (2 ^ 52) (-52) (Nat.two_pow_pos 52) := rfl
  unfold Global.clamp
  split
  · rw [hzero]
    trivial
  · rename_i hlow
    split
    · rw [hone]
      exact mul_two_zpow_neg_le (k := 52) (Nat.le_refl _) (Nat.le_refl 52) Nat.one_pos
    · rename_i hhigh
      rw [Depth.lt_iff_unpacked_lt, hzero] at hlow
      rw [Depth.lt_iff_unpacked_lt, hone] at hhigh
      cases hunpack : fraction.toModel.unpack with
      | notANumber | zero => trivial
      | infinity s =>
          rw [hunpack] at hlow hhigh
          cases s with
          | negative => exact absurd rfl hlow
          | positive => exact absurd rfl hhigh
      | finite s m e hm =>
          rw [hunpack] at hlow hhigh
          cases s with
          | negative => exact absurd rfl hlow
          | positive =>
              have hbits := mantissa_lt hunpack
              have hbelow : e < -52 ∨ e = -52 ∧ m ≤ 2 ^ 52 := by
                rw [Depth.unpacked_lt_iff] at hhigh
                simp [Depth.unpackedKey, Prod.Lex.toLex_lt_toLex] at hhigh
                omega
              obtain hless | ⟨rfl, hm⟩ := hbelow
              · obtain ⟨k, rfl⟩ : ∃ k : Nat, e = -((53 + k : Nat) : Int) :=
                  ⟨(-e - 53).toNat, by omega⟩
                exact mul_two_zpow_neg_le hbits.le (Nat.le_add_right ..) Nat.one_pos
              · exact mul_two_zpow_neg_le (k := 52) hm (Nat.le_refl 52) Nat.one_pos

/-! ## Shares -/

/-- A quotient that a whole number bounds is not rounded past it, even if a half goes up. -/
theorem roundDiv_le {k : Nat} (hk : 0 < k) (h : m ≤ n * k) : Binary64.roundDiv .up m k ≤ n := by
  have hfloor : m / k ≤ n := Nat.div_le_of_le_mul (by rwa [Nat.mul_comm] at h)
  by_cases hbelow : m / k < n
  · unfold Binary64.roundDiv
    dsimp only
    split_ifs <;> omega
  · -- Only a quotient that is the whole number itself could be rounded past it.
    have hwhole : m = n * k := by
      apply Nat.le_antisymm h
      rw [show n = m / k by omega]
      exact Nat.div_mul_le_self m k
    rw [hwhole, Binary64.roundDiv, Nat.mul_mod_left, Nat.mul_div_cancel _ hk]
    exact (if_pos hk).le

/-- A double that a whole number bounds is not brought to a greater whole number. -/
theorem scaled_le (h : (m : ℚ) * 2 ^ e ≤ n) : Binary64.scaled .up 1 m e ≤ n := by
  cases e with
  | ofNat k =>
      have hwhole : m * 2 ^ k ≤ n := by
        rw [Int.ofNat_eq_natCast, zpow_natCast] at h
        exact_mod_cast h
      change 1 * m * 2 ^ k ≤ n
      rwa [Nat.one_mul]
  | negSucc k =>
      have hquotient : m ≤ n * 2 ^ (k + 1) := mul_two_zpow_neg_le_iff.1 h
      change Binary64.roundDiv .up (1 * m) (2 ^ (k + 1)) ≤ n
      rw [Nat.one_mul]
      exact roundDiv_le (Nat.two_pow_pos _) hquotient

/-- A count is exact as a double. -/
theorem upto_toFloat (hn : n < 2 ^ 53) : Upto n n.toFloat.toModel.unpack := by
  have hsize : n.toUInt64.toNat = n := Nat.mod_eq_of_lt (by omega)
  have hword : Upto n n.toUInt64.toFloat.toModel.unpack := by
    apply upto_natCast_unpack_pack hn
    rw [UnpackedFloat.ofUInt64.eq_def, hsize]
    exact upto_ofNat hn
  have hone : Upto (1 : ℕ) (Float.ofBits 0x3FF0000000000000).toModel.unpack :=
    mul_two_zpow_neg_le (k := 52) (Nat.le_refl (2 ^ 52)) (Nat.le_refl 52) Nat.one_pos
  have hfast : n.toFloat = n.toUInt64.toFloat * Float.ofBits 0x3FF0000000000000 := by
    exact dif_pos ⟨hn, by decide⟩
  rw [hfast]
  exact upto_natCast_unpack_pack hn (upto_mul (by simpa using tight_natCast hn) hword hone)

end Double

/-- **A share is no more than there is to be shared**, whatever the fraction. -/
theorem Global.share_le {count : Nat} (hcount : count < 2 ^ 53) (fraction : Float) :
    Global.share count fraction ≤ count := by
  have hproduct : Double.Upto count (count.toFloat * Global.clamp fraction).toModel.unpack :=
    Double.upto_natCast_unpack_pack hcount (Double.upto_mul
      (by simpa using Double.tight_natCast hcount) (Double.upto_toFloat hcount)
      (Double.upto_clamp fraction))
  unfold share
  split
  · rename_i m e hread
    exact Double.scaled_le (Double.read_le hproduct hread)
  · exact Nat.zero_le count

-- Half of a peer counts as one.
example : Global.share 10 0.25 = 3 := by decide +kernel

end BrokerForest
