import Mathlib
/-!
# Doubles: their bits, and which of them are numbers

A double is what its sixty-four bits say: a sign, eleven bits of exponent and fifty-two of
mantissa.  Arithmetic takes the bits apart, computes exactly, rounds, and packs the result
into bits again.  This file shows that packing makes no number of what is none and loses none,
and hence which operations lead from numbers to numbers.

Main statements:

* `Double.pack_finite`, `Double.pack_great` — the bits that a finite double is packed into;
* `Double.isNaN_unpack_pack` — packing makes no number of what is none, and loses none;
* `Double.toBits_ofBits` — bits of a number are the bits of the number that they stand for;
* **`Double.isNaN_add`**, **`Double.isNaN_sub`** — a finite number added to a number, or
  subtracted from it, leads to a number, which may be an infinity.
-/

namespace BrokerForest.Double

open Float.Model
open UnpackedFloat hiding unpack pack

variable {spec : Format}

/-- A mantissa with its implicit bit. -/
theorem toNat_implicit (m : BitVec 52) : (1#1 ++ m).toNat = 2 ^ 52 + m.toNat := by
  rw [BitVec.toNat_append, ← Nat.shiftLeft_add_eq_or_of_lt m.isLt]
  rfl

/-- The bias of the exponents of doubles. -/
theorem exponentBias_binary64 : Format.binary64.exponentBias = 1023 := rfl

/-- The exponent as the bits have it. -/
theorem biased_binary64 (e : Int) :
    e + (Format.binary64.exponentBias : Nat) + (52 : Nat) = e + 1075 := by
  rw [exponentBias_binary64]
  omega

/-- A finite double whose exponent is too great has the bits of an infinity. -/
theorem pack_great (s : Sign) {m : Nat} {e : Int} (hm : 0 < m) (he : 972 ≤ e) :
    UnpackedFloat.pack .binary64 (.finite s m e hm) = packedInfinity .binary64 s := by
  rw [UnpackedFloat.pack]
  simp only [biased_binary64]
  exact if_pos (by omega)

/-- A finite double whose exponent is not too great has the bits of its mantissa, after those
of its exponent if the mantissa is long enough, and after zeros if it is not. -/
theorem pack_finite (s : Sign) {m : Nat} {e : Int} (hm : 0 < m) (he : e < 972) :
    (m.log2 = 52 ∧
      UnpackedFloat.pack .binary64 (.finite s m e hm) =
        packComponents .binary64 s (BitVec.ofNat _ (e + 1075).toNat) (BitVec.ofNat _ m)) ∨
    (m.log2 ≠ 52 ∧
      UnpackedFloat.pack .binary64 (.finite s m e hm) =
        packComponents .binary64 s 0#_ (BitVec.ofNat _ m)) := by
  have hbits : Format.binary64.mantissaBits = 53 := rfl
  rw [UnpackedFloat.pack]
  simp only [biased_binary64, hbits]
  rw [if_neg (by omega)]
  by_cases hlog : m.log2 = 52
  · exact .inl ⟨hlog, if_pos (by omega)⟩
  · exact .inr ⟨hlog, if_neg (by omega)⟩

/-- What stands for no number can be told from the bits alone. -/
theorem isNaN_unpack (b : BitVec spec.numBits) :
    (UnpackedFloat.unpack spec b).isNaN = isNaNBits b := by
  unfold isNaNBits UnpackedFloat.unpack UnpackedFloat.isNaN
  grind

/-- What is packed stands for no number if and only if it was none. -/
theorem isNaN_unpack_pack (u : UnpackedFloat) :
    (UnpackedFloat.unpack .binary64 (UnpackedFloat.pack .binary64 u)).isNaN = u.isNaN := by
  match u with
  | .notANumber =>
    have hNaN : UnpackedFloat.pack .binary64 .notANumber = packedNaN .binary64 := rfl
    rw [hNaN, unpack_packedNaN]
  | .infinity s =>
    have hinf : UnpackedFloat.pack .binary64 (.infinity s) = packedInfinity .binary64 s := rfl
    have hnum : (UnpackedFloat.infinity s).isNaN = false := rfl
    rw [hnum, hinf, isNaN_unpack]
    simp [isNaNBits, packedInfinity]
  | .zero s =>
    have hzero : UnpackedFloat.pack .binary64 (.zero s) = packedZero .binary64 s := rfl
    rw [hzero, unpack_packedZero]
  | .finite s m e hm =>
    have hnum : (UnpackedFloat.finite s m e hm).isNaN = false := rfl
    rw [hnum, isNaN_unpack, isNaNBits]
    by_cases he : e < 972
    · obtain ⟨-, hpack⟩ | ⟨-, hpack⟩ := pack_finite s hm he
      · rw [hpack, unpackExponent_packComponents]
        have hall : BitVec.ofNat 11 (e + 1075).toNat ≠ 2047#11 := by
          intro hall
          have := congrArg BitVec.toNat hall
          simp at this
          omega
        simp [hall]
      · simp [hpack]
    · simp [pack_great s hm (not_lt.1 he), packedInfinity]

/-- Bits of a number are the bits of the number that they stand for. -/
theorem toBits_ofBits {bits : UInt64} (h : (Float.ofBits bits).isNaN = false) :
    (Float.ofBits bits).toBits = bits := by
  have hnum : @isNaNBits .binary64 bits.toBitVec = false := by
    rw [← isNaN_unpack, ← isNaN_unpack_pack]
    exact h
  refine UInt64.toBitVec_inj.1 ((@pack_unpack .binary64 bits.toBitVec (by decide)).trans ?_)
  simp only [hnum, Bool.false_eq_true, if_false]

/-- Rounding leads to a finite number. -/
theorem isFinite_roundWithAccuracy (s : Sign) (m : Nat) (e : Int) (a : Accuracy) :
    (roundWithAccuracy spec s m e a).isFinite = true := by
  simp only [roundWithAccuracy]
  split <;> rfl

/-- And so does bringing a number into its form. -/
theorem isFinite_normalize (m e : Int) (s : Sign) :
    (UnpackedFloat.normalize spec m e s).isFinite = true := by
  unfold UnpackedFloat.normalize
  split
  · exact isFinite_roundWithAccuracy ..
  · rfl
  · exact isFinite_roundWithAccuracy ..

/-- A finite number is a number. -/
theorem isNaN_of_isFinite {u : UnpackedFloat} (h : u.isFinite = true) : u.isNaN = false := by
  cases u with
  | notANumber => cases h
  | infinity | zero | finite => rfl

/-- A number and a finite number have a sum. -/
theorem isNaN_unpacked_add {u v : UnpackedFloat} (hu : u.isNaN = false) (hv : v.isFinite = true) :
    (UnpackedFloat.add spec u v).isNaN = false := by
  cases u with
  | notANumber => cases hu
  | infinity =>
    cases v with
    | notANumber | infinity => cases hv
    | zero | finite => rfl
  | zero =>
    cases v with
    | notANumber | infinity => cases hv
    | zero => simp only [UnpackedFloat.add]; split <;> rfl
    | finite => rfl
  | finite =>
    cases v with
    | notANumber | infinity => cases hv
    | zero => rfl
    | finite => exact isNaN_of_isFinite (isFinite_normalize ..)

/-- A difference is the sum with the opposite. -/
theorem unpacked_sub_eq_add_neg (u v : UnpackedFloat) :
    UnpackedFloat.sub spec u v = UnpackedFloat.add spec u v.neg := by
  have happly (s : Sign) (n : Int) : (-s).apply n = -s.apply n := by
    cases s
    · exact (Int.neg_neg n).symm
    · rfl
  cases u <;> cases v <;>
    simp only [UnpackedFloat.sub, UnpackedFloat.add, UnpackedFloat.neg, happly, Int.sub_eq_add_neg]

/-- A finite number added to a number leads to a number. -/
theorem isNaN_add {x y : Float} (hx : x.isNaN = false) (hy : y.isFinite = true) :
    (x + y).isNaN = false :=
  (isNaN_unpack_pack _).trans (isNaN_unpacked_add hx hy)

/-- A finite number subtracted from a number leads to a number. -/
theorem isNaN_sub {x y : Float} (hx : x.isNaN = false) (hy : y.isFinite = true) :
    (x - y).isNaN = false := by
  refine (isNaN_unpack_pack _).trans ?_
  rw [unpacked_sub_eq_add_neg]
  refine isNaN_unpacked_add hx ?_
  change UnpackedFloat.isFinite y.toModel.unpack = true at hy
  generalize y.toModel.unpack = v at hy ⊢
  cases v with
  | notANumber | infinity => cases hy
  | zero | finite => rfl

end BrokerForest.Double
