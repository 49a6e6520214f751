import BrokerForest.Proofs.Rounding
/-!
# Jitter: how deep a node on its own is

A node on its own, or at the root of a new tree, is at a random depth between zero and the bound
of the jitter.  It is computed from a word of the stream by a product of a product, and each of
these is rounded, as is the sum with zero after them.  None of it brings in a minus sign, and
none is rounded past the double next to the bound: the greatest fraction is closer to it than to
the bound itself.

Main statements:

* `Double.isNegative_unpack_pack`, `Double.isNegative_mul`, `Double.isNegative_ofNat` — where no
  minus sign comes from;
* `Double.upto_fraction`, `Double.upto_product` — how great a fraction is, and its share of the
  jitter;
* **`Depth.initial_range`** — the depth is no less than zero, and less than the bound.
-/

namespace BrokerForest

namespace Double

open Float.Model
open UnpackedFloat hiding unpack pack

variable {spec : Format}

/-! ## Signs -/

/-- Whether an unpacked double has a minus sign. -/
def isNegative : UnpackedFloat → Bool
  | .infinity .negative | .zero .negative | .finite .negative .. => true
  | _ => false

/-- Bits without a minus sign stand for a double without one. -/
theorem isNegative_unpack_packComponents (x : BitVec spec.exponentBits)
    (v : BitVec spec.mantissaBitsWithoutImplicit) :
    isNegative (UnpackedFloat.unpack spec (packComponents spec .positive x v)) = false := by
  have hsign : Sign.ofBitVec (unpackSign (packComponents spec .positive x v)) = .positive := by
    have hbit : unpackSign (packComponents spec .positive x v) = 0#1 := by
      ext i hi
      have hhigh : ¬ spec.mantissaBitsWithoutImplicit + spec.exponentBits + i <
          spec.mantissaBitsWithoutImplicit := by omega
      simp [unpackSign, packComponents, BitVec.getLsbD_append, Sign.toBitVec, hhigh]
      omega
    rw [hbit]
    rfl
  simp only [UnpackedFloat.unpack, hsign]
  split_ifs <;> rfl

/-- Packing makes no minus sign. -/
theorem isNegative_unpack_pack {u : UnpackedFloat} (h : isNegative u = false) :
    isNegative (UnpackedFloat.unpack spec (UnpackedFloat.pack spec u)) = false := by
  have hpack : ∃ x v, UnpackedFloat.pack spec u = packComponents spec .positive x v := by
    match u with
    | .notANumber => exact ⟨_, _, rfl⟩
    | .infinity .positive | .zero .positive => exact ⟨_, _, rfl⟩
    | .infinity .negative | .zero .negative | .finite .negative .. => cases h
    | .finite .positive m e hm =>
      simp only [UnpackedFloat.pack]
      split_ifs <;> exact ⟨_, _, rfl⟩
  obtain ⟨x, v, heq⟩ := hpack
  rw [heq]
  exact isNegative_unpack_packComponents x v

/-- Nor does a product. -/
theorem isNegative_mul {u v : UnpackedFloat} (hu : isNegative u = false)
    (hv : isNegative v = false) : isNegative (UnpackedFloat.mul spec u v) = false := by
  rcases u with (_ | _) | _ | (_ | _) | ⟨_ | _, m, e, hm⟩ <;>
    rcases v with (_ | _) | _ | (_ | _) | ⟨_ | _, n, f, hn⟩ <;>
    first
      | rfl
      | exact Bool.noConfusion hu
      | exact Bool.noConfusion hv
      | skip
  simp only [UnpackedFloat.mul, roundWithAccuracy]
  split_ifs <;> rfl

/-- Nor does a whole number. -/
theorem isNegative_ofNat (n : ℕ) : isNegative (UnpackedFloat.ofNat spec n) = false := by
  obtain rfl | hpos := Nat.eq_zero_or_pos n
  · rfl
  · have hgt : compare (n : ℤ) 0 = .gt := compare_gt_iff_gt.2 (by omega)
    simp only [UnpackedFloat.ofNat, UnpackedFloat.ofInt, UnpackedFloat.normalize, hgt,
      UnpackedFloat.round, roundWithAccuracy]
    split_ifs <;> rfl

/-- Nothing is added with zero. -/
theorem zero_add_of_not_negative (u : UnpackedFloat) (h : isNegative u = false) :
    UnpackedFloat.add spec (.zero .positive) u = u := by
  rcases u with (_ | _) | _ | (_ | _) | ⟨_ | _, m, e, hm⟩ <;> first | rfl | cases h

/-! ## Bounds -/

/-- Whatever is no less than a sixteenth is no very small bound. -/
theorem least_le {b : ℚ} (h : 2 ^ (-4 : ℤ) ≤ b) : 2 ^ (-1022 : ℤ) ≤ b :=
  (zpow_le_zpow_right₀ one_le_two (by decide)).trans h

/-- The part of a word that is kept is a whole number of fifty-three bits. -/
theorem upto_word (w : UInt64) :
    Upto ((2 ^ 53 - 1 : ℕ) : ℚ) (w >>> 11).toFloat.toModel.unpack ∧
      isNegative (w >>> 11).toFloat.toModel.unpack = false := by
  have hbits : (w >>> 11).toNat ≤ 2 ^ 53 - 1 := by
    have hw := w.toNat_lt
    rw [UInt64.toNat_shiftRight, Nat.shiftRight_eq_div_pow]
    change w.toNat / 2 ^ 11 ≤ _
    omega
  have hexact : Upto ((w >>> 11).toNat : ℚ) (w >>> 11).toFloat.toModel.unpack :=
    upto_natCast_unpack_pack (by omega) (upto_ofNat (by omega))
  refine ⟨?_, isNegative_unpack_pack (isNegative_ofNat _)⟩
  revert hexact
  cases (w >>> 11).toFloat.toModel.unpack with
  | notANumber | zero => exact fun _ => trivial
  | infinity => exact False.elim
  | finite => exact fun h => h.trans (by exact_mod_cast hbits)

/-- The spacing of fractions is a power of two. -/
theorem upto_resolution : Upto (2 ^ (-53 : ℤ)) Words.resolution.toModel.unpack := by
  have hunpack : Words.resolution.toModel.unpack =
      .finite .positive (2 ^ 52) (-105) (Nat.two_pow_pos 52) := by rfl
  rw [hunpack]
  change ((2 ^ 52 : ℕ) : ℚ) * 2 ^ (-105 : ℤ) ≤ _
  norm_num

/-- A mantissa has fifty-three bits, unless the double is very small. -/
theorem mantissa_ge {b : BitVec 64} {s : Sign} {m : ℕ} {e : ℤ} {hm : 0 < m}
    (h : UnpackedFloat.unpack .binary64 b = .finite s m e hm) : e = -1074 ∨ 2 ^ 52 ≤ m := by
  have hvalue := toNat_implicit (@unpackMantissa .binary64 b)
  simp only [UnpackedFloat.unpack] at h
  split at h
  · split at h <;> cases h
  · split at h
    · rename_i hnone
      split at h
      · cases h
      · cases h
        left
        rw [hnone]
        rfl
    · cases h
      right
      omega

/-! ## The random part of a depth -/

/-- A fraction is less than one, by one unit in its last place at least. -/
theorem upto_fraction (w : UInt64) :
    Upto ((2 ^ 53 - 1 : ℕ) * 2 ^ (-53 : ℤ)) (Words.fraction w).toModel.unpack ∧
      isNegative (Words.fraction w).toModel.unpack = false := by
  obtain ⟨hword, hsign⟩ := upto_word w
  have htight : Tight ((2 ^ 53 - 1 : ℕ) * 2 ^ (-53 : ℤ))
      (((2 ^ 53 - 1 : ℕ) : ℚ) * 2 ^ (-53 : ℤ)) :=
    fun _ => ⟨2 ^ 53 - 1, -53, by norm_num, by norm_num, by norm_num, rfl, by norm_num⟩
  refine ⟨?_, isNegative_unpack_pack (isNegative_mul hsign rfl)⟩
  exact upto_unpack_pack (fun _ => least_le (by norm_num)) (by norm_num)
    (upto_mul htight hword upto_resolution)

/-- The bound of the jitter, bit by bit. -/
theorem unpack_span : (Depth.jitter - 0.0).toModel.unpack =
    .finite .positive 7205759403792794 (-56) (by decide) := rfl

/-- A fraction of the jitter is less than its bound, by one unit in its last place at least. -/
theorem upto_product (w : UInt64) :
    Upto ((7205759403792793 : ℕ) * 2 ^ (-56 : ℤ))
        ((Depth.jitter - 0.0) * Words.fraction w).toModel.unpack ∧
      isNegative ((Depth.jitter - 0.0) * Words.fraction w).toModel.unpack = false := by
  obtain ⟨hfraction, hsign⟩ := upto_fraction w
  have hspan : Upto ((7205759403792794 : ℕ) * 2 ^ (-56 : ℤ))
      (Depth.jitter - 0.0).toModel.unpack := by
    rw [unpack_span]
    exact le_rfl
  have htight : Tight ((7205759403792793 : ℕ) * 2 ^ (-56 : ℤ))
      ((7205759403792794 : ℕ) * 2 ^ (-56 : ℤ) * ((2 ^ 53 - 1 : ℕ) * 2 ^ (-53 : ℤ))) :=
    fun _ => ⟨7205759403792793, -56, by norm_num, by norm_num, by norm_num, rfl, by norm_num⟩
  refine ⟨?_, isNegative_unpack_pack (isNegative_mul (by rw [unpack_span]; rfl) hsign)⟩
  exact upto_unpack_pack (fun _ => least_le (by norm_num)) (by norm_num)
    (upto_mul htight hspan hfraction)

/-- The random part of a depth is the fraction of the jitter. -/
theorem unpack_initial (ws : Words) :
    Upto ((7205759403792793 : ℕ) * 2 ^ (-56 : ℤ)) (Depth.initial ws).1.value.toModel.unpack ∧
      isNegative (Depth.initial ws).1.value.toModel.unpack = false := by
  obtain ⟨hproduct, hsign⟩ := upto_product ws.next.1
  have hsum : (Depth.initial ws).1.value.toModel.unpack = UnpackedFloat.unpack .binary64
      (UnpackedFloat.pack .binary64
        ((Depth.jitter - 0.0) * Words.fraction ws.next.1).toModel.unpack) := by
    rw [← zero_add_of_not_negative _ hsign]
    rfl
  rw [hsum]
  exact ⟨upto_unpack_pack (fun _ => least_le (by norm_num)) (by norm_num) hproduct,
    isNegative_unpack_pack hsign⟩

end Double

/-- **The depth of a node on its own is no less than zero, and less than the bound of the
jitter.** -/
theorem Depth.initial_range (ws : Words) :
    (⟨0.0⟩ : Depth) ≤ (Depth.initial ws).1 ∧ (Depth.initial ws).1 < ⟨Depth.jitter⟩ := by
  obtain ⟨hupto, hsign⟩ := Double.unpack_initial ws
  have hfinite : (Depth.initial ws).1.value.toModel.unpack.isFinite = true :=
    Double.isFinite_jitter ws
  have hzero : (⟨0.0⟩ : Depth).key = some (toLex (0, toLex (0, 0))) := rfl
  have hbound : (⟨Depth.jitter⟩ : Depth).key =
      some (toLex (1, toLex (-56, 7205759403792794))) := rfl
  rw [le_iff_key, lt_iff_key, hzero, hbound, key]
  cases hunpack : (Depth.initial ws).1.value.toModel.unpack with
  | notANumber | infinity =>
      rw [hunpack] at hfinite
      cases hfinite
  | zero s => exact ⟨⟨_, _, rfl, rfl, le_rfl⟩, _, _, rfl, rfl, by decide⟩
  | finite s m e hm =>
      rw [hunpack] at hupto hsign
      cases s with
      | negative => cases hsign
      | positive =>
          change (m : ℚ) * 2 ^ e ≤ _ at hupto
          have hbelow : e < -56 ∨ e = -56 ∧ m < 7205759403792794 := by
            obtain rfl | hbits := Double.mantissa_ge hunpack
            · exact Or.inl (by decide)
            have hlead : m.log2 + e < -3 :=
              Double.log2_add_lt hm.ne' (hupto.trans_lt (by norm_num))
            have hlog := (Nat.le_log2 hm.ne').2 hbits
            obtain hless | rfl := lt_or_eq_of_le (show e ≤ -56 by omega)
            · exact Or.inl hless
            · have hscaled : (m : ℚ) ≤ 7205759403792793 :=
                le_of_mul_le_mul_right hupto (by positivity)
              exact Or.inr ⟨rfl, Nat.lt_succ_of_le (by exact_mod_cast hscaled)⟩
          refine ⟨⟨_, _, rfl, rfl, ?_⟩, _, _, rfl, rfl, ?_⟩
          · simp [Prod.Lex.toLex_le_toLex]
          · simp [Prod.Lex.toLex_lt_toLex]
            omega

end BrokerForest
