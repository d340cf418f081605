import PulseTrain.Proofs.Binary.Mantissa

/-!
# Packing

Every result is packed into the bits of its format and read back by the next
operation.  Packing keeps a canonical number as it is, unless its exponent is too
large: such a number comes back as infinity.
-/

namespace PulseTrain.Binary

open Float.Model Float.Model.UnpackedFloat

/-- The exponent of the first power of two beyond the numbers of the format. -/
def endExponent (F : Format) : ℤ := 2 ^ (F.exponentBits - 1)

variable {F : Format}

theorem two_pow_exponentBits (F : Format) :
    ((2 ^ F.exponentBits : ℕ) : ℤ) = 2 * endExponent F := by
  have := F.he
  unfold endExponent
  rw [← pow_succ', Nat.sub_add_cancel (by omega)]
  push_cast
  rfl

theorem minExponent_eq (F : Format) :
    F.minExponent = 3 - endExponent F - F.mantissaBits := rfl

theorem bias_eq (F : Format) :
    ((F.exponentBias + F.mantissaBitsWithoutImplicit : ℕ) : ℤ) =
      endExponent F + F.mantissaBits - 2 := by
  have : 1 ≤ 2 ^ (F.exponentBits - 1) := Nat.one_le_two_pow
  unfold Format.exponentBias Format.mantissaBits endExponent
  push_cast [Nat.cast_sub this]
  ring

@[simp] theorem unpack_pack_zero (sign : Sign) : unpack F (pack F (.zero sign)) = .zero sign :=
  unpack_packedZero

@[simp] theorem unpack_pack_infinity (sign : Sign) :
    unpack F (pack F (.infinity sign)) = .infinity sign := by
  simp [UnpackedFloat.unpack, UnpackedFloat.pack, packedInfinity]

theorem unpack_packComponents_of_ones (sign : Sign)
    (mantissa : BitVec F.mantissaBitsWithoutImplicit) :
    unpack F (packComponents F sign (-1#_) mantissa) =
      if mantissa = 0#_ then .infinity sign else .notANumber := by
  simp [UnpackedFloat.unpack]

theorem unpack_packComponents_of_zero {sign : Sign}
    {mantissa : BitVec F.mantissaBitsWithoutImplicit} (h : 0 < mantissa.toNat) :
    unpack F (packComponents F sign 0#_ mantissa) =
      .finite sign mantissa.toNat F.minExponent h := by
  have hexponent : (0#F.exponentBits) ≠ -1#_ := by
    have := F.he
    simp [this.ne']
  have hmantissa : mantissa ≠ 0#_ := fun heq => by simp [heq] at h
  have hbias := bias_eq F
  have hmin := minExponent_eq F
  push_cast at hbias
  simp only [UnpackedFloat.unpack, unpackExponent_packComponents, unpackMantissa_packComponents,
    unpackSign_packComponents, Sign.ofBitVec_toBitVec, if_neg hexponent, if_true,
    dif_neg hmantissa, UnpackedFloat.finite.injEq, true_and, BitVec.toNat_zero]
  push_cast
  omega

theorem unpack_packComponents_of_ne {sign : Sign} {exponent : BitVec F.exponentBits}
    {mantissa : BitVec F.mantissaBitsWithoutImplicit} (hzero : exponent ≠ 0#_)
    (hones : exponent ≠ -1#_) :
    unpack F (packComponents F sign exponent mantissa) =
      .finite sign (2 ^ F.mantissaBitsWithoutImplicit + mantissa.toNat)
        (exponent.toNat - (F.exponentBias + F.mantissaBitsWithoutImplicit)) (by positivity) := by
  simp only [UnpackedFloat.unpack, unpackExponent_packComponents, unpackMantissa_packComponents,
    unpackSign_packComponents, Sign.ofBitVec_toBitVec, if_neg hones, if_neg hzero,
    UnpackedFloat.finite.injEq, true_and, and_true]
  have hor := Nat.two_pow_add_eq_or_of_lt mantissa.isLt 1
  rw [mul_one] at hor
  rw [BitVec.toNat_append, hor, ← Nat.one_shiftLeft]
  rfl

/-- An exponent within the range of the format comes back with its mantissa. -/
theorem unpack_pack_of_le {sign : Sign} {m : ℕ} {e : ℤ} {hm : 0 < m}
    (h : Canonical F (.finite sign m e hm)) (hend : e + F.mantissaBits ≤ endExponent F) :
    unpack F (pack F (.finite sign m e hm)) = .finite sign m e hm := by
  have hbias := bias_eq F
  have hpow := two_pow_exponentBits F
  have hmin := h.minExponent_le
  have hlt := h.mantissa_lt
  have hbits : F.mantissaBits = 1 + F.mantissaBitsWithoutImplicit := rfl
  rw [minExponent_eq] at hmin
  push_cast at hbias
  unfold UnpackedFloat.pack
  extract_lets length biased
  have hbiased : (biased : ℤ) = e + endExponent F + F.mantissaBits - 2 := by
    omega
  have hexponent : (BitVec.ofNat F.exponentBits biased).toNat = biased := by
    rw [BitVec.toNat_ofNat, Nat.mod_eq_of_lt (by omega)]
  rw [if_neg (by omega)]
  split
  · next hlength =>
    have hlow : 2 ^ F.mantissaBitsWithoutImplicit ≤ m := by
      rw [← Nat.le_log2 hm.ne']
      omega
    have hmantissa : (BitVec.ofNat F.mantissaBitsWithoutImplicit m).toNat =
        m - 2 ^ F.mantissaBitsWithoutImplicit := by
      rw [hbits, pow_add, pow_one] at hlt
      rw [BitVec.toNat_ofNat, Nat.mod_eq_sub_mod hlow, Nat.mod_eq_of_lt (by omega)]
    rw [unpack_packComponents_of_ne]
    · simp only [UnpackedFloat.finite.injEq, true_and, hmantissa, hexponent]
      omega
    · intro hzero
      rw [hzero, BitVec.toNat_zero] at hexponent
      omega
    · intro hones
      rw [hones, BitVec.neg_one_eq_allOnes, BitVec.toNat_allOnes] at hexponent
      omega
  · next hlength =>
    have hhigh : m < 2 ^ F.mantissaBitsWithoutImplicit := by
      rw [← Nat.log2_lt hm.ne'] at hlt ⊢
      omega
    have hmantissa : (BitVec.ofNat F.mantissaBitsWithoutImplicit m).toNat = m := by
      rw [BitVec.toNat_ofNat, Nat.mod_eq_of_lt hhigh]
    have hpos : 0 < (BitVec.ofNat F.mantissaBitsWithoutImplicit m).toNat := by rwa [hmantissa]
    have hleast : e = F.minExponent := by
      by_contra hne
      have hfull := h.le_mantissa (lt_of_le_of_ne h.minExponent_le (Ne.symm hne))
      rw [hbits, Nat.add_sub_cancel_left] at hfull
      omega
    rw [unpack_packComponents_of_zero hpos]
    simp only [hmantissa, hleast]

/-- An exponent beyond the range of the format is lost. -/
theorem unpack_pack_of_lt {sign : Sign} {m : ℕ} {e : ℤ} {hm : 0 < m}
    (hend : endExponent F < e + F.mantissaBits) :
    unpack F (pack F (.finite sign m e hm)) = .infinity sign := by
  have hbias := bias_eq F
  have hpow := two_pow_exponentBits F
  push_cast at hbias
  unfold UnpackedFloat.pack
  extract_lets length biased
  rw [if_pos (by omega)]
  exact unpack_pack_infinity sign

/-- Whether the format holds numbers of this size. -/
def InRange (F : Format) : UnpackedFloat → Prop
  | .finite _ _ e _ => e + F.mantissaBits ≤ endExponent F
  | _ => True

/-- What is read back is canonical and within the range of the format. -/
structure Stored (F : Format) (u : UnpackedFloat) : Prop where
  canonical : Canonical F u
  inRange : InRange F u

theorem two_le_endExponent (hF : 2 ≤ F.exponentBits) : 2 ≤ endExponent F := by
  unfold endExponent
  exact_mod_cast Nat.pow_le_pow_right (n := 2) (by norm_num) (by omega : 1 ≤ F.exponentBits - 1)

/-- Beyond the range of the format the mantissa is of full length. -/
theorem Canonical.zpow_endExponent_le {sign : Sign} {m : ℕ} {e : ℤ} {hm : 0 < m}
    (hF : 2 ≤ F.exponentBits) (h : Canonical F (.finite sign m e hm))
    (hover : endExponent F < e + F.mantissaBits) : (2 : ℝ) ^ endExponent F ≤ m * 2 ^ e := by
  have hfull : 2 ^ (F.mantissaBits - 1) ≤ m := by
    apply h.le_mantissa
    have := two_le_endExponent hF
    rw [minExponent_eq]
    omega
  calc (2 : ℝ) ^ endExponent F ≤ 2 ^ (e + F.mantissaBits - 1) :=
        zpow_le_zpow_right₀ (by norm_num) (by omega)
    _ = ((2 ^ (F.mantissaBits - 1) : ℕ) : ℝ) * 2 ^ e := zpow_add_sub_one e
    _ ≤ m * 2 ^ e := by gcongr

theorem stored_unpack (hF : 2 ≤ F.exponentBits) (b : BitVec F.numBits) :
    Stored F (unpack F b) := by
  have hbias := bias_eq F
  have hpow := two_pow_exponentBits F
  have hmin := minExponent_eq F
  have hend := two_le_endExponent hF
  have hbits : F.mantissaBits = 1 + F.mantissaBitsWithoutImplicit := rfl
  push_cast at hbias
  rw [← packComponents_unpackSign_unpackExponent_unpackMantissa b]
  generalize Sign.ofBitVec (unpackSign b) = sign
  generalize unpackExponent b = exponent
  generalize unpackMantissa b = mantissa
  by_cases hones : exponent = -1#_
  · rw [hones, unpack_packComponents_of_ones]
    split <;> exact ⟨trivial, trivial⟩
  by_cases hzero : exponent = 0#_
  · subst hzero
    rcases mantissa.toNat.eq_zero_or_pos with hmantissa | hmantissa
    · obtain rfl : mantissa = 0#_ := BitVec.eq_of_toNat_eq (by simpa using hmantissa)
      change Stored F (unpack F (packedZero F sign))
      rw [unpack_packedZero]
      exact ⟨trivial, trivial⟩
    · rw [unpack_packComponents_of_zero hmantissa]
      have hlog := (Nat.log2_lt hmantissa.ne').mpr mantissa.isLt
      constructor
      · simp only [Canonical, Format.targetExponent, totalExponent]
        omega
      · simp only [InRange]
        omega
  · rw [unpack_packComponents_of_ne hzero hones]
    have hlow : exponent.toNat ≠ 0 := fun h => hzero (BitVec.eq_of_toNat_eq (by simpa using h))
    have hhigh : exponent.toNat ≠ 2 ^ F.exponentBits - 1 := fun h =>
      hones (BitVec.eq_of_toNat_eq (by
        rw [BitVec.neg_one_eq_allOnes, BitVec.toNat_allOnes, h]))
    have hlt := exponent.isLt
    have hlog : (2 ^ F.mantissaBitsWithoutImplicit + mantissa.toNat).log2 =
        F.mantissaBitsWithoutImplicit := by
      have := mantissa.isLt
      rw [Nat.log2_eq_iff (by positivity), pow_succ]
      omega
    constructor
    · simp only [Canonical, Format.targetExponent, totalExponent, hlog]
      omega
    · simp only [InRange]
      omega

end PulseTrain.Binary
