import PulseTrain.Proofs.Binary.Nearest

/-!
# Rounding a mantissa

An operation computes its exact result only as far as rounding needs it: a whole
mantissa, the bit that follows it and whether anything comes after that bit.
Shifting the mantissa to the last place of the format and rounding it there gives
the nearest number of the format.
-/

namespace PulseTrain.Binary

open Float.Model Float.Model.UnpackedFloat

/-- The mantissa and its two residual bits place a number exactly, or below, on or
above the half between two whole numbers. -/
inductive Describes : ExtendedMantissa → ℝ → Prop where
  | whole (m : ℕ) : Describes ⟨m, false, false⟩ m
  | below {m : ℕ} {x : ℝ} (hlow : m < x) (hhigh : x < m + 1 / 2) : Describes ⟨m, false, true⟩ x
  | half (m : ℕ) : Describes ⟨m, true, false⟩ (m + 1 / 2)
  | above {m : ℕ} {x : ℝ} (hlow : m + 1 / 2 < x) (hhigh : x < m + 1) : Describes ⟨m, true, true⟩ x

namespace Describes

variable {em : ExtendedMantissa} {x : ℝ}

theorem bounds (h : Describes em x) : (em.mantissa : ℝ) ≤ x ∧ x < em.mantissa + 1 := by
  cases h with
  | whole => constructor <;> linarith
  | below hlow hhigh => constructor <;> linarith
  | half => constructor <;> linarith
  | above hlow hhigh => constructor <;> linarith

theorem floor_eq (h : Describes em x) : ⌊x⌋₊ = em.mantissa := by
  have hbounds := h.bounds
  exact (Nat.floor_eq_iff ((Nat.cast_nonneg _).trans hbounds.1)).mpr hbounds

theorem roundedMantissa_eq (h : Describes em x) : em.roundedMantissa = roundEven x := by
  have hfloor := h.floor_eq
  unfold roundEven
  rw [hfloor]
  cases h with
  | whole m =>
    rw [if_pos (by linarith)]
    rfl
  | below hlow hhigh =>
    rw [if_pos hhigh]
    rfl
  | half m =>
    rw [if_neg (lt_irrefl _), if_neg (lt_irrefl _)]
    rfl
  | above hlow hhigh =>
    rw [if_neg hlow.not_gt, if_pos hlow]
    rfl

theorem shiftRightOne (h : Describes em x) : Describes em.shiftRightOne (x / 2) := by
  obtain ⟨m, roundBit, stickyBit⟩ := em
  -- The lowest bit of the mantissa becomes the round bit, and the old round bit sticks.
  obtain ⟨half, rfl | rfl⟩ := m.even_or_odd'
  · have hshift : ExtendedMantissa.shiftRightOne ⟨2 * half, roundBit, stickyBit⟩ =
        ⟨half, false, roundBit || stickyBit⟩ := by
      simp [ExtendedMantissa.shiftRightOne]
    rw [hshift]
    cases h with
    | whole =>
      have : ((2 * half : ℕ) / 2 : ℝ) = half := by push_cast; ring
      rw [this]
      exact .whole half
    | below hlow hhigh =>
      push_cast at hlow hhigh
      exact .below (by linarith) (by linarith)
    | half =>
      push_cast
      exact .below (by linarith) (by linarith)
    | above hlow hhigh =>
      push_cast at hlow hhigh
      exact .below (by linarith) (by linarith)
  · have hshift : ExtendedMantissa.shiftRightOne ⟨2 * half + 1, roundBit, stickyBit⟩ =
        ⟨half, true, roundBit || stickyBit⟩ := by
      have : (2 * half + 1) / 2 = half := by omega
      simp [ExtendedMantissa.shiftRightOne, this]
    rw [hshift]
    cases h with
    | whole =>
      have : ((2 * half + 1 : ℕ) / 2 : ℝ) = half + 1 / 2 := by push_cast; ring
      rw [this]
      exact .half half
    | below hlow hhigh =>
      push_cast at hlow hhigh
      exact .above (by linarith) (by linarith)
    | half =>
      push_cast
      exact .above (by linarith) (by linarith)
    | above hlow hhigh =>
      push_cast at hlow hhigh
      exact .above (by linarith) (by linarith)

theorem shiftRight (h : Describes em x) (count : ℕ) :
    Describes (em >>> count) (x / 2 ^ count) := by
  change Describes (count.repeat ExtendedMantissa.shiftRightOne em) _
  induction count with
  | zero => simpa [Nat.repeat] using h
  | succ count ih =>
    rw [Nat.repeat, pow_succ, ← div_div]
    exact ih.shiftRightOne

end Describes

theorem log_mul_zpow {x : ℝ} (hx : 0 < x) (k : ℤ) : Int.log 2 (x * 2 ^ k) = Int.log 2 x + k := by
  have hpow : (0 : ℝ) < 2 ^ k := by positivity
  apply le_antisymm
  · rw [← Int.lt_add_one_iff, ← Int.lt_zpow_iff_log_lt (by norm_num) (by positivity),
      show Int.log 2 x + k + 1 = (Int.log 2 x + 1) + k by ring, Nat.cast_ofNat,
      zpow_add₀ (by norm_num)]
    exact mul_lt_mul_of_pos_right (by exact_mod_cast Int.lt_zpow_succ_log_self (by norm_num) x) hpow
  · rw [← Int.zpow_le_iff_le_log (by norm_num) (by positivity), Nat.cast_ofNat,
      zpow_add₀ (by norm_num)]
    exact mul_le_mul_of_nonneg_right (by exact_mod_cast Int.zpow_log_le_self (by norm_num) hx)
      hpow.le

variable {F : Format}

theorem lastPlace_mul_zpow {x : ℝ} (hx : 1 ≤ x) (e : ℤ) :
    lastPlace F (x * 2 ^ e) = F.targetExponent (totalExponent ⌊x⌋₊ e) := by
  have hlog : Int.log 2 x = (⌊x⌋₊.log2 : ℤ) := by
    rw [Int.log_of_one_le_right 2 hx, Nat.log2_eq_log_two]
  unfold lastPlace totalExponent
  rw [log_mul_zpow (by linarith), hlog]
  congr 1
  ring

theorem lastPlace_natCast_mul_zpow {m : ℕ} (hm : 0 < m) (e : ℤ) :
    lastPlace F (m * 2 ^ e) = F.targetExponent (totalExponent m e) := by
  rw [lastPlace_mul_zpow (by exact_mod_cast hm), Nat.floor_natCast]

theorem Describes.targetExponent_eq {em : ExtendedMantissa} {x : ℝ} {e : ℤ}
    (h : Describes em x) (hx : 0 < x) (he : e ≤ lastPlace F (x * 2 ^ e)) :
    F.targetExponent (totalExponent em.mantissa e) = lastPlace F (x * 2 ^ e) := by
  rcases lt_or_ge x 1 with hsmall | hlarge
  · -- Without a whole part, only the smallest exponent of the format is left.
    have hzero : em.mantissa = 0 := by
      rw [← h.floor_eq]
      exact Nat.floor_eq_zero.mpr hsmall
    have hlog : Int.log 2 (x * 2 ^ e) < e := by
      rw [← Int.lt_zpow_iff_log_lt (by norm_num) (by positivity), Nat.cast_ofNat]
      exact mul_lt_of_lt_one_left (by positivity) hsmall
    have hbits := two_le_mantissaBits F
    rw [hzero]
    unfold lastPlace Format.targetExponent at he ⊢
    simp only [totalExponent, Nat.log2_zero]
    omega
  · rw [lastPlace_mul_zpow hlarge, h.floor_eq]

/-- A finite number is written with the exponent that the format gives to numbers
of its size. -/
def Canonical (F : Format) : UnpackedFloat → Prop
  | .finite _ m e _ => e = F.targetExponent (totalExponent m e)
  | _ => True

namespace Canonical

variable {sign : Sign} {m : ℕ} {e : ℤ} {hm : 0 < m}

theorem lastPlace_eq (h : Canonical F (.finite sign m e hm)) : lastPlace F (m * 2 ^ e) = e := by
  rw [lastPlace_natCast_mul_zpow hm]
  exact h.symm

theorem minExponent_le (h : Canonical F (.finite sign m e hm)) : F.minExponent ≤ e := by
  rw [← h.lastPlace_eq]
  exact minExponent_le_lastPlace F _

theorem mantissa_lt (h : Canonical F (.finite sign m e hm)) : m < 2 ^ F.mantissaBits := by
  have hbound := lt_zpow_lastPlace_add (F := F) (m * 2 ^ e)
  rw [h.lastPlace_eq, zpow_eq_pow_mul (add_comm e _)] at hbound
  exact_mod_cast lt_of_mul_lt_mul_right hbound (by positivity)

theorem le_mantissa (h : Canonical F (.finite sign m e hm)) (he : F.minExponent < e) :
    2 ^ (F.mantissaBits - 1) ≤ m := by
  have hpos : (0 : ℝ) < m := by exact_mod_cast hm
  have hbound := zpow_lastPlace_add_le (F := F) (x := m * 2 ^ e) (by positivity)
    (by rwa [h.lastPlace_eq])
  rw [h.lastPlace_eq, zpow_add_sub_one] at hbound
  exact_mod_cast le_of_mul_le_mul_right hbound (by positivity)

end Canonical

/-- A result of the given sign that stands for `x`, before an exponent that is too
large for the format is noticed. -/
inductive Rounds (F : Format) (sign : Sign) (x : ℝ) : UnpackedFloat → Prop where
  | zero (hvalue : nearest F x = 0) : Rounds F sign x (.zero sign)
  | finite {m : ℕ} {e : ℤ} {hm : 0 < m} (hcanonical : Canonical F (.finite sign m e hm))
      (hvalue : nearest F x = m * 2 ^ e) : Rounds F sign x (.finite sign m e hm)

theorem shiftToTargetExponent_eq {m : ℕ} {e k : ℤ} {accuracy : Accuracy}
    (hk : F.targetExponent (totalExponent m e) = k) (he : e ≤ k) :
    shiftToTargetExponent F m e accuracy =
      (ExtendedMantissa.ofMantissaAndAccuracy m accuracy >>> (k - e).toNat, k) := by
  simp only [shiftToTargetExponent, shiftToExponent, hk, Prod.mk.injEq, true_and]
  omega

theorem targetExponent_of_lt {m : ℕ} {k : ℤ} (hk : F.minExponent ≤ k)
    (hlt : m < 2 ^ F.mantissaBits) (hge : F.minExponent < k → 2 ^ (F.mantissaBits - 1) ≤ m) :
    F.targetExponent (totalExponent m k) = k := by
  have hbits := two_le_mantissaBits F
  rcases m.eq_zero_or_pos with rfl | hpos
  · have hleast : k = F.minExponent := by
      by_contra hne
      exact (hge (by omega)).not_gt (by positivity)
    simp only [Format.targetExponent, totalExponent, Nat.log2_zero]
    omega
  · have hlog : m.log2 < F.mantissaBits := (Nat.log2_lt hpos.ne').mpr hlt
    have hfull : F.minExponent < k → F.mantissaBits - 1 ≤ m.log2 := fun hmin =>
      (Nat.le_log2 hpos.ne').mpr (hge hmin)
    simp only [Format.targetExponent, totalExponent]
    omega

/-- Rounding may lengthen the mantissa by one place.  It is a power of two then, and
one more shift keeps its value. -/
theorem shiftToTargetExponent_rounded {m : ℕ} {k : ℤ} (hk : F.minExponent ≤ k)
    (hle : m ≤ 2 ^ F.mantissaBits) (hge : F.minExponent < k → 2 ^ (F.mantissaBits - 1) ≤ m) :
    ∃ n e, (shiftToTargetExponent F m k .exact).1.mantissa = n ∧
      (shiftToTargetExponent F m k .exact).2 = e ∧ (n * 2 ^ e : ℝ) = m * 2 ^ k ∧
      (0 < n → e = F.targetExponent (totalExponent n e)) := by
  have hbits := two_le_mantissaBits F
  rcases hle.lt_or_eq with hlt | rfl
  · have htarget := targetExponent_of_lt hk hlt hge
    refine ⟨m, k, ?_, ?_, rfl, fun _ => htarget.symm⟩
    · rw [shiftToTargetExponent_eq htarget le_rfl, sub_self]
      rfl
    · rw [shiftToTargetExponent_eq htarget le_rfl]
  · have htarget : F.targetExponent (totalExponent (2 ^ F.mantissaBits) k) = k + 1 := by
      simp only [Format.targetExponent, totalExponent, Nat.log2_two_pow]
      omega
    refine ⟨2 ^ (F.mantissaBits - 1), k + 1, ?_, ?_, ?_, fun _ => ?_⟩
    · rw [shiftToTargetExponent_eq htarget (by omega), add_sub_cancel_left]
      change 2 ^ F.mantissaBits / 2 = 2 ^ (F.mantissaBits - 1)
      exact Nat.pow_div (by omega : 1 ≤ F.mantissaBits) two_pos
    · rw [shiftToTargetExponent_eq htarget (by omega)]
    · push_cast
      rw [← zpow_eq_pow_mul (add_comm k _), ← zpow_eq_pow_mul]
      omega
    · simp only [Format.targetExponent, totalExponent, Nat.log2_two_pow]
      omega

/-- The mantissa has to reach down to the last place; what lies below it is described
by the accuracy. -/
theorem rounds_roundWithAccuracy (sign : Sign) {m : ℕ} {e : ℤ} {accuracy : Accuracy} {x : ℝ}
    (h : Describes (.ofMantissaAndAccuracy m accuracy) x) (hx : 0 < x)
    (he : e ≤ lastPlace F (x * 2 ^ e)) :
    Rounds F sign (x * 2 ^ e) (roundWithAccuracy F sign m e accuracy) := by
  set k := lastPlace F (x * 2 ^ e) with hk
  have hfirst : shiftToTargetExponent F m e accuracy =
      (ExtendedMantissa.ofMantissaAndAccuracy m accuracy >>> (k - e).toNat, k) := by
    apply shiftToTargetExponent_eq _ he
    have htarget := h.targetExponent_eq hx he
    have hmantissa : (ExtendedMantissa.ofMantissaAndAccuracy m accuracy).mantissa = m := by
      rcases accuracy with _ | (_ | _ | _) <;> rfl
    rwa [hmantissa] at htarget
  have hshift : x / 2 ^ (k - e).toNat = x * 2 ^ e / 2 ^ k := by
    rw [zpow_eq_pow_mul (by omega : k = (k - e).toNat + e)]
    field_simp
  have hrounded := (h.shiftRight (k - e).toNat).roundedMantissa_eq
  rw [hshift] at hrounded
  obtain ⟨n, e', hn, he', hvalue, hcanonical⟩ :=
    shiftToTargetExponent_rounded (minExponent_le_lastPlace F (x * 2 ^ e))
      (significand_le (x * 2 ^ e)) (le_significand (by positivity))
  -- The first shift rounds, and the second one finds the mantissa as in the lemma above.
  unfold roundWithAccuracy
  simp only [hfirst, hrounded]
  simp only [significand, ← hk] at hn he'
  simp only [hn, he']
  split
  · next hzero =>
    apply Rounds.zero
    rw [nearest, ← hvalue, hzero]
    simp
  · next hne =>
    exact .finite (hcanonical (Nat.pos_of_ne_zero hne)) hvalue.symm

end PulseTrain.Binary
