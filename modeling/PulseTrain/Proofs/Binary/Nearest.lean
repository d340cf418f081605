import Mathlib

/-!
# Rounding to nearest

The real number that a binary format puts in place of an exact result, as long
as the exponent is not bounded above.  Near `x` the format holds the whole
multiples of one power of two, and the one that is nearest to `x` is taken, ties
to even.  Numbers here are never negative: signs do not take part in rounding.
-/

namespace PulseTrain.Binary

open Float.Model

noncomputable section

/-- The whole number nearest to `x`, a half going to the even neighbour. -/
def roundEven (x : ℝ) : ℕ :=
  if x < ⌊x⌋₊ + 1 / 2 then ⌊x⌋₊
  else if ⌊x⌋₊ + 1 / 2 < x then ⌊x⌋₊ + 1
  else ⌊x⌋₊ + ⌊x⌋₊ % 2

@[simp] theorem roundEven_natCast (n : ℕ) : roundEven n = n := by
  simp [roundEven]

theorem floor_le_roundEven (x : ℝ) : ⌊x⌋₊ ≤ roundEven x := by
  unfold roundEven
  split_ifs <;> omega

theorem roundEven_le_floor_add_one (x : ℝ) : roundEven x ≤ ⌊x⌋₊ + 1 := by
  unfold roundEven
  split_ifs <;> omega

theorem roundEven_mono {x y : ℝ} (h : x ≤ y) : roundEven x ≤ roundEven y := by
  rcases (Nat.floor_mono h).lt_or_eq with hlt | heq
  · calc roundEven x ≤ ⌊x⌋₊ + 1 := roundEven_le_floor_add_one x
      _ ≤ ⌊y⌋₊ := hlt
      _ ≤ roundEven y := floor_le_roundEven y
  · -- Between two whole numbers the three branches follow one another.
    unfold roundEven
    rw [heq]
    split_ifs <;> first | omega | (exfalso; linarith)

theorem le_roundEven_add_half (x : ℝ) : x ≤ roundEven x + 1 / 2 := by
  have hfloor := Nat.lt_floor_add_one x
  unfold roundEven
  split_ifs with hlow hhigh
  · exact hlow.le
  · push_cast
    linarith
  · have : (0 : ℝ) ≤ ((⌊x⌋₊ % 2 : ℕ) : ℝ) := Nat.cast_nonneg _
    push_cast at this ⊢
    linarith

theorem roundEven_le_add_half {x : ℝ} (hx : 0 ≤ x) : roundEven x ≤ x + 1 / 2 := by
  have hfloor := Nat.floor_le hx
  unfold roundEven
  split_ifs with hlow hhigh
  · linarith
  · push_cast
    linarith
  · have hodd : ((⌊x⌋₊ % 2 : ℕ) : ℝ) ≤ 1 := by
      exact_mod_cast Nat.le_of_lt_succ (Nat.mod_lt _ two_pos)
    push_cast at hodd ⊢
    linarith

/-- The number with the given mantissa and exponent. -/
def value (m : ℕ) (e : ℤ) : ℝ := m * 2 ^ e

@[simp] theorem value_one (e : ℤ) : value 1 e = 2 ^ e := by
  simp [value]

theorem zpow_eq_pow_mul {k e : ℤ} {n : ℕ} (h : k = n + e) : (2 : ℝ) ^ k = 2 ^ n * 2 ^ e := by
  rw [h, zpow_add₀ two_ne_zero, zpow_natCast]

theorem shiftLeft_mul_zpow (m : ℕ) {k e : ℤ} {n : ℕ} (h : k = n + e) :
    ((m <<< n : ℕ) : ℝ) * 2 ^ e = m * 2 ^ k := by
  rw [Nat.shiftLeft_eq, zpow_eq_pow_mul h]
  push_cast
  ring

variable (F : Format)

/-- The exponent of the last binary place of the numbers near `x`. -/
def lastPlace (x : ℝ) : ℤ := F.targetExponent (Int.log 2 x + 1)

/-- The units of the last place in the number of the format nearest to `x`. -/
def significand (x : ℝ) : ℕ := roundEven (x / 2 ^ lastPlace F x)

/-- The number of the format nearest to `x`, had it no largest one. -/
def nearest (x : ℝ) : ℝ := significand F x * 2 ^ lastPlace F x

theorem two_le_mantissaBits : 2 ≤ F.mantissaBits := by
  have := F.hm
  unfold Format.mantissaBits
  omega

theorem minExponent_nonpos : F.minExponent ≤ 0 := by
  have hbits := two_le_mantissaBits F
  have hpow : (1 : ℤ) ≤ 2 ^ (F.exponentBits - 1) := one_le_pow₀ (by norm_num)
  unfold Format.minExponent
  omega

theorem minExponent_le_lastPlace (x : ℝ) : F.minExponent ≤ lastPlace F x := le_max_right _ _

variable {F}

theorem lastPlace_mono {x y : ℝ} (hx : 0 < x) (h : x ≤ y) : lastPlace F x ≤ lastPlace F y := by
  have := Int.log_mono_right (b := 2) hx h
  unfold lastPlace Format.targetExponent
  omega

theorem lt_zpow_lastPlace_add (x : ℝ) : x < 2 ^ (lastPlace F x + F.mantissaBits) :=
  calc x < ((2 : ℕ) : ℝ) ^ (Int.log 2 x + 1) := Int.lt_zpow_succ_log_self (by norm_num) x
    _ ≤ 2 ^ (lastPlace F x + F.mantissaBits) := by
      push_cast
      apply zpow_le_zpow_right₀ (by norm_num)
      unfold lastPlace Format.targetExponent
      omega

theorem zpow_lastPlace_add_le {x : ℝ} (hx : 0 < x) (h : F.minExponent < lastPlace F x) :
    (2 : ℝ) ^ (lastPlace F x + F.mantissaBits - 1) ≤ x :=
  calc (2 : ℝ) ^ (lastPlace F x + F.mantissaBits - 1) = ((2 : ℕ) : ℝ) ^ Int.log 2 x := by
        push_cast
        congr 1
        unfold lastPlace Format.targetExponent at h ⊢
        omega
    _ ≤ x := Int.zpow_log_le_self (by norm_num) hx

/-- A number below `2 ^ (k + mantissaBits)` needs no place above `k`. -/
theorem lastPlace_le {x : ℝ} {k : ℤ} (hx : 0 < x) (hk : F.minExponent ≤ k)
    (h : x < 2 ^ (k + F.mantissaBits)) : lastPlace F x ≤ k := by
  have : Int.log 2 x < k + F.mantissaBits :=
    (Int.lt_zpow_iff_log_lt (by norm_num) hx).mp (by exact_mod_cast h)
  unfold lastPlace Format.targetExponent
  omega

theorem le_lastPlace {x : ℝ} {k : ℤ} (hx : 0 < x) (h : (2 : ℝ) ^ (k + F.mantissaBits - 1) ≤ x) :
    k ≤ lastPlace F x := by
  have : k + F.mantissaBits - 1 ≤ Int.log 2 x :=
    (Int.zpow_le_iff_le_log (by norm_num) hx).mp (by exact_mod_cast h)
  unfold lastPlace Format.targetExponent
  omega

theorem nearest_nonneg (x : ℝ) : 0 ≤ nearest F x := by
  unfold nearest
  positivity

@[simp] theorem nearest_zero : nearest F 0 = 0 := by
  have := roundEven_natCast 0
  push_cast at this
  simp [nearest, significand, this]

theorem nearest_of_lastPlace_le {x : ℝ} {k : ℤ} {m : ℕ} (hx : x = m * 2 ^ k)
    (h : lastPlace F x ≤ k) : nearest F x = x := by
  obtain ⟨n, hn⟩ := Int.eq_ofNat_of_zero_le (sub_nonneg.mpr h)
  have hwhole : x / 2 ^ lastPlace F x = ((m * 2 ^ n : ℕ) : ℝ) := by
    rw [div_eq_iff (by positivity)]
    push_cast
    rw [mul_assoc, ← zpow_eq_pow_mul (by omega : k = n + lastPlace F x)]
    exact hx
  unfold nearest significand
  rw [hwhole, roundEven_natCast, ← hwhole, div_mul_cancel₀ _ (by positivity)]

theorem nearest_of_lt {k : ℤ} {m : ℕ} (hk : F.minExponent ≤ k) (hm : m < 2 ^ F.mantissaBits) :
    nearest F (m * 2 ^ k) = m * 2 ^ k := by
  rcases m.eq_zero_or_pos with rfl | hpos
  · simp
  · have hpos' : (0 : ℝ) < m := by exact_mod_cast hpos
    refine nearest_of_lastPlace_le rfl (lastPlace_le (by positivity) hk ?_)
    have : (m : ℝ) < 2 ^ F.mantissaBits := by exact_mod_cast hm
    rw [zpow_eq_pow_mul (add_comm k _)]
    gcongr

theorem nearest_two_zpow {k : ℤ} (hk : F.minExponent ≤ k) : nearest F (2 ^ k) = 2 ^ k := by
  have hbits := two_le_mantissaBits F
  have hexact := nearest_of_lt (m := 1) hk (Nat.one_lt_two_pow (by omega))
  rwa [Nat.cast_one, one_mul] at hexact

/-- Rounding stops at the power of two above. -/
theorem significand_le (x : ℝ) : significand F x ≤ 2 ^ F.mantissaBits := by
  have hquot : x / 2 ^ lastPlace F x ≤ ((2 ^ F.mantissaBits : ℕ) : ℝ) := by
    rw [div_le_iff₀ (by positivity)]
    push_cast
    rw [← zpow_eq_pow_mul (add_comm _ _)]
    exact (lt_zpow_lastPlace_add x).le
  simpa only [roundEven_natCast, significand] using roundEven_mono hquot

theorem zpow_add_sub_one (k : ℤ) : (2 : ℝ) ^ (k + F.mantissaBits - 1) =
    ((2 ^ (F.mantissaBits - 1) : ℕ) : ℝ) * 2 ^ k := by
  have hbits := two_le_mantissaBits F
  push_cast
  exact zpow_eq_pow_mul (by omega)

/-- Rounding stops at the power of two below. -/
theorem le_significand {x : ℝ} (hx : 0 < x) (h : F.minExponent < lastPlace F x) :
    2 ^ (F.mantissaBits - 1) ≤ significand F x := by
  have hquot : ((2 ^ (F.mantissaBits - 1) : ℕ) : ℝ) ≤ x / 2 ^ lastPlace F x := by
    rw [le_div_iff₀ (by positivity), ← zpow_add_sub_one]
    exact zpow_lastPlace_add_le hx h
  simpa only [roundEven_natCast, significand] using roundEven_mono hquot

theorem nearest_mono {x y : ℝ} (hx : 0 ≤ x) (h : x ≤ y) : nearest F x ≤ nearest F y := by
  rcases hx.eq_or_lt with rfl | hpos
  · rw [nearest_zero]
    exact nearest_nonneg y
  rcases (lastPlace_mono (F := F) hpos h).lt_or_eq with hlt | heq
  · -- A power of two that the format holds lies between the two results.
    have hmin := (minExponent_le_lastPlace F x).trans_lt hlt
    calc nearest F x ≤ ((2 ^ F.mantissaBits : ℕ) : ℝ) * 2 ^ lastPlace F x := by
          have := significand_le (F := F) x
          unfold nearest
          gcongr
      _ = 2 ^ (lastPlace F x + F.mantissaBits) := by
          push_cast
          exact (zpow_eq_pow_mul (add_comm _ _)).symm
      _ ≤ (2 : ℝ) ^ (lastPlace F y + F.mantissaBits - 1) :=
          zpow_le_zpow_right₀ (by norm_num) (by omega)
      _ = ((2 ^ (F.mantissaBits - 1) : ℕ) : ℝ) * 2 ^ lastPlace F y := zpow_add_sub_one _
      _ ≤ nearest F y := by
          have := le_significand (hpos.trans_le h) hmin
          unfold nearest
          gcongr
  · unfold nearest significand
    rw [heq]
    have := roundEven_mono (div_le_div_of_nonneg_right h
      (by positivity : (0 : ℝ) ≤ 2 ^ lastPlace F y))
    gcongr

theorem le_nearest_add (x : ℝ) : x ≤ nearest F x + 2 ^ lastPlace F x / 2 := by
  have h := le_roundEven_add_half (x / 2 ^ lastPlace F x)
  rw [div_le_iff₀ (by positivity), add_mul] at h
  unfold nearest significand
  linarith

theorem nearest_le_add {x : ℝ} (hx : 0 ≤ x) : nearest F x ≤ x + 2 ^ lastPlace F x / 2 := by
  have h := roundEven_le_add_half (x := x / 2 ^ lastPlace F x) (by positivity)
  rw [← sub_le_iff_le_add, le_div_iff₀ (by positivity), sub_mul] at h
  unfold nearest significand
  linarith

theorem abs_nearest_sub_le {x : ℝ} {k : ℤ} (hx : 0 ≤ x) (hk : F.minExponent ≤ k)
    (h : x < 2 ^ (k + F.mantissaBits)) : |nearest F x - x| ≤ 2 ^ k / 2 := by
  rcases hx.eq_or_lt with rfl | hpos
  · rw [nearest_zero, sub_zero, abs_zero]
    positivity
  · have hplace : (2 : ℝ) ^ lastPlace F x ≤ 2 ^ k :=
      zpow_le_zpow_right₀ (by norm_num) (lastPlace_le hpos hk h)
    have hlow := le_nearest_add (F := F) x
    have hhigh := nearest_le_add (F := F) hx
    rw [abs_le]
    constructor <;> linarith

theorem half_unit_mul (k : ℤ) :
    (2 : ℝ) ^ k / 2 * 2 ^ F.mantissaBits = 2 ^ (k + F.mantissaBits - 1) := by
  rw [zpow_sub_one₀ two_ne_zero, zpow_eq_pow_mul (add_comm _ _)]
  ring

theorem half_unit_le_mul {x : ℝ} (hx : 0 < x)
    (h : (2 : ℝ) ^ (F.minExponent + F.mantissaBits - 1) ≤ x) :
    (2 : ℝ) ^ lastPlace F x / 2 ≤ x * (1 / 2 ^ F.mantissaBits) := by
  have hplace : (2 : ℝ) ^ (lastPlace F x + F.mantissaBits - 1) ≤ x := by
    rcases (minExponent_le_lastPlace F x).lt_or_eq with hlt | heq
    · exact zpow_lastPlace_add_le hx hlt
    · rwa [← heq]
  rw [mul_one_div, le_div_iff₀ (by positivity), half_unit_mul]
  exact hplace

/-- Down to the smallest exponent the relative error is at most half a unit of a
mantissa of full length. -/
theorem mul_le_nearest {x : ℝ} (hx : 0 < x)
    (h : (2 : ℝ) ^ (F.minExponent + F.mantissaBits - 1) ≤ x) :
    x * (1 - 1 / 2 ^ F.mantissaBits) ≤ nearest F x := by
  have hunit := half_unit_le_mul hx h
  have := le_nearest_add (F := F) x
  linarith

theorem nearest_le_mul {x : ℝ} (hx : 0 < x)
    (h : (2 : ℝ) ^ (F.minExponent + F.mantissaBits - 1) ≤ x) :
    nearest F x ≤ x * (1 + 1 / 2 ^ F.mantissaBits) := by
  have hunit := half_unit_le_mul hx h
  have := nearest_le_add (F := F) hx.le
  linarith

/-- Measured by the result, the error is at most half a unit of a mantissa of full length. -/
theorem abs_nearest_sub_le_div {x : ℝ} (hx : 0 ≤ x)
    (h : (2 : ℝ) ^ (F.minExponent + F.mantissaBits - 1) ≤ nearest F x) :
    |nearest F x - x| ≤ nearest F x / 2 ^ F.mantissaBits := by
  have hpos : 0 < x := by
    refine hx.lt_of_ne fun hzero => ?_
    rw [← hzero, nearest_zero] at h
    exact h.not_gt (by positivity)
  have hplace : (2 : ℝ) ^ (lastPlace F x + F.mantissaBits - 1) ≤ nearest F x := by
    rcases (minExponent_le_lastPlace F x).lt_or_eq with hlt | heq
    · have := le_significand hpos hlt
      rw [zpow_add_sub_one, nearest]
      gcongr
    · rwa [← heq]
  have hunit : (2 : ℝ) ^ lastPlace F x / 2 ≤ nearest F x / 2 ^ F.mantissaBits := by
    rw [le_div_iff₀ (by positivity), half_unit_mul]
    exact hplace
  have hlow := le_nearest_add (F := F) x
  have hhigh := nearest_le_add (F := F) hx
  rw [abs_le]
  constructor <;> linarith

end

end PulseTrain.Binary
