import PulseTrain.Proofs.Binary.Precision

/-!
# Squares

Rounding may give two numbers one square, but not where squares have a mantissa of full
length.  Two numbers of a format differ by at least one unit in the last place of the
larger one, so their squares differ by nearly two, and each square is rounded by at most
half a unit.
-/

namespace PulseTrain

open Float.Model
open scoped ENNReal

noncomputable section

namespace Binary

variable {F : Format} {a b : UnpackedFloat} {x y : ℝ}

theorem one_div_two_pow_lt_one (F : Format) : 1 / (2 : ℝ) ^ F.mantissaBits < 1 := by
  have hbits := two_le_mantissaBits F
  rw [div_lt_one (by positivity)]
  exact one_lt_pow₀ (by norm_num) (by omega)

/-! ## The distance of two numbers -/

/-- Of two positive numbers of the format the smaller one is below the larger one by a
unit of a mantissa of full length. -/
theorem finite_value_le_mul {m₁ m₂ : ℕ} {e₁ e₂ : ℤ} {s₁ s₂ : UnpackedFloat.Sign} {hm₁ : 0 < m₁}
    {hm₂ : 0 < m₂} (hcanonical₁ : Canonical F (.finite s₁ m₁ e₁ hm₁))
    (hcanonical₂ : Canonical F (.finite s₂ m₂ e₂ hm₂))
    (hlt : (m₁ * 2 ^ e₁ : ℝ) < m₂ * 2 ^ e₂) :
    (m₁ * 2 ^ e₁ : ℝ) ≤ m₂ * 2 ^ e₂ * (1 - 1 / 2 ^ F.mantissaBits) := by
  have hfactor := (sub_pos.mpr (one_div_two_pow_lt_one F)).le
  have hmost₁ : (m₁ : ℝ) + 1 ≤ 2 ^ F.mantissaBits := by exact_mod_cast hcanonical₁.mantissa_lt
  have hmost₂ : (m₂ : ℝ) ≤ 2 ^ F.mantissaBits := by exact_mod_cast hcanonical₂.mantissa_lt.le
  rcases (finite_value_lt_iff hcanonical₁ hcanonical₂).mp hlt with hexponent | ⟨rfl, hmantissa⟩
  · -- The larger mantissa is at least a power of two, the smaller one ends just below the next.
    have hleast : (2 : ℝ) ^ (F.mantissaBits - 1) ≤ m₂ := by
      exact_mod_cast hcanonical₂.le_mantissa (hcanonical₁.minExponent_le.trans_lt hexponent)
    have hpow : (2 : ℝ) ^ F.mantissaBits = 2 ^ (F.mantissaBits - 1) * 2 := by
      have hbits := two_le_mantissaBits F
      rw [← pow_succ, Nat.sub_add_cancel (by omega)]
    have hscale : (2 : ℝ) ^ e₁ ≤ 2 ^ (e₂ - 1) := zpow_le_zpow_right₀ (by norm_num) (by omega)
    have hnonneg : (0 : ℝ) ≤ 2 ^ F.mantissaBits - 1 :=
      sub_nonneg.mpr (one_le_pow₀ (by norm_num))
    calc (m₁ * 2 ^ e₁ : ℝ) ≤ (2 ^ F.mantissaBits - 1) * 2 ^ (e₂ - 1) := by
          gcongr
          linarith
      _ = 2 ^ (F.mantissaBits - 1) * 2 ^ e₂ * (1 - 1 / 2 ^ F.mantissaBits) := by
          rw [zpow_sub_one₀ two_ne_zero, hpow]
          field_simp
      _ ≤ m₂ * 2 ^ e₂ * (1 - 1 / 2 ^ F.mantissaBits) := by gcongr
  · have hstep : (m₁ : ℝ) + 1 ≤ m₂ := by exact_mod_cast hmantissa
    have hunit : (m₂ : ℝ) / 2 ^ F.mantissaBits ≤ 1 := (div_le_one (by positivity)).mpr hmost₂
    rw [mul_right_comm, mul_sub, mul_one, mul_one_div]
    gcongr
    linarith

theorem HasValue.le_mul_of_lt (ha : HasValue a x) (hb : HasValue b y) (hcanonical₁ : Canonical F a)
    (hcanonical₂ : Canonical F b) (hx : 0 ≤ x) (hlt : x < y) :
    x ≤ y * (1 - 1 / 2 ^ F.mantissaBits) := by
  have hfactor := (sub_pos.mpr (one_div_two_pow_lt_one F)).le
  cases ha with
  | zero => exact mul_nonneg hlt.le hfactor
  | finite s₁ m₁ e₁ hm₁ =>
    have hpos₁ := finite_value_pos hm₁ e₁
    cases hb with
    | zero => exact absurd hlt hx.not_gt
    | finite s₂ m₂ e₂ hm₂ =>
      have hpos₂ := finite_value_pos hm₂ e₂
      cases s₁ with
      | negative => exact absurd (neg_lt_zero.mpr hpos₁) hx.not_gt
      | positive =>
        cases s₂ with
        | negative => exact absurd (hlt.trans (neg_lt_zero.mpr hpos₂)) hx.not_gt
        | positive => exact finite_value_le_mul hcanonical₁ hcanonical₂ hlt

/-! ## Rounded squares -/

theorem nearest_mul_self_lt
    (hx : x = 0 ∨ 0 < x ∧ 2 ^ (F.minExponent + F.mantissaBits - 1) ≤ x * x) (hy : 0 < y)
    (hgap : x ≤ y * (1 - 1 / 2 ^ F.mantissaBits)) :
    nearest F (x * x) < y * y * (1 - 1 / 2 ^ F.mantissaBits) := by
  have hone := one_div_two_pow_lt_one F
  set u : ℝ := 1 / 2 ^ F.mantissaBits
  have hunit : 0 < u := by positivity
  have hfactor : 0 < 1 - u := sub_pos.mpr hone
  rcases hx with rfl | ⟨hpos, hfull⟩
  · rw [mul_zero, nearest_zero]
    positivity
  · calc nearest F (x * x) ≤ x * x * (1 + u) := nearest_le_mul (by positivity) hfull
      _ ≤ y * (1 - u) * (y * (1 - u)) * (1 + u) := by gcongr
      _ = y * y * (1 - u) * (1 - u * u) := by ring
      _ < y * y * (1 - u) * 1 := by
          gcongr
          linarith [mul_pos hunit hunit]
      _ = y * y * (1 - u) := mul_one _

theorem rounded_mul_self_lt
    (hx : x = 0 ∨ 0 < x ∧ 2 ^ (F.minExponent + F.mantissaBits - 1) ≤ x * x) (hy : 0 < y)
    (hfull : 2 ^ (F.minExponent + F.mantissaBits - 1) ≤ y * y) (hend : y * y ≤ 2 ^ endExponent F)
    (hgap : x ≤ y * (1 - 1 / 2 ^ F.mantissaBits)) :
    rounded F (.ofReal (x * x)) < rounded F (.ofReal (y * y)) := by
  have hbelow := nearest_mul_self_lt hx hy hgap
  have habove := mul_le_nearest (F := F) (by positivity) hfull
  have hfits : nearest F (x * x) < 2 ^ endExponent F :=
    calc nearest F (x * x) < y * y * (1 - 1 / 2 ^ F.mantissaBits) := hbelow
      _ ≤ y * y := mul_le_of_le_one_right (by positivity) (sub_le_self _ (by positivity))
      _ ≤ 2 ^ endExponent F := hend
  rw [rounded_ofReal (mul_self_nonneg x), rounded_ofReal (mul_self_nonneg y), if_neg hfits.not_ge]
  split_ifs
  · exact ENNReal.ofReal_lt_top
  · have hless := hbelow.trans_le habove
    exact (ENNReal.ofReal_lt_ofReal_iff ((nearest_nonneg _).trans_lt hless)).mpr hless

end Binary

namespace Single

variable {x y : Float32} {r s : ℝ}

/-- Zero, or a number from `2 ^ (-63)` to below `2 ^ 64`: its square is neither too small
for the full precision nor too large to be finite. -/
def SquareInRange (r : ℝ) : Prop := r = 0 ∨ Binary.value 1 (-63) ≤ r ∧ r < Binary.value 1 64

theorem squareInRange_iff : SquareInRange r ↔ r = 0 ∨ 2 ^ (-63 : ℤ) ≤ r ∧ r < 2 ^ (64 : ℤ) := by
  simp only [SquareInRange, Binary.value_one]

theorem HasValue.magnitude_mul_self_le (hx : HasValue x r) (hy : HasValue y s) (hr : 0 ≤ r)
    (h : r ≤ s) : magnitude (x * x) ≤ magnitude (y * y) := by
  rw [hx.square.2, hy.square.2]
  apply Binary.rounded_mono
  exact ENNReal.ofReal_le_ofReal (mul_self_le_mul_self hr h)

/-- Rounding may merge two squares, but it does not exchange them. -/
theorem HasValue.lt_of_magnitude_mul_self_lt (hx : HasValue x r) (hy : HasValue y s)
    (hs : 0 ≤ s) (h : magnitude (x * x) < magnitude (y * y)) : x < y := by
  rw [hx.lt_iff hy]
  by_contra hnot
  exact h.not_ge (hy.magnitude_mul_self_le hx hs (not_lt.mp hnot))

theorem smallestNormal_le_mul_self (h : (2 : ℝ) ^ (-63 : ℤ) ≤ r) :
    (2 : ℝ) ^ (-126 : ℤ) ≤ r * r :=
  calc (2 : ℝ) ^ (-126 : ℤ) = 2 ^ (-63 : ℤ) * 2 ^ (-63 : ℤ) := by rw [← zpow_add₀ two_ne_zero]; rfl
    _ ≤ r * r := by gcongr

theorem HasValue.magnitude_mul_self_lt (hx : HasValue x r) (hy : HasValue y s)
    (hr : SquareInRange r) (hs : SquareInRange s) (h : r < s) :
    magnitude (x * x) < magnitude (y * y) := by
  rw [squareInRange_iff] at hr hs
  have hlow : r = 0 ∨ 0 < r ∧ (2 : ℝ) ^ (-126 : ℤ) ≤ r * r := by
    rcases hr with hzero | ⟨hr, -⟩
    · exact .inl hzero
    · exact .inr ⟨lt_of_lt_of_le (by positivity) hr, smallestNormal_le_mul_self hr⟩
  have hnonneg : 0 ≤ r := by
    rcases hlow with hzero | ⟨hpos, -⟩ <;> linarith
  obtain ⟨hs, hend⟩ := hs.resolve_left (by linarith)
  rw [hx.square.2, hy.square.2]
  apply Binary.rounded_mul_self_lt hlow (by linarith) (smallestNormal_le_mul_self hs)
  · calc s * s ≤ 2 ^ (64 : ℤ) * 2 ^ (64 : ℤ) := by gcongr
      _ = 2 ^ Binary.endExponent .binary32 := by rw [← zpow_add₀ two_ne_zero]; rfl
  · exact Binary.HasValue.le_mul_of_lt hx hy (stored x).canonical (stored y).canonical hnonneg h

/-- Squares in the range are ordered as the numbers themselves. -/
theorem HasValue.compare_mul_self (hx : HasValue x r) (hy : HasValue y s)
    (hr : SquareInRange r) (hs : SquareInRange s) :
    compare (magnitude (x * x)) (magnitude (y * y)) = compare r s := by
  rcases lt_trichotomy r s with hless | rfl | hgreater
  · rw [compare_lt_iff_lt.mpr hless, compare_lt_iff_lt]
    exact hx.magnitude_mul_self_lt hy hr hs hless
  · rw [compare_eq_iff_eq.mpr rfl, compare_eq_iff_eq, hx.square.2, hy.square.2]
  · rw [compare_gt_iff_gt.mpr hgreater, compare_gt_iff_gt]
    exact hy.magnitude_mul_self_lt hx hs hr hgreater

end Single

end

end PulseTrain
