import PulseTrain.Proofs.Binary.Mantissa

/-!
# Operations round once

A product, a quotient, a root and a change of format each give the number of the
format that is nearest to the exact result.  Every operation aligns its mantissa so
that nothing above the last place of the result is lost; that alignment is what has
to be checked for each of them.
-/

namespace PulseTrain.Binary

open Float.Model Float.Model.UnpackedFloat

variable {F : Format} {m₁ m₂ : ℕ} {e₁ e₂ : ℤ} {s₁ s₂ : Sign} {h₁ : 0 < m₁} {h₂ : 0 < m₂}

theorem add_le_lastPlace (hcanonical₁ : Canonical F (.finite s₁ m₁ e₁ h₁))
    (hcanonical₂ : Canonical F (.finite s₂ m₂ e₂ h₂)) :
    e₁ + e₂ ≤ lastPlace F ((m₁ * m₂ : ℕ) * 2 ^ (e₁ + e₂)) := by
  have hpos : (0 : ℝ) < (m₁ * m₂ : ℕ) := by
    have := Nat.mul_pos h₁ h₂
    exact_mod_cast this
  by_cases hleast : e₁ = F.minExponent ∧ e₂ = F.minExponent
  · -- The mantissa may be short, but its exponent is below the smallest one.
    have := minExponent_nonpos F
    have := minExponent_le_lastPlace F ((m₁ * m₂ : ℕ) * 2 ^ (e₁ + e₂))
    omega
  · have hmin₁ := hcanonical₁.minExponent_le
    have hmin₂ := hcanonical₂.minExponent_le
    have hfull : 2 ^ (F.mantissaBits - 1) ≤ m₁ * m₂ := by
      by_cases hfirst : e₁ = F.minExponent
      · exact (hcanonical₂.le_mantissa (by omega)).trans (Nat.le_mul_of_pos_left _ h₁)
      · exact (hcanonical₁.le_mantissa (by omega)).trans (Nat.le_mul_of_pos_right _ h₂)
    apply le_lastPlace (by positivity)
    rw [zpow_add_sub_one]
    gcongr

theorem rounds_mul (hcanonical₁ : Canonical F (.finite s₁ m₁ e₁ h₁))
    (hcanonical₂ : Canonical F (.finite s₂ m₂ e₂ h₂)) :
    Rounds F (s₁ * s₂) (m₁ * 2 ^ e₁ * (m₂ * 2 ^ e₂))
      (mul F (.finite s₁ m₁ e₁ h₁) (.finite s₂ m₂ e₂ h₂)) := by
  have hpos : (0 : ℝ) < (m₁ * m₂ : ℕ) := by
    have := Nat.mul_pos h₁ h₂
    exact_mod_cast this
  have hproduct : (m₁ * 2 ^ e₁ * (m₂ * 2 ^ e₂) : ℝ) = (m₁ * m₂ : ℕ) * 2 ^ (e₁ + e₂) := by
    rw [zpow_add₀ (by norm_num)]
    push_cast
    ring
  rw [hproduct]
  exact rounds_roundWithAccuracy _ (.whole _) hpos (add_le_lastPlace hcanonical₁ hcanonical₂)

/-- The remainder of a division tells on which side of the half the quotient lies. -/
theorem Describes.div (a : ℕ) {b : ℕ} (hb : 0 < b) :
    Describes (.ofMantissaAndAccuracy (a / b) (accuracyOfFraction (a % b) b)) (a / b : ℝ) := by
  have hb' : (0 : ℝ) < b := by exact_mod_cast hb
  have hquot : (a / b : ℝ) = (a / b : ℕ) + (a % b : ℕ) / b := by
    have hsplit : (a : ℝ) = b * (a / b : ℕ) + (a % b : ℕ) := by
      exact_mod_cast (Nat.div_add_mod a b).symm
    field_simp
    linarith
  have hlt : ((a % b : ℕ) / b : ℝ) < 1 := by
    rw [div_lt_one hb']
    exact_mod_cast Nat.mod_lt a hb
  rw [hquot]
  generalize a / b = q
  generalize a % b = r at hlt ⊢
  unfold accuracyOfFraction
  split_ifs with hzero
  · rw [hzero, Nat.cast_zero, zero_div, add_zero]
    exact .whole q
  have hpos : (0 : ℝ) < r / b := by
    have : (0 : ℝ) < r := by exact_mod_cast Nat.pos_of_ne_zero hzero
    positivity
  rcases lt_trichotomy (2 * r) b with hless | heq | hgreater
  · rw [compare_lt_iff_lt.mpr hless]
    have : (r / b : ℝ) < 1 / 2 := by
      rw [div_lt_div_iff₀ hb' two_pos]
      exact_mod_cast (by omega : r * 2 < 1 * b)
    exact .below (by linarith) (by linarith)
  · rw [compare_eq_iff_eq.mpr heq]
    have : (r / b : ℝ) = 1 / 2 := by
      rw [div_eq_div_iff hb'.ne' two_ne_zero]
      exact_mod_cast (by omega : r * 2 = 1 * b)
    rw [this]
    exact .half q
  · rw [compare_gt_iff_gt.mpr hgreater]
    have : (1 / 2 : ℝ) < r / b := by
      rw [div_lt_div_iff₀ two_pos hb']
      exact_mod_cast (by omega : 1 * b < r * 2)
    exact .above (by linarith) (by linarith)

theorem totalExponent_sub_le_log (h₁ : 0 < m₁) (h₂ : 0 < m₂) (e₁ e₂ : ℤ) :
    totalExponent m₁ e₁ - totalExponent m₂ e₂ ≤
      Int.log 2 (m₁ * 2 ^ e₁ / (m₂ * 2 ^ e₂) : ℝ) + 1 := by
  have hpos₁ : (0 : ℝ) < m₁ := by exact_mod_cast h₁
  have hpos₂ : (0 : ℝ) < m₂ := by exact_mod_cast h₂
  rw [← sub_le_iff_le_add, ← Int.zpow_le_iff_le_log (by norm_num) (by positivity),
    le_div_iff₀ (by positivity)]
  have hlow : (2 : ℝ) ^ m₁.log2 ≤ m₁ := by exact_mod_cast Nat.log2_self_le h₁.ne'
  have hhigh : (m₂ : ℝ) ≤ 2 ^ (m₂.log2 + 1) := by exact_mod_cast Nat.lt_log2_self.le
  calc ((2 : ℕ) : ℝ) ^ (totalExponent m₁ e₁ - totalExponent m₂ e₂ - 1) * (m₂ * 2 ^ e₂)
      ≤ 2 ^ (totalExponent m₁ e₁ - totalExponent m₂ e₂ - 1) *
          (2 ^ (m₂.log2 + 1) * 2 ^ e₂) := by
        push_cast
        gcongr
    _ = 2 ^ m₁.log2 * 2 ^ e₁ := by
        unfold totalExponent
        rw [← zpow_eq_pow_mul (by rfl : ((m₂.log2 + 1 : ℕ) : ℤ) + e₂ = _),
          ← zpow_eq_pow_mul (by rfl : (m₁.log2 : ℤ) + e₁ = _), ← zpow_add₀ two_ne_zero]
        congr 1
        push_cast
        ring
    _ ≤ m₁ * 2 ^ e₁ := by gcongr

theorem rounds_div (s₁ s₂ : Sign) (h₁ : 0 < m₁) (e₁ : ℤ) (h₂ : 0 < m₂) (e₂ : ℤ) :
    Rounds F (s₁ / s₂) (m₁ * 2 ^ e₁ / (m₂ * 2 ^ e₂))
      (UnpackedFloat.div F (.finite s₁ m₁ e₁ h₁) (.finite s₂ m₂ e₂ h₂)) := by
  have hpos₁ : (0 : ℝ) < m₁ := by exact_mod_cast h₁
  have hpos₂ : (0 : ℝ) < m₂ := by exact_mod_cast h₂
  set e := min (e₁ - e₂) (F.targetExponent (totalExponent m₁ e₁ - totalExponent m₂ e₂)) with he
  have hquot : (m₁ * 2 ^ e₁ / (m₂ * 2 ^ e₂) : ℝ) =
      (m₁ <<< (e₁ - e₂ - e).toNat : ℕ) / m₂ * 2 ^ e := by
    have hsplit : (2 : ℝ) ^ e₁ = 2 ^ (e₁ - e₂ - e).toNat * (2 ^ e * 2 ^ e₂) := by
      rw [← zpow_add₀ two_ne_zero]
      exact zpow_eq_pow_mul (by omega)
    rw [Nat.shiftLeft_eq, hsplit]
    push_cast
    field_simp
  have hplace : e ≤ lastPlace F (m₁ * 2 ^ e₁ / (m₂ * 2 ^ e₂)) := by
    have := totalExponent_sub_le_log h₁ h₂ e₁ e₂
    unfold lastPlace Format.targetExponent at *
    omega
  rw [hquot] at hplace ⊢
  refine rounds_roundWithAccuracy _ (Describes.div _ h₂) ?_ hplace
  have : 0 < m₁ <<< (e₁ - e₂ - e).toNat := by
    rw [Nat.shiftLeft_eq]
    positivity
  positivity

/-- The rest of a whole root tells on which side of the half the root lies; a root
is never halfway between two whole numbers. -/
theorem Describes.sqrt (a : ℕ) :
    Describes (.ofMantissaAndAccuracy a.sqrt
      (if a - a.sqrt * a.sqrt = 0 then .exact
        else .inexact (if a - a.sqrt * a.sqrt ≤ a.sqrt then .lt else .gt))) (√a) := by
  have hle := Nat.sqrt_le a
  have hlt := Nat.lt_succ_sqrt a
  generalize a.sqrt = root at hle hlt ⊢
  have hnonneg : (0 : ℝ) ≤ root := Nat.cast_nonneg root
  have hnext : √(a : ℝ) < root + 1 := by
    rw [Real.sqrt_lt' (by linarith), sq]
    exact_mod_cast hlt
  split_ifs with hexact hlow
  · have hsquare : (a : ℝ) = root * root := by exact_mod_cast (by omega : a = root * root)
    rw [hsquare, Real.sqrt_mul_self hnonneg]
    exact .whole root
  · have hmore : (root * root : ℝ) < a := by exact_mod_cast (by omega : root * root < a)
    have hrest : (a : ℝ) ≤ root * root + root := by
      exact_mod_cast (by omega : a ≤ root * root + root)
    apply Describes.below
    · rwa [Real.lt_sqrt hnonneg, sq]
    · rw [Real.sqrt_lt' (by linarith)]
      linarith
  · have hrest : (root * root + root + 1 : ℝ) ≤ a := by
      exact_mod_cast (by omega : root * root + root + 1 ≤ a)
    apply Describes.above
    · rw [Real.lt_sqrt (by linarith)]
      linarith
    · exact hnext

theorem totalExponent_div_two_le_log {m : ℕ} (hm : 0 < m) (e : ℤ) :
    (totalExponent m e + 1) / 2 ≤ Int.log 2 √(m * 2 ^ e) + 1 := by
  have hpos : (0 : ℝ) < m := by exact_mod_cast hm
  rw [← sub_le_iff_le_add, ← Int.zpow_le_iff_le_log (by norm_num) (by positivity)]
  have hlow : (2 : ℝ) ^ m.log2 ≤ m := by exact_mod_cast Nat.log2_self_le hm.ne'
  apply Real.le_sqrt_of_sq_le
  calc (((2 : ℕ) : ℝ) ^ ((totalExponent m e + 1) / 2 - 1)) ^ 2
      = 2 ^ (((totalExponent m e + 1) / 2 - 1) * 2) := by
        rw [zpow_mul]
        norm_cast
    _ ≤ 2 ^ (m.log2 + e) := by
        apply zpow_le_zpow_right₀ (by norm_num)
        unfold totalExponent
        omega
    _ = 2 ^ m.log2 * 2 ^ e := zpow_eq_pow_mul rfl
    _ ≤ m * 2 ^ e := by gcongr

theorem rounds_sqrt {m : ℕ} {e : ℤ} {hm : 0 < m} :
    Rounds F .positive √(m * 2 ^ e) (UnpackedFloat.sqrt F (.finite .positive m e hm)) := by
  set k := min (e.ediv 2) (F.targetExponent ((totalExponent m e + 1).ediv 2)) with hk
  have hroot : √(m * 2 ^ e : ℝ) = √(m <<< (e - 2 * k).toNat : ℕ) * 2 ^ k := by
    have hsplit : (2 : ℝ) ^ e = 2 ^ (e - 2 * k).toNat * (2 ^ k) ^ 2 := by
      have : e.ediv 2 = e / 2 := rfl
      rw [← zpow_natCast (2 ^ k : ℝ) 2, ← zpow_mul]
      exact zpow_eq_pow_mul (by push_cast; omega)
    rw [Nat.shiftLeft_eq, hsplit, ← mul_assoc]
    push_cast
    rw [Real.sqrt_mul (by positivity), Real.sqrt_sq (by positivity)]
  have hplace : k ≤ lastPlace F √(m * 2 ^ e) := by
    have := totalExponent_div_two_le_log hm e
    have : (totalExponent m e + 1).ediv 2 = (totalExponent m e + 1) / 2 := rfl
    unfold lastPlace Format.targetExponent at *
    omega
  rw [hroot] at hplace ⊢
  refine rounds_roundWithAccuracy _ (Describes.sqrt _) ?_ hplace
  have : 0 < m <<< (e - 2 * k).toNat := by
    rw [Nat.shiftLeft_eq]
    positivity
  positivity

/-- Rounding may start from any exponent. -/
theorem rounds_round (sign : Sign) {m : ℕ} (hm : 0 < m) (e : ℤ) :
    Rounds F sign (m * 2 ^ e) (UnpackedFloat.round F sign m e) := by
  have hplace := lastPlace_natCast_mul_zpow (F := F) hm e
  unfold UnpackedFloat.round decreaseExponent
  extract_lets target places
  have hvalue : (m * 2 ^ e : ℝ) = (m <<< places : ℕ) * 2 ^ (e - places) :=
    (shiftLeft_mul_zpow m (by omega)).symm
  rw [hvalue] at hplace ⊢
  refine rounds_roundWithAccuracy _ (.whole _) ?_ ?_
  · have : 0 < m <<< places := by
      rw [Nat.shiftLeft_eq]
      positivity
    exact_mod_cast this
  · rw [hplace]
    omega

end PulseTrain.Binary
