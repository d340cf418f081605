import PulseTrain.Proofs.Binary.Operations
import PulseTrain.Proofs.Binary.Packing

/-!
# Magnitudes

The value of a number without its sign, infinity being the largest one.  While no
operand is negative or indeterminate, magnitudes determine every result: an
expression in the numbers of a format is the same expression in extended reals,
rounded after each operation.
-/

namespace PulseTrain.Binary

open Float.Model Float.Model.UnpackedFloat
open scoped ENNReal

noncomputable section

/-- The absolute value.  An indeterminate number has none and gives zero. -/
def magnitude : UnpackedFloat → ℝ≥0∞
  | .infinity _ => ⊤
  | .finite _ m e _ => .ofReal (value m e)
  | .zero _ | .notANumber => 0

/-- The number has a value and its sign bit is clear. -/
def Unsigned : UnpackedFloat → Prop
  | .infinity s | .zero s | .finite s _ _ _ => s = .positive
  | .notANumber => False

/-- The magnitude that the format puts in place of `x`; from the end of its range on
this is infinity. -/
def rounded (F : Format) (x : ℝ≥0∞) : ℝ≥0∞ :=
  if x = ⊤ ∨ value 1 (endExponent F) ≤ nearest F x.toReal then ⊤
  else .ofReal (nearest F x.toReal)

variable {F : Format} {m : ℕ} {e : ℤ} {hm : 0 < m} {s : Sign}

@[simp] theorem magnitude_infinity : magnitude (.infinity s) = ⊤ := rfl

@[simp] theorem magnitude_zero : magnitude (.zero s) = 0 := rfl

theorem magnitude_finite : magnitude (.finite s m e hm) = .ofReal (m * 2 ^ e) := rfl

theorem finite_value_pos (hm : 0 < m) (e : ℤ) : (0 : ℝ) < m * 2 ^ e := by
  have : (0 : ℝ) < m := by exact_mod_cast hm
  positivity

@[simp] theorem magnitude_finite_ne_zero : magnitude (.finite s m e hm) ≠ 0 :=
  (ENNReal.ofReal_pos.mpr (finite_value_pos hm e)).ne'

@[simp] theorem magnitude_finite_ne_top : magnitude (.finite s m e hm) ≠ ⊤ :=
  ENNReal.ofReal_ne_top

@[simp] theorem rounded_top : rounded F ⊤ = ⊤ := by simp [rounded]

@[simp] theorem rounded_zero : rounded F 0 = 0 := by
  have : ¬(2 : ℝ) ^ endExponent F ≤ 0 := not_le.mpr (by positivity)
  simp [rounded, this]

theorem rounded_ofReal {x : ℝ} (hx : 0 ≤ x) : rounded F (.ofReal x) =
    if (2 : ℝ) ^ endExponent F ≤ nearest F x then ⊤ else .ofReal (nearest F x) := by
  simp only [rounded, ENNReal.ofReal_ne_top, false_or, ENNReal.toReal_ofReal hx, value_one]

theorem rounded_mono : Monotone (rounded F) := by
  intro x y h
  by_cases hy : y = ⊤ ∨ value 1 (endExponent F) ≤ nearest F y.toReal
  · rw [rounded, rounded, if_pos hy]
    exact le_top
  · rw [not_or, not_le] at hy
    have hx : x ≠ ⊤ := ne_top_of_le_ne_top hy.1 h
    have hnearest : nearest F x.toReal ≤ nearest F y.toReal :=
      nearest_mono ENNReal.toReal_nonneg (ENNReal.toReal_mono hy.1 h)
    rw [rounded, rounded, if_neg (not_or.mpr ⟨hx, (hnearest.trans_lt hy.2).not_ge⟩),
      if_neg (not_or.mpr ⟨hy.1, hy.2.not_ge⟩)]
    exact ENNReal.ofReal_le_ofReal hnearest

/-- Down to the smallest exponent a rounded number has lost at most half a unit of a
mantissa of full length. -/
theorem mul_le_rounded {x : ℝ≥0∞}
    (h : .ofReal (2 ^ (F.minExponent + F.mantissaBits - 1)) ≤ x) :
    (2 ^ F.mantissaBits - 1 : ℕ) * x ≤ (2 ^ F.mantissaBits : ℕ) * rounded F x := by
  have hscale : ((2 ^ F.mantissaBits : ℕ) : ℝ≥0∞) * ⊤ = ⊤ := ENNReal.mul_top (by simp)
  by_cases htop : x = ⊤
  · rw [htop, rounded_top, hscale]
    exact le_top
  obtain ⟨y, hy, rfl⟩ : ∃ y : ℝ, 0 < y ∧ x = .ofReal y := by
    refine ⟨x.toReal, ENNReal.toReal_pos ?_ htop, (ENNReal.ofReal_toReal htop).symm⟩
    rintro rfl
    simp only [nonpos_iff_eq_zero, ENNReal.ofReal_eq_zero] at h
    exact h.not_gt (by positivity)
  rw [ENNReal.ofReal_le_ofReal_iff hy.le] at h
  rw [rounded_ofReal hy.le]
  split_ifs with hover
  · rw [hscale]
    exact le_top
  · have hbound := mul_le_nearest hy h
    rw [← ENNReal.ofReal_natCast, ← ENNReal.ofReal_natCast, ← ENNReal.ofReal_mul (by positivity),
      ← ENNReal.ofReal_mul (by positivity)]
    apply ENNReal.ofReal_le_ofReal
    rw [Nat.cast_sub Nat.one_le_two_pow]
    push_cast
    rw [mul_sub, mul_one, mul_one_div, sub_le_iff_le_add, ← sub_le_iff_le_add',
      le_div_iff₀ (by positivity)] at hbound
    linarith

/-- The operation whose exact result is `x` gives `u`. -/
structure Gives (F : Format) (x : ℝ≥0∞) (u : UnpackedFloat) : Prop where
  unsigned : Unsigned u
  magnitude_eq : magnitude u = rounded F x

theorem finite_value_lt (h : Canonical F (.finite s m e hm))
    (hrange : InRange F (.finite s m e hm)) : (m * 2 ^ e : ℝ) < 2 ^ endExponent F :=
  calc (m * 2 ^ e : ℝ) < 2 ^ F.mantissaBits * 2 ^ e := by
        have : (m : ℝ) < 2 ^ F.mantissaBits := by exact_mod_cast h.mantissa_lt
        gcongr
    _ = 2 ^ (e + F.mantissaBits) := (zpow_eq_pow_mul (add_comm _ _)).symm
    _ ≤ 2 ^ endExponent F := zpow_le_zpow_right₀ (by norm_num) hrange

theorem Rounds.gives {x : ℝ} {u : UnpackedFloat} (hF : 2 ≤ F.exponentBits) (hx : 0 ≤ x)
    (h : Rounds F .positive x u) : Gives F (.ofReal x) (unpack F (pack F u)) := by
  cases h with
  | zero hvalue =>
    have : ¬(2 : ℝ) ^ endExponent F ≤ 0 := not_le.mpr (by positivity)
    rw [unpack_pack_zero]
    exact ⟨rfl, by simp [magnitude, rounded_ofReal hx, hvalue, this]⟩
  | @finite m e hm hcanonical hvalue =>
    rcases lt_or_ge (endExponent F) (e + F.mantissaBits) with hover | hfits
    · rw [unpack_pack_of_lt hover]
      refine ⟨rfl, ?_⟩
      have hlarge : (2 : ℝ) ^ endExponent F ≤ nearest F x :=
        hvalue ▸ hcanonical.zpow_endExponent_le hF hover
      rw [rounded_ofReal hx, if_pos hlarge]
      rfl
    · rw [unpack_pack_of_le hcanonical hfits]
      refine ⟨rfl, ?_⟩
      rw [rounded_ofReal hx, hvalue, if_neg (finite_value_lt hcanonical hfits).not_ge]
      rfl

theorem gives_infinity : Gives F ⊤ (unpack F (pack F (.infinity .positive))) := by
  rw [unpack_pack_infinity]
  exact ⟨rfl, by simp⟩

theorem gives_zero : Gives F 0 (unpack F (pack F (.zero .positive))) := by
  rw [unpack_pack_zero]
  exact ⟨rfl, by simp⟩

theorem rounded_magnitude {u : UnpackedFloat} (h : Stored F u) :
    rounded F (magnitude u) = magnitude u := by
  cases u with
  | notANumber => exact rounded_zero
  | infinity => exact rounded_top
  | zero => exact rounded_zero
  | finite s m e hm =>
    have hnearest : nearest F (m * 2 ^ e) = m * 2 ^ e :=
      nearest_of_lt h.canonical.minExponent_le h.canonical.mantissa_lt
    rw [magnitude_finite, rounded_ofReal (finite_value_pos hm e).le, hnearest,
      if_neg (finite_value_lt h.canonical h.inRange).not_ge]

/-- Storing a number of the format does not change it. -/
theorem gives_self {u : UnpackedFloat} (hu : Unsigned u) (h : Stored F u) :
    Gives F (magnitude u) (unpack F (pack F u)) := by
  have hsame : unpack F (pack F u) = u := by
    cases u with
    | notANumber => exact hu.elim
    | infinity s => exact unpack_pack_infinity s
    | zero s => exact unpack_pack_zero s
    | finite => exact unpack_pack_of_le h.canonical h.inRange
  rw [hsame]
  exact ⟨hu, (rounded_magnitude h).symm⟩

theorem gives_normalize (hF : 2 ≤ F.exponentBits) (m : ℕ) (e : ℤ) :
    Gives F (.ofReal (m * 2 ^ e)) (unpack F (pack F (normalize F m e .positive))) := by
  cases m with
  | zero =>
    rw [Nat.cast_zero, zero_mul, ENNReal.ofReal_zero]
    exact gives_zero
  | succ m => exact (rounds_round .positive m.succ_pos e).gives hF (by positivity)

/-- The largest finite number of the format. -/
def largest (F : Format) : ℝ := value (2 ^ F.mantissaBits - 1) (endExponent F - F.mantissaBits)

theorem largest_lt : largest F < 2 ^ endExponent F := by
  have hpow : (2 ^ F.mantissaBits - 1 : ℕ) < 2 ^ F.mantissaBits := Nat.sub_one_lt (by positivity)
  calc largest F < (2 ^ F.mantissaBits : ℕ) * 2 ^ (endExponent F - F.mantissaBits) := by
        unfold largest value
        gcongr
    _ = 2 ^ endExponent F := by
        push_cast
        exact (zpow_eq_pow_mul (add_sub_cancel _ _).symm).symm

theorem Stored.value_le_largest (h : Stored F (.finite s m e hm)) : value m e ≤ largest F := by
  have hmantissa : m ≤ 2 ^ F.mantissaBits - 1 := Nat.le_sub_one_of_lt h.canonical.mantissa_lt
  have hexponent : e ≤ endExponent F - F.mantissaBits := le_sub_iff_add_le.mpr h.inRange
  unfold largest value
  gcongr
  norm_num

theorem magnitude_le_largest {u : UnpackedFloat} (h : Stored F u) (hfinite : magnitude u ≠ ⊤) :
    magnitude u ≤ .ofReal (largest F) := by
  cases u with
  | notANumber => exact zero_le
  | infinity => exact absurd rfl hfinite
  | zero => exact zero_le
  | finite s m e hm => exact ENNReal.ofReal_le_ofReal h.value_le_largest

theorem lt_of_rounded_ne_top {x : ℝ≥0∞} (hF : 2 ≤ F.exponentBits) (h : rounded F x ≠ ⊤) :
    x < .ofReal (2 ^ endExponent F) := by
  have hrange : F.minExponent ≤ endExponent F :=
    (minExponent_nonpos F).trans (by have := two_le_endExponent hF; omega)
  have hend : rounded F (.ofReal (2 ^ endExponent F)) = ⊤ := by
    rw [rounded_ofReal (by positivity), nearest_two_zpow hrange, if_pos le_rfl]
  by_contra hover
  exact h (top_le_iff.mp (hend ▸ rounded_mono (not_lt.mp hover)))

theorem rounded_two_pow {n : ℕ} (h : (n : ℤ) < endExponent F) : rounded F (2 ^ n) = 2 ^ n := by
  have hexact := nearest_two_zpow ((minExponent_nonpos F).trans n.cast_nonneg)
  have hfits : (2 : ℝ) ^ (n : ℤ) < 2 ^ endExponent F := zpow_lt_zpow_right₀ (by norm_num) h
  have hvalue : (2 : ℝ≥0∞) ^ n = .ofReal (2 ^ (n : ℤ)) := by
    rw [zpow_natCast, ENNReal.ofReal_pow zero_le_two, ENNReal.ofReal_ofNat]
  rw [hvalue, rounded_ofReal (by positivity), hexact, if_neg hfits.not_ge]

theorem rounded_two_mul {u : UnpackedFloat} (h : Canonical F u)
    (hlt : 2 * magnitude u < .ofReal (2 ^ endExponent F)) :
    rounded F (2 * magnitude u) = 2 * magnitude u := by
  cases u with
  | notANumber => simp [magnitude]
  | infinity => simp [magnitude]
  | zero => simp [magnitude]
  | finite s m e hm =>
    have hdouble : 2 * magnitude (.finite s m e hm) = .ofReal (m * 2 ^ (e + 1)) := by
      rw [magnitude_finite, ← ENNReal.ofReal_ofNat, ← ENNReal.ofReal_mul (by norm_num),
        zpow_add_one₀ (by norm_num)]
      congr 1
      ring
    rw [hdouble, ENNReal.ofReal_lt_ofReal_iff (by positivity)] at hlt
    have hmin := h.minExponent_le
    have hnearest : nearest F (m * 2 ^ (e + 1)) = m * 2 ^ (e + 1) :=
      nearest_of_lt (by omega) h.mantissa_lt
    rw [hdouble, rounded_ofReal (finite_value_pos hm _).le, hnearest, if_neg hlt.not_ge]

/-- Rounding half of a number never rounds up so far that the double overflows. -/
theorem two_mul_rounded_half_lt {u : UnpackedFloat} (hF : 2 ≤ F.exponentBits) (h : Stored F u)
    (hfinite : magnitude u ≠ ⊤) :
    2 * rounded F (magnitude u / 2) < .ofReal (2 ^ endExponent F) := by
  set half : ℝ := (2 ^ F.mantissaBits - 1 : ℕ) * 2 ^ (endExponent F - F.mantissaBits - 1)
    with hhalf
  have hlargest : largest F = 2 * half := by
    rw [hhalf, largest, value, zpow_sub_one₀ (by norm_num)]
    ring
  have hpos : 0 ≤ half := by positivity
  have hexact : rounded F (.ofReal half) = .ofReal half := by
    have hend := two_le_endExponent hF
    have hmin := minExponent_eq F
    have hnearest : nearest F half = half :=
      nearest_of_lt (by omega) (Nat.sub_one_lt (by positivity))
    have := largest_lt (F := F)
    rw [rounded_ofReal hpos, hnearest, if_neg (by linarith)]
  have hbound : magnitude u / 2 ≤ .ofReal half := by
    apply ENNReal.div_le_of_le_mul
    rw [← ENNReal.ofReal_ofNat, ← ENNReal.ofReal_mul hpos, mul_comm, ← hlargest]
    exact magnitude_le_largest h hfinite
  calc 2 * rounded F (magnitude u / 2) ≤ 2 * .ofReal half := by
        rw [← hexact]
        gcongr
        exact rounded_mono hbound
    _ = .ofReal (largest F) := by
        rw [← ENNReal.ofReal_ofNat, ← ENNReal.ofReal_mul (by norm_num), hlargest]
    _ < .ofReal (2 ^ endExponent F) :=
        (ENNReal.ofReal_lt_ofReal_iff (by positivity)).mpr largest_lt

variable {a b : UnpackedFloat}

theorem gives_add (hF : 2 ≤ F.exponentBits) (ha : Unsigned a) (hb : Unsigned b)
    (hstored₁ : Stored F a) (hstored₂ : Stored F b) :
    Gives F (magnitude a + magnitude b) (unpack F (pack F (UnpackedFloat.add F a b))) := by
  cases a with
  | notANumber => exact ha.elim
  | infinity =>
    cases ha
    rw [magnitude_infinity, top_add]
    cases b with
    | notANumber => exact hb.elim
    | infinity =>
      cases hb
      exact gives_infinity
    | zero => exact gives_infinity
    | finite => exact gives_infinity
  | zero =>
    cases ha
    rw [magnitude_zero, zero_add]
    cases b with
    | notANumber => exact hb.elim
    | infinity =>
      cases hb
      exact gives_infinity
    | zero =>
      cases hb
      exact gives_zero
    | finite => exact gives_self hb hstored₂
  | finite s₁ m₁ e₁ hm₁ =>
    cases ha
    cases b with
    | notANumber => exact hb.elim
    | infinity =>
      cases hb
      rw [magnitude_infinity, add_top]
      exact gives_infinity
    | zero =>
      rw [magnitude_zero, add_zero]
      exact gives_self rfl hstored₁
    | finite s₂ m₂ e₂ hm₂ =>
      cases hb
      -- Both mantissas are moved to the smaller exponent, which loses nothing.
      have hsum := gives_normalize hF
        (m₁ <<< (e₁ - min e₁ e₂).toNat + m₂ <<< (e₂ - min e₁ e₂).toNat) (min e₁ e₂)
      rw [Nat.cast_add, add_mul, shiftLeft_mul_zpow m₁ (by omega : e₁ = _),
        shiftLeft_mul_zpow m₂ (by omega : e₂ = _),
        ENNReal.ofReal_add (finite_value_pos hm₁ e₁).le (finite_value_pos hm₂ e₂).le] at hsum
      exact hsum

/-- A product, but for that of zero and infinity. -/
theorem gives_mul (hF : 2 ≤ F.exponentBits) (ha : Unsigned a) (hb : Unsigned b)
    (hcanonical₁ : Canonical F a) (hcanonical₂ : Canonical F b)
    (hleft : magnitude a = 0 → magnitude b ≠ ⊤) (hright : magnitude b = 0 → magnitude a ≠ ⊤) :
    Gives F (magnitude a * magnitude b) (unpack F (pack F (mul F a b))) := by
  cases a with
  | notANumber => exact ha.elim
  | infinity =>
    cases ha
    cases b with
    | notANumber => exact hb.elim
    | infinity =>
      cases hb
      rw [magnitude_infinity, ENNReal.top_mul_top]
      exact gives_infinity
    | zero => exact absurd rfl (hright rfl)
    | finite =>
      cases hb
      rw [magnitude_infinity, ENNReal.top_mul magnitude_finite_ne_zero]
      exact gives_infinity
  | zero =>
    cases ha
    cases b with
    | notANumber => exact hb.elim
    | infinity => exact absurd rfl (hleft rfl)
    | zero =>
      cases hb
      rw [magnitude_zero, zero_mul]
      exact gives_zero
    | finite =>
      cases hb
      rw [magnitude_zero, zero_mul]
      exact gives_zero
  | finite s₁ m₁ e₁ hm₁ =>
    cases ha
    cases b with
    | notANumber => exact hb.elim
    | infinity =>
      cases hb
      rw [magnitude_infinity, ENNReal.mul_top magnitude_finite_ne_zero]
      exact gives_infinity
    | zero =>
      cases hb
      rw [magnitude_zero, mul_zero]
      exact gives_zero
    | finite s₂ m₂ e₂ hm₂ =>
      cases hb
      have hpos₁ := finite_value_pos hm₁ e₁
      have hpos₂ := finite_value_pos hm₂ e₂
      rw [magnitude_finite, magnitude_finite, ← ENNReal.ofReal_mul hpos₁.le]
      exact (rounds_mul hcanonical₁ hcanonical₂).gives hF (by positivity)

/-- A quotient, but for those of two zeros and of two infinities. -/
theorem gives_div (hF : 2 ≤ F.exponentBits) (ha : Unsigned a) (hb : Unsigned b)
    (hzero : magnitude a = 0 → magnitude b ≠ 0) (htop : magnitude a = ⊤ → magnitude b ≠ ⊤) :
    Gives F (magnitude a / magnitude b) (unpack F (pack F (UnpackedFloat.div F a b))) := by
  cases a with
  | notANumber => exact ha.elim
  | infinity =>
    cases ha
    cases b with
    | notANumber => exact hb.elim
    | infinity => exact absurd rfl (htop rfl)
    | zero =>
      cases hb
      rw [magnitude_infinity, ENNReal.top_div_of_ne_top (by simp)]
      exact gives_infinity
    | finite =>
      cases hb
      rw [magnitude_infinity, ENNReal.top_div_of_ne_top magnitude_finite_ne_top]
      exact gives_infinity
  | zero =>
    cases ha
    rw [magnitude_zero, ENNReal.zero_div]
    cases b with
    | notANumber => exact hb.elim
    | infinity =>
      cases hb
      exact gives_zero
    | zero => exact absurd rfl (hzero rfl)
    | finite =>
      cases hb
      exact gives_zero
  | finite s₁ m₁ e₁ hm₁ =>
    cases ha
    cases b with
    | notANumber => exact hb.elim
    | infinity =>
      cases hb
      rw [magnitude_infinity, ENNReal.div_top]
      exact gives_zero
    | zero =>
      cases hb
      rw [magnitude_zero, ENNReal.div_zero magnitude_finite_ne_zero]
      exact gives_infinity
    | finite s₂ m₂ e₂ hm₂ =>
      cases hb
      have hpos₁ := finite_value_pos hm₁ e₁
      have hpos₂ := finite_value_pos hm₂ e₂
      rw [magnitude_finite, magnitude_finite, ← ENNReal.ofReal_div_of_pos hpos₂]
      exact (rounds_div .positive .positive hm₁ e₁ hm₂ e₂).gives hF (by positivity)

/-- Canonical numbers are ordered as their exponents and then as their mantissas. -/
theorem finite_value_lt_iff {m₁ m₂ : ℕ} {e₁ e₂ : ℤ} {s₁ s₂ : Sign} {hm₁ : 0 < m₁} {hm₂ : 0 < m₂}
    (hcanonical₁ : Canonical F (.finite s₁ m₁ e₁ hm₁))
    (hcanonical₂ : Canonical F (.finite s₂ m₂ e₂ hm₂)) :
    (m₁ * 2 ^ e₁ : ℝ) < m₂ * 2 ^ e₂ ↔ e₁ < e₂ ∨ e₁ = e₂ ∧ m₁ < m₂ := by
  have hmono {x y : ℝ} (hx : 0 < x) (h : x ≤ y) := lastPlace_mono (F := F) hx h
  have hplace₁ := hcanonical₁.lastPlace_eq
  have hplace₂ := hcanonical₂.lastPlace_eq
  rcases lt_trichotomy e₁ e₂ with hlt | rfl | hgt
  · refine iff_of_true (lt_of_not_ge fun hle => ?_) (.inl hlt)
    have := hmono (finite_value_pos hm₂ e₂) hle
    omega
  · rw [mul_lt_mul_iff_left₀ (by positivity), Nat.cast_lt]
    omega
  · refine iff_of_false (fun hlt => ?_) (by omega)
    have := hmono (finite_value_pos hm₁ e₁) hlt.le
    omega

theorem compares_finite {m₁ m₂ : ℕ} {e₁ e₂ : ℤ} {s₁ s₂ : Sign} {hm₁ : 0 < m₁} {hm₂ : 0 < m₂}
    (hcanonical₁ : Canonical F (.finite s₁ m₁ e₁ hm₁))
    (hcanonical₂ : Canonical F (.finite s₂ m₂ e₂ hm₂)) :
    ((compare e₁ e₂).then (compare m₁ m₂)).Compares (m₁ * 2 ^ e₁ : ℝ) (m₂ * 2 ^ e₂) := by
  have hlt := finite_value_lt_iff hcanonical₁ hcanonical₂
  have hgt := finite_value_lt_iff hcanonical₂ hcanonical₁
  rcases lt_trichotomy e₁ e₂ with hless | rfl | hgreater
  · rw [compare_lt_iff_lt.mpr hless]
    exact hlt.mpr (.inl hless)
  · rw [compare_eq_iff_eq.mpr rfl, Ordering.eq_then]
    rcases lt_trichotomy m₁ m₂ with hless | rfl | hgreater
    · rw [compare_lt_iff_lt.mpr hless]
      exact hlt.mpr (.inr ⟨rfl, hless⟩)
    · rw [compare_eq_iff_eq.mpr rfl]
      rfl
    · rw [compare_gt_iff_gt.mpr hgreater]
      exact hgt.mpr (.inr ⟨rfl, hgreater⟩)
  · rw [compare_gt_iff_gt.mpr hgreater]
    exact hgt.mpr (.inl hgreater)

theorem compares_ofReal {x y : ℝ} (hx : 0 < x) (hy : 0 < y) {o : Ordering}
    (h : o.Compares x y) : o.Compares (ENNReal.ofReal x) (ENNReal.ofReal y) := by
  cases o with
  | lt => exact (ENNReal.ofReal_lt_ofReal_iff hy).mpr h
  | eq => exact congrArg _ h
  | gt => exact (ENNReal.ofReal_lt_ofReal_iff hx).mpr h

theorem compare_eq (ha : Unsigned a) (hb : Unsigned b) (hcanonical₁ : Canonical F a)
    (hcanonical₂ : Canonical F b) :
    a.compare b = some (compare (magnitude a) (magnitude b)) := by
  have hresult {o : Ordering} (h : o.Compares (magnitude a) (magnitude b)) :
      some o = some (compare (magnitude a) (magnitude b)) :=
    congrArg some ((compare_iff _ _).mpr h).symm
  cases a with
  | notANumber => exact ha.elim
  | infinity =>
    cases ha
    cases b with
    | notANumber => exact hb.elim
    | infinity =>
      cases hb
      exact hresult (o := .eq) rfl
    | zero => exact hresult (o := .gt) ENNReal.zero_lt_top
    | finite => exact hresult (o := .gt) (lt_top_iff_ne_top.mpr magnitude_finite_ne_top)
  | zero =>
    cases b with
    | notANumber => exact hb.elim
    | infinity =>
      cases hb
      exact hresult (o := .lt) ENNReal.zero_lt_top
    | zero => exact hresult (o := .eq) rfl
    | finite =>
      cases hb
      exact hresult (o := .lt) (pos_iff_ne_zero.mpr magnitude_finite_ne_zero)
  | finite s₁ m₁ e₁ hm₁ =>
    cases ha
    cases b with
    | notANumber => exact hb.elim
    | infinity =>
      cases hb
      exact hresult (o := .lt) (lt_top_iff_ne_top.mpr magnitude_finite_ne_top)
    | zero => exact hresult (o := .gt) (pos_iff_ne_zero.mpr magnitude_finite_ne_zero)
    | finite s₂ m₂ e₂ hm₂ =>
      cases hb
      exact hresult (compares_ofReal (finite_value_pos hm₁ e₁) (finite_value_pos hm₂ e₂)
        (compares_finite hcanonical₁ hcanonical₂))

theorem lt_iff_magnitude_lt (ha : Unsigned a) (hb : Unsigned b) (hcanonical₁ : Canonical F a)
    (hcanonical₂ : Canonical F b) : a.lt b = true ↔ magnitude a < magnitude b := by
  rw [UnpackedFloat.lt, compare_eq ha hb hcanonical₁ hcanonical₂, beq_iff_eq, Option.some_inj,
    compare_lt_iff_lt]

theorem le_iff_magnitude_le (ha : Unsigned a) (hb : Unsigned b) (hcanonical₁ : Canonical F a)
    (hcanonical₂ : Canonical F b) : a.le b = true ↔ magnitude a ≤ magnitude b := by
  rw [UnpackedFloat.le, compare_eq ha hb hcanonical₁ hcanonical₂, Option.any_some,
    ← Ordering.ne_gt_iff_isLE]
  exact compare_le_iff_le

theorem beq_iff_magnitude_eq (ha : Unsigned a) (hb : Unsigned b) (hcanonical₁ : Canonical F a)
    (hcanonical₂ : Canonical F b) : a.beq b = true ↔ magnitude a = magnitude b := by
  rw [UnpackedFloat.beq, compare_eq ha hb hcanonical₁ hcanonical₂, beq_iff_eq, Option.some_inj,
    compare_eq_iff_eq]

/-- Numbers that compare as equal are the same, but for two zeros. -/
theorem eq_of_beq_of_ne_zero (h : a.beq b = true) (hzero : ∀ s, a ≠ .zero s) : a = b := by
  cases a with
  | notANumber => cases h
  | zero s => exact absurd rfl (hzero s)
  | infinity s =>
    cases b with
    | infinity s' => cases s <;> cases s' <;> first | rfl | cases h
    | _ => cases s <;> cases h
  | finite s m e hm =>
    cases b with
    | finite s' m' e' hm' =>
      have hsame (hcompare : (compare e e').then (compare m m') = .eq) : e = e' ∧ m = m' := by
        rw [Ordering.then_eq_eq] at hcompare
        exact ⟨compare_eq_iff_eq.mp hcompare.1, compare_eq_iff_eq.mp hcompare.2⟩
      rw [UnpackedFloat.beq, beq_iff_eq] at h
      cases s with
      | negative =>
        cases s' with
        | negative =>
          obtain ⟨rfl, rfl⟩ := hsame (Ordering.swap_eq_eq.mp (Option.some.inj h))
          rfl
        | positive => cases h
      | positive =>
        cases s' with
        | negative => cases h
        | positive =>
          obtain ⟨rfl, rfl⟩ := hsame (Option.some.inj h)
          rfl
    | infinity s' => cases s <;> cases s' <;> cases h
    | _ => cases s <;> cases h

theorem unsigned_of_pos {u : UnpackedFloat} (h : UnpackedFloat.lt (.zero .positive) u = true) :
    Unsigned u ∧ magnitude u ≠ 0 := by
  cases u with
  | notANumber => cases h
  | zero => cases h
  | infinity s =>
    cases s with
    | negative => cases h
    | positive => exact ⟨rfl, ENNReal.top_ne_zero⟩
  | finite s =>
    cases s with
    | negative => cases h
    | positive => exact ⟨rfl, magnitude_finite_ne_zero⟩

def root (x : ℝ≥0∞) : ℝ≥0∞ := x ^ ((2 : ℕ) : ℝ)⁻¹

theorem root_mono : Monotone root := fun _ _ h =>
  ENNReal.rpow_le_rpow h (inv_nonneg.mpr (Nat.cast_nonneg 2))

@[simp] theorem root_sq (x : ℝ≥0∞) : root (x ^ 2) = x :=
  ENNReal.pow_rpow_inv_natCast two_ne_zero x

@[simp] theorem root_zero : root 0 = 0 := by
  simpa using root_sq 0

@[simp] theorem root_one : root 1 = 1 := by
  simpa using root_sq 1

@[simp] theorem root_top : root ⊤ = ⊤ := by
  simpa using root_sq ⊤

theorem root_ofReal {x : ℝ} (hx : 0 ≤ x) : root (.ofReal x) = .ofReal √x := by
  rw [← root_sq (.ofReal √x), ← ENNReal.ofReal_pow (Real.sqrt_nonneg x), Real.sq_sqrt hx]

theorem gives_sqrt (hF : 2 ≤ F.exponentBits) (ha : Unsigned a) :
    Gives F (root (magnitude a)) (unpack F (pack F (UnpackedFloat.sqrt F a))) := by
  cases a with
  | notANumber => exact ha.elim
  | infinity =>
    cases ha
    rw [magnitude_infinity, root_top]
    exact gives_infinity
  | zero =>
    cases ha
    rw [magnitude_zero, root_zero]
    exact gives_zero
  | finite s m e hm =>
    cases ha
    rw [magnitude_finite, root_ofReal (finite_value_pos hm e).le]
    exact rounds_sqrt.gives hF (Real.sqrt_nonneg _)

theorem unsigned_sqrt (hF : 2 ≤ F.exponentBits) (ha : Unsigned a) :
    Unsigned (unpack F (pack F (UnpackedFloat.sqrt F a))) :=
  (gives_sqrt hF ha).unsigned

end

end PulseTrain.Binary
