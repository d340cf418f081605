import PulseTrain.Binary.Rounding
import PulseTrain.Proofs.Binary.Magnitude

/-!
# Single precision

The rules for magnitudes, stated for the numbers that the programs compute with,
and the whole number nearest to one of them.
-/

namespace PulseTrain.Single

open Float.Model Float.Model.UnpackedFloat Binary
open scoped ENNReal

noncomputable section

/-- The absolute value of a single precision number. -/
def magnitude (x : Float32) : ℝ≥0∞ := Binary.magnitude x.toModel.unpack

/-- The number has a value and its sign bit is clear. -/
def Unsigned (x : Float32) : Prop := Binary.Unsigned x.toModel.unpack

/-- The magnitude that single precision puts in place of `x`. -/
abbrev rounded (x : ℝ≥0∞) : ℝ≥0∞ := Binary.rounded .binary32 x

theorem stored (x : Float32) : Stored .binary32 x.toModel.unpack :=
  stored_unpack (by decide) _

variable {x y : Float32}

theorem lt_iff (hx : Unsigned x) (hy : Unsigned y) : x < y ↔ magnitude x < magnitude y := by
  rw [magnitude, magnitude,
    ← lt_iff_magnitude_lt hx hy (stored x).canonical (stored y).canonical]
  exact decide_eq_true_iff

theorem le_iff (hx : Unsigned x) (hy : Unsigned y) : x ≤ y ↔ magnitude x ≤ magnitude y := by
  rw [magnitude, magnitude,
    ← le_iff_magnitude_le hx hy (stored x).canonical (stored y).canonical]
  exact decide_eq_true_iff

theorem beq_iff (hx : Unsigned x) (hy : Unsigned y) :
    (x == y) = true ↔ magnitude x = magnitude y :=
  beq_iff_magnitude_eq hx hy (stored x).canonical (stored y).canonical

theorem mul (hx : Unsigned x) (hy : Unsigned y) (hleft : magnitude x = 0 → magnitude y ≠ ⊤)
    (hright : magnitude y = 0 → magnitude x ≠ ⊤) :
    Unsigned (x * y) ∧ magnitude (x * y) = rounded (magnitude x * magnitude y) :=
  have h := gives_mul (F := .binary32) (by decide) hx hy (stored x).canonical
    (stored y).canonical hleft hright
  ⟨h.unsigned, h.magnitude_eq⟩

theorem div (hx : Unsigned x) (hy : Unsigned y) (hzero : magnitude x = 0 → magnitude y ≠ 0)
    (htop : magnitude x = ⊤ → magnitude y ≠ ⊤) :
    Unsigned (x / y) ∧ magnitude (x / y) = rounded (magnitude x / magnitude y) :=
  have h := gives_div (F := .binary32) (by decide) hx hy hzero htop
  ⟨h.unsigned, h.magnitude_eq⟩

theorem add (hx : Unsigned x) (hy : Unsigned y) :
    Unsigned (x + y) ∧ magnitude (x + y) = rounded (magnitude x + magnitude y) :=
  have h := gives_add (F := .binary32) (by decide) hx hy (stored x) (stored y)
  ⟨h.unsigned, h.magnitude_eq⟩

theorem sqrt (hx : Unsigned x) :
    Unsigned x.sqrt ∧ magnitude x.sqrt = rounded (root (magnitude x)) :=
  have h := gives_sqrt (F := .binary32) (by decide) hx
  ⟨h.unsigned, h.magnitude_eq⟩

theorem toFloat32 (n : UInt32) :
    Unsigned n.toFloat32 ∧ magnitude n.toFloat32 = rounded n.toNat := by
  have h := gives_normalize (F := .binary32) (by decide) n.toNat 0
  rw [zpow_zero, mul_one, ENNReal.ofReal_natCast] at h
  exact ⟨h.unsigned, h.magnitude_eq⟩

theorem magnitude_one : magnitude 1 = 1 := by
  change ENNReal.ofReal ((8388608 : ℕ) * 2 ^ (-23 : ℤ)) = 1
  norm_num

theorem magnitude_half : magnitude 0.5 = 1 / 2 := by
  change ENNReal.ofReal ((8388608 : ℕ) * 2 ^ (-24 : ℤ)) = _
  rw [← ENNReal.ofReal_one, ← ENNReal.ofReal_ofNat, ← ENNReal.ofReal_div_of_pos two_pos]
  norm_num

theorem rounded_one : rounded 1 = 1 := by
  rw [← magnitude_one]
  exact Binary.rounded_magnitude (stored 1)

theorem one_le_rounded {r : ℝ≥0∞} (h : 1 ≤ r) : 1 ≤ rounded r :=
  rounded_one.ge.trans (Binary.rounded_mono h)

theorem rounded_half : rounded (1 / 2) = 1 / 2 := by
  rw [← magnitude_half]
  exact Binary.rounded_magnitude (stored 0.5)

theorem rounded_le_two_pow {n : ℕ} {r : ℝ≥0∞} (hn : n < 128) (h : r ≤ 2 ^ n) :
    rounded r ≤ 2 ^ n :=
  calc rounded r ≤ rounded (2 ^ n) := Binary.rounded_mono h
    _ = 2 ^ n := Binary.rounded_two_pow (Int.ofNat_lt.mpr hn)

theorem eq_of_unpack_eq (h : x.toModel.unpack = y.toModel.unpack) : x = y := by
  have hbits := (unpack_inj_of_valid x.toModel.valid y.toModel.valid).mp h
  exact Float32.toBits_inj.mp (UInt32.toBitVec_inj.mp hbits)

theorem magnitude_ne_top (h : x.isFinite = true) : magnitude x ≠ ⊤ := by
  change x.toModel.unpack.isFinite = true at h
  unfold magnitude
  cases hx : x.toModel.unpack with
  | finite => exact magnitude_finite_ne_top
  | zero => exact ENNReal.zero_ne_top
  | _ => simp [hx, UnpackedFloat.isFinite] at h

theorem isFinite_of_ne_top (hx : Unsigned x) (h : magnitude x ≠ ⊤) : x.isFinite = true := by
  change x.toModel.unpack.isFinite = true
  unfold Unsigned at hx
  unfold magnitude at h
  cases hu : x.toModel.unpack with
  | notANumber =>
    rw [hu] at hx
    exact hx.elim
  | infinity =>
    rw [hu] at h
    exact absurd rfl h
  | _ => rfl

theorem exists_finite (hx : Unsigned x) (hzero : magnitude x ≠ 0) (htop : magnitude x ≠ ⊤) :
    ∃ m e hm, x.toModel.unpack = .finite .positive m e hm := by
  unfold Unsigned at hx
  unfold magnitude at hzero htop
  cases hu : x.toModel.unpack with
  | notANumber =>
    rw [hu] at hx
    exact hx.elim
  | infinity =>
    rw [hu] at htop
    exact absurd rfl htop
  | zero =>
    rw [hu] at hzero
    exact absurd rfl hzero
  | finite s m e hm =>
    rw [hu] at hx
    cases hx
    exact ⟨m, e, hm, rfl⟩

theorem ne_neg_zero (hx : Unsigned x) : x ≠ -0 := by
  rintro rfl
  cases hx

theorem not_lt_zero (hx : Unsigned x) : ¬x < 0 := by
  rw [lt_iff hx (y := 0) rfl]
  exact not_lt_bot

theorem nonneg (hx : Unsigned x) : 0 ≤ x := by
  rw [le_iff (x := 0) rfl hx]
  exact zero_le

theorem isNaN_of_unsigned (hx : Unsigned x) : x.isNaN = false := by
  change x.toModel.unpack.isNaN = false
  unfold Unsigned at hx
  cases hu : x.toModel.unpack with
  | notANumber =>
    rw [hu] at hx
    exact hx.elim
  | _ => rfl

theorem beq_self (hx : Unsigned x) : (x == x) = true := by
  rw [Float32.beq_self_iff]
  rintro rfl
  exact hx

theorem unsigned_of_pos (h : 0 < x) : Unsigned x ∧ magnitude x ≠ 0 :=
  Binary.unsigned_of_pos (of_decide_eq_true h)

theorem eq_of_beq_of_pos (h : (x == y) = true) (hpos : 0 < x) : x = y := by
  refine eq_of_unpack_eq (eq_of_beq_of_ne_zero h fun s hzero => ?_)
  exact (unsigned_of_pos hpos).2 (by rw [magnitude, hzero, magnitude_zero])

/-- A finite number that is not below zero may still carry a sign, but only on zero. -/
theorem unsigned_of_not_neg (hfinite : x.isFinite = true) (hnonneg : ¬x < 0) (hzero : x ≠ -0) :
    Unsigned x := by
  change x.toModel.unpack.isFinite = true at hfinite
  have hlt : ¬UnpackedFloat.lt x.toModel.unpack (.zero .positive) = true :=
    fun h => hnonneg (decide_eq_true h)
  have hsign : x.toModel.unpack ≠ .zero .negative := fun h => hzero (eq_of_unpack_eq h)
  unfold Unsigned
  cases hx : x.toModel.unpack with
  | notANumber => simp [hx, UnpackedFloat.isFinite] at hfinite
  | infinity => simp [hx, UnpackedFloat.isFinite] at hfinite
  | zero s =>
    cases s with
    | negative => exact absurd hx hsign
    | positive => rfl
  | finite s =>
    cases s with
    | negative => simp [hx, UnpackedFloat.lt, UnpackedFloat.compare] at hlt
    | positive => rfl

theorem nearestNat_eq (m : ℕ) (e : ℤ) : nearestNat m e = ⌊(m * 2 ^ e + 1 / 2 : ℝ)⌋₊ := by
  unfold nearestNat
  split_ifs with hwhole
  · obtain ⟨k, rfl⟩ := Int.eq_ofNat_of_zero_le hwhole
    rw [Int.toNat_natCast, Nat.shiftLeft_eq, eq_comm, Nat.floor_eq_iff (by positivity)]
    push_cast
    rw [zpow_natCast]
    constructor <;> linarith
  · obtain ⟨k, hk⟩ := Int.eq_ofNat_of_zero_le (by omega : 0 ≤ -e)
    obtain rfl : e = -k := by omega
    have hquot : (m * 2 ^ (-k : ℤ) + 1 / 2 : ℝ) =
        ((2 * m + 2 ^ k : ℕ) : ℝ) / ((2 ^ (k + 1) : ℕ) : ℝ) := by
      push_cast
      rw [zpow_neg, zpow_natCast, pow_succ]
      field_simp
    rw [hquot, Nat.floor_div_eq_div, neg_neg, Int.toNat_natCast, Nat.one_shiftLeft,
      Nat.shiftRight_eq_div_pow]

theorem roundNat_eq (hx : Unsigned x) (hfinite : magnitude x ≠ ⊤) :
    roundNat x = ⌊(magnitude x).toReal + 1 / 2⌋₊ := by
  unfold Unsigned at hx
  unfold magnitude at hfinite ⊢
  unfold roundNat
  cases hu : x.toModel.unpack with
  | notANumber => simp [hu, Binary.Unsigned] at hx
  | infinity => simp [hu] at hfinite
  | zero =>
    have : ⌊(1 / 2 : ℝ)⌋₊ = 0 := by norm_num
    rw [magnitude_zero, ENNReal.toReal_zero, zero_add, this]
    rfl
  | finite s m e hm =>
    obtain rfl : s = .positive := by simpa [hu, Binary.Unsigned] using hx
    rw [magnitude_finite, ENNReal.toReal_ofReal (finite_value_pos hm e).le]
    exact nearestNat_eq m e

theorem roundNat_of_not_unsigned (hx : ¬Unsigned x) : roundNat x = 0 := by
  unfold Unsigned at hx
  unfold roundNat wholePart
  cases hu : x.toModel.unpack with
  | finite s =>
    cases s with
    | negative => rfl
    | positive => exact absurd (by rw [hu]; rfl) hx
  | _ => rfl

/-- Numbers that are not whole are small and whole numbers with a positive exponent
are even, so nothing below `2 ^ 32` rounds up to it or to its predecessor. -/
theorem roundNat_add_one_lt (hx : Unsigned x) (hlt : magnitude x < .ofReal (2 ^ 32)) :
    roundNat x + 1 < 2 ^ 32 := by
  have hcanonical := (stored x).canonical
  unfold Unsigned at hx
  unfold magnitude at hlt
  unfold roundNat
  cases hu : x.toModel.unpack with
  | notANumber => simp [hu, Binary.Unsigned] at hx
  | infinity => simp [hu] at hlt
  | zero => exact Nat.one_lt_two_pow (by decide)
  | finite s m e hm =>
    rw [hu] at hcanonical hlt
    obtain rfl : s = .positive := by simpa [hu, Binary.Unsigned] using hx
    rw [magnitude_finite, ENNReal.ofReal_lt_ofReal_iff (by positivity)] at hlt
    have hmantissa : m < 2 ^ 24 := hcanonical.mantissa_lt
    change nearestNat m e + 1 < 2 ^ 32
    rcases le_or_gt 0 e with hwhole | hfraction
    · obtain ⟨k, rfl⟩ := Int.eq_ofNat_of_zero_le hwhole
      rw [nearestNat, if_pos hwhole, Int.toNat_natCast, Nat.shiftLeft_eq]
      rw [zpow_natCast] at hlt
      have hbelow : m * 2 ^ k < 2 ^ 32 := by exact_mod_cast hlt
      cases k with
      | zero => omega
      | succ k =>
        rw [pow_succ, ← mul_assoc] at hbelow ⊢
        omega
    · have hscale : (2 : ℝ) ^ e ≤ 2 ^ (-1 : ℤ) := zpow_le_zpow_right₀ (by norm_num) (by omega)
      have hreal : (m : ℝ) < 2 ^ 24 := by exact_mod_cast hmantissa
      have hhalf : nearestNat m e < 2 ^ 24 := by
        rw [nearestNat_eq, Nat.floor_lt (by positivity)]
        calc (m * 2 ^ e + 1 / 2 : ℝ) ≤ 2 ^ 24 * 2 ^ (-1 : ℤ) + 1 / 2 := by gcongr
          _ < ((2 ^ 24 : ℕ) : ℝ) := by norm_num
      omega

end

end PulseTrain.Single
