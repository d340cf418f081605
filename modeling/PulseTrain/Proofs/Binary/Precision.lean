import PulseTrain.Proofs.Binary.Double
import PulseTrain.Proofs.Binary.Single

/-!
# Changing the precision

Widening keeps every value, narrowing gives back what was widened, and a number that
is narrowed stays finite up to half a unit beyond the largest single precision number.
The squares of widened numbers are not rounded.
-/

namespace PulseTrain

open Float.Model Float.Model.UnpackedFloat Binary

noncomputable section

namespace Single

/-- The number is finite and has the given value. -/
def HasValue (x : Float32) (r : ℝ) : Prop := Binary.HasValue x.toModel.unpack r

variable {x y : Float32} {r s : ℝ}

theorem exists_hasValue (h : x.isFinite = true) : ∃ r, HasValue x r :=
  Binary.HasValue.exists_of_isFinite h

theorem hasValue_zero : HasValue 0 0 := .zero .positive

theorem HasValue.lt_iff (hx : HasValue x r) (hy : HasValue y s) : x < y ↔ r < s := by
  rw [← Binary.HasValue.lt_iff hx hy (stored x).canonical (stored y).canonical]
  exact decide_eq_true_iff

theorem HasValue.beq_iff (hx : HasValue x r) (hy : HasValue y s) : (x == y) = true ↔ r = s :=
  Binary.HasValue.beq_iff hx hy (stored x).canonical (stored y).canonical

theorem HasValue.pos (h : HasValue x r) (hpos : 0 < x) : 0 < r :=
  (hasValue_zero.lt_iff h).mp hpos

theorem HasValue.lt_of_pos (h : HasValue x r) (hpos : 0 < r) : 0 < x :=
  (hasValue_zero.lt_iff h).mpr hpos

theorem HasValue.nonneg (h : HasValue x r) (hnot : ¬x < 0) : 0 ≤ r :=
  not_lt.mp ((h.lt_iff hasValue_zero).not.mp hnot)

theorem HasValue.square (h : HasValue x r) :
    Unsigned (x * x) ∧ magnitude (x * x) = rounded (.ofReal (r * r)) :=
  have hgives := Binary.HasValue.gives_mul_self (F := .binary32) (by decide) h (stored x).canonical
  ⟨hgives.unsigned, hgives.magnitude_eq⟩

/-- Only a zero may be stored in two ways. -/
theorem HasValue.unique (hx : HasValue x r) (hy : HasValue y r) (hr : r ≠ 0) : x = y :=
  eq_of_unpack_eq
    (Binary.HasValue.unique hx hy (stored x).canonical (stored y).canonical hr)

theorem HasValue.magnitude_eq (h : HasValue x r) (hx : Unsigned x) :
    magnitude x = .ofReal r := by
  unfold HasValue at h
  unfold Unsigned at hx
  unfold magnitude
  generalize x.toModel.unpack = u at h hx
  cases h with
  | zero => exact ENNReal.ofReal_zero.symm
  | finite s m e hm =>
      cases hx
      rfl

theorem HasValue.of_beq (h : HasValue x r) (heq : (x == y) = true) : HasValue y r :=
  Binary.HasValue.of_beq h heq

theorem hasValue_of_beq_zero (h : (x == 0) = true) : HasValue x 0 :=
  Binary.HasValue.of_beq_zero h

theorem magnitude_of_beq_zero (hx : Unsigned x) (h : (x == 0) = true) : magnitude x = 0 :=
  ((hasValue_of_beq_zero h).magnitude_eq hx).trans ENNReal.ofReal_zero

/-- Whatever its sign, the square of a zero has none. -/
theorem HasValue.mul_self_of_zero (h : HasValue x 0) : x * x = 0 := by
  obtain ⟨s, hs⟩ := Binary.HasValue.exists_zero h rfl
  cases s with
  | negative =>
    obtain rfl : x = -0 := eq_of_unpack_eq hs
    rfl
  | positive =>
    obtain rfl : x = 0 := eq_of_unpack_eq hs
    rfl

theorem HasValue.abs_le (h : HasValue x r) : |r| ≤ 2 ^ 128 - 2 ^ 104 := by
  have hlargest : largest .binary32 = 2 ^ 128 - 2 ^ 104 := by
    norm_num [largest, value, endExponent, Format.mantissaBits]
  rw [← hlargest]
  exact Binary.HasValue.abs_le_largest h (stored x)

theorem HasValue.unsigned_of_pos (h : HasValue x r) (hpos : 0 < r) : Unsigned x :=
  (Single.unsigned_of_pos (h.lt_of_pos hpos)).1

/-- The smallest positive number with a mantissa of full length. -/
def smallestNormal : Float32 := Float32.ofBits 0x00800000

/-- The number is positive, and neither too large nor too small for the full precision. -/
def IsNormal (x : Float32) : Prop := x.isFinite = true ∧ smallestNormal ≤ x

instance (x : Float32) : Decidable (IsNormal x) := inferInstanceAs (Decidable (_ ∧ _))

theorem unsigned_smallestNormal : Unsigned smallestNormal := rfl

theorem magnitude_smallestNormal : magnitude smallestNormal = .ofReal (2 ^ (-126 : ℤ)) := by
  change ENNReal.ofReal ((8388608 : ℕ) * 2 ^ (-149 : ℤ)) = _
  norm_num

theorem IsNormal.unsigned (h : IsNormal x) : Unsigned x := by
  have hle : (UnpackedFloat.finite .positive 8388608 (-149) (by norm_num)).le
      x.toModel.unpack = true := of_decide_eq_true h.2
  unfold Unsigned
  generalize x.toModel.unpack = u at hle
  cases u with
  | notANumber => cases hle
  | zero => cases hle
  | infinity s => cases s <;> first | rfl | cases hle
  | finite s => cases s <;> first | rfl | cases hle

theorem IsNormal.magnitude_ne_top (h : IsNormal x) : magnitude x ≠ ⊤ := Single.magnitude_ne_top h.1

theorem IsNormal.le_magnitude (h : IsNormal x) : .ofReal (2 ^ (-126 : ℤ)) ≤ magnitude x := by
  rw [← magnitude_smallestNormal]
  exact (le_iff unsigned_smallestNormal h.unsigned).mp h.2

theorem IsNormal.magnitude_ne_zero (h : IsNormal x) : magnitude x ≠ 0 :=
  (lt_of_lt_of_le (ENNReal.ofReal_pos.mpr (by positivity)) h.le_magnitude).ne'

theorem IsNormal.pos (h : IsNormal x) : 0 < x :=
  (lt_iff (x := 0) rfl h.unsigned).mpr (pos_iff_ne_zero.mpr h.magnitude_ne_zero)

theorem IsNormal.sub_zero_eq (h : IsNormal x) : x - 0 = x := by
  obtain ⟨r, hr⟩ := exists_hasValue h.1
  have hexact : nearestReal .binary32 (r - 0) = r := by
    rw [sub_zero]
    exact Binary.HasValue.nearestReal_eq hr (stored x).canonical
  have hdifference := Binary.HasValue.sub (F := .binary32) (by decide) hr hasValue_zero (stored x)
    (stored 0) (by
      rw [hexact]
      exact (Binary.HasValue.abs_le_largest hr (stored x)).trans_lt largest_lt)
  rw [hexact] at hdifference
  exact HasValue.unique hdifference hr (hr.pos h.pos).ne'

/-! ## Whole numbers -/

theorem abs_nearestReal_natCast_lt {n : ℕ} (hn : n < 2 ^ 24) :
    |nearestReal .binary32 n| < 2 ^ endExponent .binary32 := by
  rw [nearestReal_natCast hn, abs_of_nonneg n.cast_nonneg]
  calc (n : ℝ) < 2 ^ (24 : ℤ) := by exact_mod_cast hn
    _ < 2 ^ endExponent .binary32 := zpow_lt_zpow_right₀ (by norm_num) (by decide)

theorem hasValue_two : HasValue 2 2 := by
  have hvalue : signed .positive ((2 ^ 23 : ℕ) * 2 ^ (-22 : ℤ)) = 2 := by
    norm_num [signed]
  rw [← hvalue]
  exact .finite .positive (2 ^ 23) (-22) (by norm_num)

theorem hasValue_toFloat32 {n : UInt32} (hn : n.toNat < 2 ^ 24) :
    HasValue n.toFloat32 n.toNat := by
  have h := hasValue_normalize (F := .binary32) (by decide) (m := n.toNat) (e := 0)
    (x := n.toNat) (by simp) (abs_nearestReal_natCast_lt hn)
  rw [nearestReal_natCast hn] at h
  exact h

theorem hasValue_two_mul_toFloat32 {n : UInt32} (hn : n.toNat < 2 ^ 23) :
    HasValue (2 * n.toFloat32) (2 * n.toNat : ℕ) := by
  have hsmall : 2 * n.toNat < 2 ^ 24 := by omega
  have hcast : (2 * n.toNat : ℝ) = (2 * n.toNat : ℕ) := by push_cast; rfl
  have h := Binary.HasValue.mul (F := .binary32) (by decide) hasValue_two
    (hasValue_toFloat32 (by omega)) (stored 2).canonical (stored n.toFloat32).canonical
    (by rw [hcast]; exact abs_nearestReal_natCast_lt hsmall)
  rw [hcast, nearestReal_natCast hsmall] at h
  exact h

/-! ## Changes of the precision -/

/-- Up to half a unit beyond the largest finite number nothing overflows. -/
theorem isFinite_narrow {x : Float} (h : Double.HasValue x r) (hr : |r| < 2 ^ 128 - 2 ^ 103) :
    (narrow x).isFinite = true := by
  have herror := abs_nearestReal_sub_le (F := .binary32) (x := r) (k := 104) (by decide)
    (hr.trans (by norm_num [Format.mantissaBits]))
  have hchange := abs_sub_abs_le_abs_sub (nearestReal .binary32 r) r
  have hlt : |nearestReal .binary32 r| < 2 ^ endExponent .binary32 :=
    calc |nearestReal .binary32 r| ≤ |nearestReal .binary32 r - r| + |r| :=
          sub_le_iff_le_add.mp hchange
      _ < 2 ^ (104 : ℤ) / 2 + (2 ^ 128 - 2 ^ 103) := add_lt_add_of_le_of_lt herror hr
      _ = 2 ^ endExponent .binary32 := by norm_num [endExponent]
  exact (Binary.HasValue.convert (F := .binary32) (by decide) h hlt).isFinite

theorem HasValue.widen (h : HasValue x r) : Double.HasValue (widen x) r :=
  Binary.HasValue.convert_of_le (F := .binary64) (by decide) h (stored x) (by decide)
    (by decide) (by decide)

/-- A square needs twice the digits of single precision, and double precision has them. -/
theorem HasValue.representable_mul_self (h : HasValue x r) : Double.Representable (r * r) where
  nearest := by
    have hcanonical := (stored x).canonical
    unfold HasValue at h
    generalize x.toModel.unpack = u at h hcanonical
    cases h with
    | zero => rw [mul_zero, nearestReal_of_nonneg le_rfl, nearest_zero]
    | finite s m e hm =>
        have hsquare : signed s (m * 2 ^ e) * signed s (m * 2 ^ e) =
            ((m * m : ℕ) : ℝ) * 2 ^ (e + e) := by
          rw [← abs_mul_abs_self, abs_signed (finite_value_pos hm e).le,
            zpow_add₀ two_ne_zero]
          push_cast
          ring
        have hmantissa : m * m < 2 ^ 24 * 2 ^ 24 :=
          Nat.mul_self_lt_mul_self hcanonical.mantissa_lt
        have hexponent : -149 ≤ e := hcanonical.minExponent_le
        have hleast : Format.minExponent .binary64 ≤ e + e := by
          change -1074 ≤ e + e
          omega
        rw [hsquare, nearestReal_of_nonneg (by positivity)]
        exact nearest_of_lt hleast (hmantissa.trans (by decide))
  abs_lt := by
    have hmost := h.abs_le
    rw [abs_mul_self, ← abs_mul_abs_self]
    calc |r| * |r| ≤ 2 ^ 128 * 2 ^ 128 := by
          gcongr <;> linarith
      _ = 2 ^ (256 : ℤ) := by norm_num
      _ < 2 ^ endExponent .binary64 := zpow_lt_zpow_right₀ (by norm_num) (by decide)

/-- The square of a single precision number is exact in double precision. -/
theorem HasValue.mul_self_widen (h : HasValue x r) :
    Double.HasValue (Binary.widen x * Binary.widen x) (r * r) :=
  h.widen.mul_exact h.widen h.representable_mul_self

theorem unpack_widen (x : Float32) :
    (widen x).toModel.unpack =
      unpack .binary64 (pack .binary64 (convert .binary64 x.toModel.unpack)) := rfl

theorem unpack_narrow (x : Float) :
    (narrow x).toModel.unpack =
      unpack .binary32 (pack .binary32 (convert .binary32 x.toModel.unpack)) := rfl

/-- A value that single precision has is not changed by narrowing. -/
theorem HasValue.narrow {z : Float} (hx : HasValue x r) (hz : Double.HasValue z r) :
    HasValue (narrow z) r := by
  have hexact := Binary.HasValue.nearestReal_eq hx (stored x).canonical
  have hlt : |nearestReal .binary32 r| < 2 ^ endExponent .binary32 := by
    rw [hexact]
    exact (Binary.HasValue.abs_le_largest hx (stored x)).trans_lt largest_lt
  have hnarrow := Binary.HasValue.convert (F := .binary32) (by decide) hz hlt
  rwa [hexact] at hnarrow

theorem narrow_widen (h : x.isFinite = true) : Binary.narrow (Binary.widen x) = x := by
  obtain ⟨r, hr⟩ := exists_hasValue h
  by_cases hzero : r = 0
  · -- The sign of a zero is not part of its value, but both conversions keep it.
    obtain ⟨s, hs⟩ := Binary.HasValue.exists_zero hr hzero
    have hwide : (Binary.widen x).toModel.unpack = .zero s := by
      rw [unpack_widen, hs]
      exact unpack_pack_zero s
    apply eq_of_unpack_eq
    rw [unpack_narrow, hwide, hs]
    exact unpack_pack_zero s
  · exact (hr.narrow hr.widen).unique hr hzero

theorem isNaN_of_isFinite (h : x.isFinite = true) : x.isNaN = false := by
  change x.toModel.unpack.isFinite = true at h
  change x.toModel.unpack.isNaN = false
  cases hu : x.toModel.unpack with
  | notANumber => simp [hu, UnpackedFloat.isFinite] at h
  | _ => rfl

end Single

end

end PulseTrain
