import PulseTrain.Proofs.Binary.Signed

/-!
# Double precision

The rules for signed results, stated for the numbers that the programs compute with.
Far from the largest number an operation errs by half a unit in the last place and
not more, and whole numbers of moderate size are exact.
-/

namespace PulseTrain

open Float.Model Float.Model.UnpackedFloat Binary

noncomputable section

namespace Double

/-- The number is finite and has the given value. -/
def HasValue (x : Float) (r : ℝ) : Prop := Binary.HasValue x.toModel.unpack r

theorem stored (x : Float) : Stored .binary64 x.toModel.unpack :=
  stored_unpack (by decide) _

variable {x y : Float} {r s : ℝ} {k : ℕ}

theorem abs_nearestReal_sub_le (h : |r| < 2 ^ 54 * 2 ^ k) :
    |nearestReal .binary64 r - r| ≤ 2 ^ k := by
  have hplaces : (2 : ℝ) ^ (((k + 1 : ℕ) : ℤ) + (Format.mantissaBits .binary64 : ℤ)) =
      2 ^ 54 * 2 ^ k := by
    rw [← Nat.cast_add, zpow_natCast, ← pow_add]
    congr 1
    change k + 1 + 53 = 54 + k
    omega
  have hbound := Binary.abs_nearestReal_sub_le (F := .binary64) (x := r) (k := (k + 1 : ℕ))
    ((minExponent_nonpos .binary64).trans (by omega)) (by rwa [hplaces])
  rwa [zpow_natCast, pow_succ, mul_div_cancel_right₀ _ two_ne_zero] at hbound

theorem abs_nearestReal_lt (h : |r| < 2 ^ 54 * 2 ^ k) (hk : k ≤ 969) :
    |nearestReal .binary64 r| < 2 ^ endExponent .binary64 := by
  have hend : (2 : ℝ) ^ endExponent .binary64 = 2 * (2 ^ 54 * 2 ^ 969) := by
    rw [← pow_add, ← pow_succ']
    exact zpow_natCast 2 1024
  have hpow : (2 : ℝ) ^ k ≤ 2 ^ 969 := pow_le_pow_right₀ (by norm_num) hk
  have hpos : (0 : ℝ) < 2 ^ 969 := by positivity
  have herror := abs_nearestReal_sub_le h
  have hchange := abs_sub_abs_le_abs_sub (nearestReal .binary64 r) r
  rw [hend]
  generalize (2 : ℝ) ^ 969 = top at hpow hpos ⊢
  linarith

/-- A result that is rounded once, well within the range. -/
theorem exists_near (h : |r| < 2 ^ 54 * 2 ^ k) (hk : k ≤ 969)
    (hx : |nearestReal .binary64 r| < 2 ^ endExponent .binary64 →
      HasValue x (nearestReal .binary64 r)) :
    ∃ t, HasValue x t ∧ |t - r| ≤ 2 ^ k :=
  ⟨nearestReal .binary64 r, hx (abs_nearestReal_lt h hk), abs_nearestReal_sub_le h⟩

theorem hasValue_zero : HasValue 0 0 := .zero .positive

namespace HasValue

theorem add (hx : HasValue x r) (hy : HasValue y s) (h : |r + s| < 2 ^ 54 * 2 ^ k)
    (hk : k ≤ 969) : ∃ t, HasValue (x + y) t ∧ |t - (r + s)| ≤ 2 ^ k :=
  exists_near h hk (Binary.HasValue.add (by decide) hx hy (stored x) (stored y))

theorem sub (hx : HasValue x r) (hy : HasValue y s) (h : |r - s| < 2 ^ 54 * 2 ^ k)
    (hk : k ≤ 969) : ∃ t, HasValue (x - y) t ∧ |t - (r - s)| ≤ 2 ^ k :=
  exists_near h hk (Binary.HasValue.sub (by decide) hx hy (stored x) (stored y))

theorem mul (hx : HasValue x r) (hy : HasValue y s) (h : |r * s| < 2 ^ 54 * 2 ^ k)
    (hk : k ≤ 969) : ∃ t, HasValue (x * y) t ∧ |t - r * s| ≤ 2 ^ k :=
  exists_near h hk
    (Binary.HasValue.mul (by decide) hx hy (stored x).canonical (stored y).canonical)

theorem div (hx : HasValue x r) (hy : HasValue y s) (hs : s ≠ 0)
    (h : |r / s| < 2 ^ 54 * 2 ^ k) (hk : k ≤ 969) :
    ∃ t, HasValue (x / y) t ∧ |t - r / s| ≤ 2 ^ k :=
  exists_near h hk (Binary.HasValue.div (by decide) hx hy hs)

theorem sqrt (hx : HasValue x r) (hr : 0 < r) (h : √r < 2 ^ 54 * 2 ^ k) (hk : k ≤ 969) :
    ∃ t, HasValue x.sqrt t ∧ |t - √r| ≤ 2 ^ k :=
  exists_near (by rwa [abs_of_nonneg (Real.sqrt_nonneg r)]) hk
    (Binary.HasValue.sqrt (by decide) hx hr)

theorem lt_iff (hx : HasValue x r) (hy : HasValue y s) : x < y ↔ r < s := by
  rw [← Binary.HasValue.lt_iff hx hy (stored x).canonical (stored y).canonical]
  exact decide_eq_true_iff

theorem pos (hx : HasValue x r) (hpos : 0 < x) : 0 < r :=
  (hasValue_zero.lt_iff hx).mp hpos

theorem lt_of_pos (hx : HasValue x r) (hr : 0 < r) : 0 < x :=
  (hasValue_zero.lt_iff hx).mpr hr

theorem nonneg (hx : HasValue x r) (hsign : Unsigned x.toModel.unpack) : 0 ≤ r :=
  Binary.HasValue.nonneg hx hsign

end HasValue

theorem abs_nearestReal_natCast_lt {n : ℕ} (hn : n < 2 ^ 53) :
    |nearestReal .binary64 n| < 2 ^ endExponent .binary64 := by
  apply abs_nearestReal_lt (k := 0) _ (by norm_num)
  rw [abs_of_nonneg n.cast_nonneg]
  have : (n : ℝ) < 2 ^ 53 := by exact_mod_cast hn
  linarith

/-! ## Exact results -/

/-- The number is one that double precision holds. -/
structure Representable (r : ℝ) : Prop where
  nearest : nearestReal .binary64 r = r
  abs_lt : |r| < 2 ^ endExponent .binary64

theorem Representable.of_rounded (h : Representable r)
    (hx : |nearestReal .binary64 r| < 2 ^ endExponent .binary64 →
      HasValue x (nearestReal .binary64 r)) : HasValue x r := by
  rw [h.nearest] at hx
  exact hx h.abs_lt

theorem representable_natCast {n : ℕ} (hn : n < 2 ^ 53) : Representable n where
  nearest := nearestReal_natCast hn
  abs_lt := by
    have hlt := abs_nearestReal_natCast_lt hn
    rwa [nearestReal_natCast hn] at hlt

namespace HasValue

theorem representable (hx : HasValue x r) : Representable r where
  nearest := Binary.HasValue.nearestReal_eq hx (stored x).canonical
  abs_lt := (Binary.HasValue.abs_le_largest hx (stored x)).trans_lt largest_lt

theorem add_exact (hx : HasValue x r) (hy : HasValue y s) (h : Representable (r + s)) :
    HasValue (x + y) (r + s) :=
  h.of_rounded (Binary.HasValue.add (by decide) hx hy (stored x) (stored y))

theorem sub_exact (hx : HasValue x r) (hy : HasValue y s) (h : Representable (r - s)) :
    HasValue (x - y) (r - s) :=
  h.of_rounded (Binary.HasValue.sub (by decide) hx hy (stored x) (stored y))

theorem mul_exact (hx : HasValue x r) (hy : HasValue y s) (h : Representable (r * s)) :
    HasValue (x * y) (r * s) :=
  h.of_rounded
    (Binary.HasValue.mul (by decide) hx hy (stored x).canonical (stored y).canonical)

theorem div_exact (hx : HasValue x r) (hy : HasValue y s) (hs : s ≠ 0)
    (h : Representable (r / s)) : HasValue (x / y) (r / s) :=
  h.of_rounded (Binary.HasValue.div (by decide) hx hy hs)

theorem sqrt_exact (hx : HasValue x r) (hr : 0 < r) (h : Representable √r) :
    HasValue x.sqrt √r :=
  h.of_rounded (Binary.HasValue.sqrt (by decide) hx hr)

end HasValue

theorem hasValue_two : HasValue 2 2 := by
  have hvalue : signed .positive ((2 ^ 52 : ℕ) * 2 ^ (-51 : ℤ)) = 2 := by
    norm_num [signed]
  rw [← hvalue]
  exact .finite .positive (2 ^ 52) (-51) (by norm_num)

theorem hasValue_toFloat (n : UInt32) : HasValue n.toFloat n.toNat := by
  have hsmall : n.toNat < 2 ^ 53 := n.toNat_lt.trans (by norm_num)
  have h := hasValue_normalize (F := .binary64) (by decide) (m := n.toNat) (e := 0)
    (x := n.toNat) (by simp) (abs_nearestReal_natCast_lt hsmall)
  rw [nearestReal_natCast hsmall] at h
  exact h

theorem hasValue_two_mul_toFloat (n : UInt32) : HasValue (2 * n.toFloat) (2 * n.toNat) := by
  apply hasValue_two.mul_exact (hasValue_toFloat n)
  have hsmall := representable_natCast (n := 2 * n.toNat) (by have := n.toNat_lt; omega)
  rwa [Nat.cast_mul, Nat.cast_ofNat] at hsmall

end Double

end

end PulseTrain
