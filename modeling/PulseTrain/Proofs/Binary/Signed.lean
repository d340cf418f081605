import PulseTrain.Binary.Rounding
import PulseTrain.Proofs.Binary.Magnitude

/-!
# Signed results

Differences and whatever follows from them may be negative.  A finite number has a
real value, and while nothing overflows an operation gives the number of the format
that is nearest to the exact result: the magnitude is rounded and the sign is kept.
-/

namespace PulseTrain.Binary

open Float.Model Float.Model.UnpackedFloat

noncomputable section

def signed : Sign → ℝ → ℝ
  | .negative, x => -x
  | .positive, x => x

/-- The number is finite and its value is the given one. -/
inductive HasValue : UnpackedFloat → ℝ → Prop where
  | zero (s : Sign) : HasValue (.zero s) 0
  | finite (s : Sign) (m : ℕ) (e : ℤ) (hm : 0 < m) :
      HasValue (.finite s m e hm) (signed s (m * 2 ^ e))

/-- The number of the format nearest to `x`, had it no largest one. -/
def nearestReal (F : Format) (x : ℝ) : ℝ := if 0 ≤ x then nearest F x else -nearest F (-x)

variable {F : Format} {s : Sign} {x y : ℝ} {a b : UnpackedFloat}

@[simp] theorem abs_signed (hx : 0 ≤ x) : |signed s x| = x := by
  cases s <;> simp [signed, abs_of_nonneg hx]

theorem signed_neg (s : Sign) (x : ℝ) : signed (-s) x = -signed s x := by
  cases s with
  | negative => exact (neg_neg x).symm
  | positive => rfl

theorem signed_mul : ∀ (s₁ s₂ : Sign) (x y : ℝ),
    signed (s₁ * s₂) (x * y) = signed s₁ x * signed s₂ y
  | .negative, .negative, x, y => (neg_mul_neg x y).symm
  | .negative, .positive, x, y => (neg_mul x y).symm
  | .positive, .negative, x, y => (mul_neg x y).symm
  | .positive, .positive, _, _ => rfl

theorem signed_div : ∀ (s₁ s₂ : Sign) (x y : ℝ),
    signed (s₁ / s₂) (x / y) = signed s₁ x / signed s₂ y
  | .negative, .negative, x, y => (neg_div_neg_eq x y).symm
  | .negative, .positive, x, y => (neg_div y x).symm
  | .positive, .negative, x, _ => (div_neg x).symm
  | .positive, .positive, _, _ => rfl

theorem nearestReal_of_nonneg (hx : 0 ≤ x) : nearestReal F x = nearest F x := if_pos hx

theorem nearestReal_signed (hx : 0 ≤ x) : nearestReal F (signed s x) = signed s (nearest F x) := by
  cases s with
  | positive => exact nearestReal_of_nonneg hx
  | negative =>
      rcases hx.eq_or_lt with rfl | hpos
      · simp [signed, nearestReal]
      · simp [signed, nearestReal, hpos]

theorem abs_nearestReal_sub_le {k : ℤ} (hk : F.minExponent ≤ k)
    (h : |x| < 2 ^ (k + F.mantissaBits)) : |nearestReal F x - x| ≤ 2 ^ k / 2 := by
  unfold nearestReal
  split_ifs with hx
  · rw [abs_of_nonneg hx] at h
    exact abs_nearest_sub_le hx hk h
  · rw [abs_of_neg (not_le.mp hx)] at h
    have hbound := abs_nearest_sub_le (by linarith) hk h
    rwa [← abs_neg, show -(-nearest F (-x) - x) = nearest F (-x) - -x by ring]

theorem nearestReal_natCast {n : ℕ} (hn : n < 2 ^ F.mantissaBits) : nearestReal F n = n := by
  have hwhole := nearest_of_lt (minExponent_nonpos F) hn
  rw [zpow_zero, mul_one] at hwhole
  rw [nearestReal_of_nonneg n.cast_nonneg, hwhole]

namespace HasValue

theorem isFinite (h : HasValue a x) : a.isFinite = true := by
  cases h <;> rfl

theorem exists_of_isFinite (h : a.isFinite = true) : ∃ x, HasValue a x := by
  cases a with
  | zero s => exact ⟨0, .zero s⟩
  | finite s m e hm => exact ⟨_, .finite s m e hm⟩
  | _ => simp [UnpackedFloat.isFinite] at h

theorem exists_zero (h : HasValue a x) (hx : x = 0) : ∃ s, a = .zero s := by
  cases h with
  | zero s => exact ⟨s, rfl⟩
  | finite s m e hm =>
      have hpos := finite_value_pos hm e
      rw [← abs_signed (s := s) hpos.le, hx, abs_zero] at hpos
      exact absurd hpos (lt_irrefl 0)

theorem nonneg (h : HasValue a x) (hsign : Unsigned a) : 0 ≤ x := by
  cases h with
  | zero => exact le_rfl
  | finite s m e hm =>
      cases hsign
      exact (finite_value_pos hm e).le

theorem unpack_pack (h : HasValue a x) (hstored : Stored F a) : unpack F (pack F a) = a := by
  cases h with
  | zero s => exact unpack_pack_zero s
  | finite s m e hm => exact unpack_pack_of_le hstored.canonical hstored.inRange

theorem nearestReal_eq (h : HasValue a x) (hcanonical : Canonical F a) :
    nearestReal F x = x := by
  cases h with
  | zero => rw [nearestReal_of_nonneg le_rfl, nearest_zero]
  | finite s m e hm =>
      rw [nearestReal_signed (finite_value_pos hm e).le,
        nearest_of_lt hcanonical.minExponent_le hcanonical.mantissa_lt]

theorem abs_le_largest (h : HasValue a x) (hstored : Stored F a) : |x| ≤ largest F := by
  cases h with
  | zero =>
      rw [abs_zero, largest, value]
      positivity
  | finite s m e hm =>
      rw [abs_signed (finite_value_pos hm e).le]
      exact hstored.value_le_largest

/-- Numbers that compare as equal have the same value. -/
theorem of_beq (h : HasValue a x) (heq : a.beq b = true) : HasValue b x := by
  cases h with
  | zero s =>
      cases b with
      | zero s' => exact .zero s'
      | notANumber => cases heq
      | infinity s' => cases s' <;> cases heq
      | finite s' => cases s' <;> cases heq
  | finite s m e hm =>
      rw [← eq_of_beq_of_ne_zero heq nofun]
      exact .finite s m e hm

theorem of_beq_zero (h : a.beq (.zero s) = true) : HasValue a 0 := by
  cases a with
  | zero s' => exact .zero s'
  | notANumber => cases h
  | infinity s' => cases s' <;> cases h
  | finite s' => cases s' <;> cases h

end HasValue

theorem compares_neg {o : Ordering} (h : o.Compares x y) :
    o.swap.Compares (-x) (-y) := by
  cases o with
  | lt => exact neg_lt_neg h
  | eq => exact congrArg _ h
  | gt => exact neg_lt_neg h

/-- Finite numbers are ordered by their values. -/
theorem HasValue.compare_eq (ha : HasValue a x) (hb : HasValue b y)
    (hcanonical₁ : Canonical F a) (hcanonical₂ : Canonical F b) :
    a.compare b = some (compare x y) := by
  have hresult {o : Ordering} (h : o.Compares x y) : some o = some (compare x y) :=
    congrArg some ((compare_iff _ _).mpr h).symm
  cases ha with
  | zero =>
    cases hb with
    | zero => exact hresult (o := .eq) rfl
    | finite s m e hm =>
      have hpos := finite_value_pos hm e
      cases s with
      | negative => exact hresult (o := .gt) (neg_lt_zero.mpr hpos)
      | positive => exact hresult (o := .lt) hpos
  | finite s₁ m₁ e₁ hm₁ =>
    have hpos₁ := finite_value_pos hm₁ e₁
    cases hb with
    | zero =>
      cases s₁ with
      | negative => exact hresult (o := .lt) (neg_lt_zero.mpr hpos₁)
      | positive => exact hresult (o := .gt) hpos₁
    | finite s₂ m₂ e₂ hm₂ =>
      have hpos₂ := finite_value_pos hm₂ e₂
      have hcompares := compares_finite hcanonical₁ hcanonical₂
      cases s₁ with
      | negative =>
        cases s₂ with
        | negative => exact hresult (compares_neg hcompares)
        | positive => exact hresult (o := .lt) ((neg_lt_zero.mpr hpos₁).trans hpos₂)
      | positive =>
        cases s₂ with
        | negative => exact hresult (o := .gt) ((neg_lt_zero.mpr hpos₂).trans hpos₁)
        | positive => exact hresult hcompares

theorem HasValue.lt_iff (ha : HasValue a x) (hb : HasValue b y)
    (hcanonical₁ : Canonical F a) (hcanonical₂ : Canonical F b) : a.lt b = true ↔ x < y := by
  rw [UnpackedFloat.lt, ha.compare_eq hb hcanonical₁ hcanonical₂, beq_iff_eq, Option.some_inj,
    compare_lt_iff_lt]

theorem HasValue.beq_iff (ha : HasValue a x) (hb : HasValue b y)
    (hcanonical₁ : Canonical F a) (hcanonical₂ : Canonical F b) : a.beq b = true ↔ x = y := by
  rw [UnpackedFloat.beq, ha.compare_eq hb hcanonical₁ hcanonical₂, beq_iff_eq, Option.some_inj,
    compare_eq_iff_eq]

/-- Two zeros may differ in their sign. -/
theorem HasValue.unique (ha : HasValue a x) (hb : HasValue b x) (hcanonical₁ : Canonical F a)
    (hcanonical₂ : Canonical F b) (hx : x ≠ 0) : a = b := by
  cases ha with
  | zero => exact absurd rfl hx
  | finite s₁ m₁ e₁ hm₁ =>
      have hpos₁ := finite_value_pos hm₁ e₁
      generalize hvalue : signed s₁ (m₁ * 2 ^ e₁) = x at hb hx
      cases hb with
      | zero => exact absurd rfl hx
      | finite s₂ m₂ e₂ hm₂ =>
          have hpos₂ := finite_value_pos hm₂ e₂
          have hsign : s₁ = s₂ := by
            cases s₁ <;> cases s₂ <;> simp only [signed] at hvalue <;> first | rfl | linarith
          subst hsign
          have hmagnitude : (m₁ * 2 ^ e₁ : ℝ) = m₂ * 2 ^ e₂ := by
            rw [← abs_signed (s := s₁) hpos₁.le, hvalue, abs_signed hpos₂.le]
          have hexponent : e₁ = e₂ := by
            rw [← hcanonical₁.lastPlace_eq, ← hcanonical₂.lastPlace_eq, hmagnitude]
          subst hexponent
          have hmantissa : m₁ = m₂ := by
            exact_mod_cast mul_right_cancel₀ (by positivity : (2 : ℝ) ^ e₁ ≠ 0) hmagnitude
          subst hmantissa
          rfl

/-- A square has no sign. -/
theorem HasValue.gives_mul_self (hF : 2 ≤ F.exponentBits) (ha : HasValue a x)
    (hcanonical : Canonical F a) :
    Gives F (.ofReal (x * x)) (unpack F (pack F (UnpackedFloat.mul F a a))) := by
  cases ha with
  | zero s =>
    have hsquare : UnpackedFloat.mul F (.zero s) (.zero s) = .zero .positive := by cases s <;> rfl
    rw [hsquare, mul_zero, ENNReal.ofReal_zero]
    exact gives_zero
  | finite s m e hm =>
    have hsign : s * s = .positive := by cases s <;> rfl
    have hvalue : signed s (m * 2 ^ e) * signed s (m * 2 ^ e) = m * 2 ^ e * (m * 2 ^ e) := by
      rw [← signed_mul, hsign, signed]
    have hrounds := rounds_mul hcanonical hcanonical
    rw [hsign] at hrounds
    rw [hvalue]
    exact hrounds.gives hF (by positivity)

theorem Rounds.hasValue {u : UnpackedFloat} (hF : 2 ≤ F.exponentBits) (hx : 0 ≤ x)
    (h : Rounds F s x u) (hy : signed s x = y) (hlt : |nearestReal F y| < 2 ^ endExponent F) :
    HasValue (unpack F (pack F u)) (nearestReal F y) := by
  subst hy
  rw [nearestReal_signed hx] at hlt ⊢
  rw [abs_signed (nearest_nonneg x)] at hlt
  cases h with
  | zero hvalue =>
      rw [unpack_pack_zero, hvalue]
      have hsigned : signed s 0 = 0 := by cases s <;> simp [signed]
      rw [hsigned]
      exact .zero s
  | @finite m e hm hcanonical hvalue =>
      have hfits : e + F.mantissaBits ≤ endExponent F := by
        by_contra hover
        have hlarge := hcanonical.zpow_endExponent_le hF (not_le.mp hover)
        rw [← hvalue] at hlarge
        exact hlt.not_ge hlarge
      rw [unpack_pack_of_le hcanonical hfits, hvalue]
      exact .finite s m e hm

theorem hasValue_normalize (hF : 2 ≤ F.exponentBits) {m : ℤ} {e : ℤ} (hx : m * 2 ^ e = x)
    (hlt : |nearestReal F x| < 2 ^ endExponent F) :
    HasValue (unpack F (pack F (UnpackedFloat.normalize F m e .positive))) (nearestReal F x) := by
  unfold UnpackedFloat.normalize
  rcases lt_trichotomy m 0 with hneg | rfl | hpos
  · rw [compare_lt_iff_lt.mpr hneg]
    have hcast : (((-m).toNat : ℕ) : ℝ) = -m := by
      have : (((-m).toNat : ℕ) : ℤ) = -m := Int.toNat_of_nonneg (by omega)
      exact_mod_cast this
    have hrounds := rounds_round (F := F) .negative (m := (-m).toNat) (by omega) e
    refine hrounds.hasValue hF (by positivity) ?_ hlt
    rw [← hx, hcast, signed]
    ring
  · rw [compare_eq_iff_eq.mpr rfl]
    have hzero : x = 0 := by
      rw [← hx]
      simp
    rw [hzero, nearestReal_of_nonneg le_rfl, nearest_zero, unpack_pack_zero]
    exact .zero _
  · rw [compare_gt_iff_gt.mpr hpos]
    have hcast : ((m.toNat : ℕ) : ℝ) = m := by
      have : ((m.toNat : ℕ) : ℤ) = m := Int.toNat_of_nonneg (by omega)
      exact_mod_cast this
    have hrounds := rounds_round (F := F) .positive (m := m.toNat) (by omega) e
    refine hrounds.hasValue hF (by positivity) ?_ hlt
    rw [← hx, hcast, signed]

theorem apply_shiftLeft_mul (s : Sign) (m : ℕ) {e k : ℤ} (h : k ≤ e) :
    ((s.apply (m <<< (e - k).toNat : ℕ) : ℤ) : ℝ) * 2 ^ k = signed s (m * 2 ^ e) := by
  have hvalue : ((m <<< (e - k).toNat : ℕ) : ℝ) * 2 ^ k = m * 2 ^ e :=
    shiftLeft_mul_zpow m (by omega)
  rw [← hvalue]
  generalize m <<< (e - k).toNat = n
  cases s <;> simp [Sign.apply, signed]

namespace HasValue

theorem add (hF : 2 ≤ F.exponentBits) (ha : HasValue a x) (hb : HasValue b y)
    (hstored₁ : Stored F a) (hstored₂ : Stored F b)
    (hlt : |nearestReal F (x + y)| < 2 ^ endExponent F) :
    HasValue (unpack F (pack F (UnpackedFloat.add F a b))) (nearestReal F (x + y)) := by
  cases ha with
  | zero s₁ =>
      rw [zero_add, hb.nearestReal_eq hstored₂.canonical]
      cases hb with
      | zero s₂ => cases s₁ <;> cases s₂ <;> simp [UnpackedFloat.add, HasValue.zero]
      | finite s m e hm =>
          have hb := HasValue.finite s m e hm
          exact (hb.unpack_pack hstored₂).symm ▸ hb
  | finite s₁ m₁ e₁ hm₁ =>
      have ha := HasValue.finite s₁ m₁ e₁ hm₁
      cases hb with
      | zero =>
          rw [add_zero, ha.nearestReal_eq hstored₁.canonical]
          exact (ha.unpack_pack hstored₁).symm ▸ ha
      | finite s₂ m₂ e₂ hm₂ =>
          refine hasValue_normalize hF ?_ hlt
          rw [Int.cast_add, add_mul, apply_shiftLeft_mul s₁ m₁ (min_le_left e₁ e₂),
            apply_shiftLeft_mul s₂ m₂ (min_le_right e₁ e₂)]

theorem neg (ha : HasValue a x) : HasValue a.neg (-x) := by
  cases ha with
  | zero s =>
      rw [neg_zero]
      exact .zero (-s)
  | finite s m e hm =>
      rw [← signed_neg]
      exact .finite (-s) m e hm

theorem sub (hF : 2 ≤ F.exponentBits) (ha : HasValue a x) (hb : HasValue b y)
    (hstored₁ : Stored F a) (hstored₂ : Stored F b)
    (hlt : |nearestReal F (x - y)| < 2 ^ endExponent F) :
    HasValue (unpack F (pack F (UnpackedFloat.sub F a b))) (nearestReal F (x - y)) := by
  have hsame : UnpackedFloat.sub F a b = UnpackedFloat.add F a b.neg := by
    cases ha with
    | zero => cases hb <;> rfl
    | finite s₁ =>
        cases hb with
        | zero => rfl
        | finite s₂ =>
            cases s₂ <;>
              simp [UnpackedFloat.sub, UnpackedFloat.add, UnpackedFloat.neg, Sign.apply,
                Int.sub_eq_add_neg]
  have hstored : Stored F b.neg := by
    cases hb with
    | zero => exact ⟨trivial, trivial⟩
    | finite => exact ⟨hstored₂.canonical, hstored₂.inRange⟩
  rw [sub_eq_add_neg] at hlt ⊢
  rw [hsame]
  exact ha.add hF hb.neg hstored₁ hstored hlt

theorem mul (hF : 2 ≤ F.exponentBits) (ha : HasValue a x) (hb : HasValue b y)
    (hcanonical₁ : Canonical F a) (hcanonical₂ : Canonical F b)
    (hlt : |nearestReal F (x * y)| < 2 ^ endExponent F) :
    HasValue (unpack F (pack F (UnpackedFloat.mul F a b))) (nearestReal F (x * y)) := by
  have hzero : nearestReal F 0 = 0 := by rw [nearestReal_of_nonneg le_rfl, nearest_zero]
  cases ha with
  | zero s₁ =>
      rw [zero_mul, hzero]
      cases hb with
      | zero s₂ => simp [UnpackedFloat.mul, HasValue.zero]
      | finite => simp [UnpackedFloat.mul, HasValue.zero]
  | finite s₁ m₁ e₁ hm₁ =>
      cases hb with
      | zero s₂ =>
          rw [mul_zero, hzero]
          simp [UnpackedFloat.mul, HasValue.zero]
      | finite s₂ m₂ e₂ hm₂ =>
          have hpos₁ := finite_value_pos hm₁ e₁
          have hpos₂ := finite_value_pos hm₂ e₂
          exact (rounds_mul hcanonical₁ hcanonical₂).hasValue hF (by positivity)
            (signed_mul s₁ s₂ _ _) hlt

theorem div (hF : 2 ≤ F.exponentBits) (ha : HasValue a x) (hb : HasValue b y) (hy : y ≠ 0)
    (hlt : |nearestReal F (x / y)| < 2 ^ endExponent F) :
    HasValue (unpack F (pack F (UnpackedFloat.div F a b))) (nearestReal F (x / y)) := by
  cases hb with
  | zero => exact absurd rfl hy
  | finite s₂ m₂ e₂ hm₂ =>
      cases ha with
      | zero s₁ =>
          rw [zero_div, nearestReal_of_nonneg le_rfl, nearest_zero]
          simp [UnpackedFloat.div, HasValue.zero]
      | finite s₁ m₁ e₁ hm₁ =>
          have hpos₁ := finite_value_pos hm₁ e₁
          have hpos₂ := finite_value_pos hm₂ e₂
          exact (rounds_div s₁ s₂ hm₁ e₁ hm₂ e₂).hasValue hF (by positivity)
            (signed_div s₁ s₂ _ _) hlt

theorem sqrt (hF : 2 ≤ F.exponentBits) (ha : HasValue a x) (hx : 0 < x)
    (hlt : |nearestReal F √x| < 2 ^ endExponent F) :
    HasValue (unpack F (pack F (UnpackedFloat.sqrt F a))) (nearestReal F √x) := by
  cases ha with
  | zero => exact absurd rfl hx.ne
  | finite s m e hm =>
      have hpos := finite_value_pos hm e
      cases s with
      | negative =>
          simp only [signed] at hx
          linarith
      | positive => exact rounds_sqrt.hasValue hF (Real.sqrt_nonneg _) rfl hlt

/-- A number of one format in another one. -/
theorem convert (hF : 2 ≤ F.exponentBits) (ha : HasValue a x)
    (hlt : |nearestReal F x| < 2 ^ endExponent F) :
    HasValue (unpack F (pack F (convert F a))) (nearestReal F x) := by
  cases ha with
  | zero s =>
      rw [nearestReal_of_nonneg le_rfl, nearest_zero]
      simp [Binary.convert, HasValue.zero]
  | finite s m e hm =>
      exact (rounds_round s hm e).hasValue hF (finite_value_pos hm e).le rfl hlt

/-- A larger format has the numbers of a smaller one. -/
theorem convert_of_le {G : Format} (hF : 2 ≤ F.exponentBits) (ha : HasValue a x)
    (hstored : Stored G a) (hbits : G.mantissaBits ≤ F.mantissaBits)
    (hmin : F.minExponent ≤ G.minExponent) (hend : endExponent G ≤ endExponent F) :
    HasValue (unpack F (pack F (Binary.convert F a))) x := by
  have hexact : nearestReal F x = x := by
    cases ha with
    | zero => rw [nearestReal_of_nonneg le_rfl, nearest_zero]
    | finite s m e hm =>
        have hmantissa : m < 2 ^ F.mantissaBits :=
          hstored.canonical.mantissa_lt.trans_le (Nat.pow_le_pow_right two_pos hbits)
        rw [nearestReal_signed (finite_value_pos hm e).le,
          nearest_of_lt (hmin.trans hstored.canonical.minExponent_le) hmantissa]
  have hlt : |x| < 2 ^ endExponent F :=
    calc |x| ≤ largest G := ha.abs_le_largest hstored
      _ < 2 ^ endExponent G := largest_lt
      _ ≤ 2 ^ endExponent F := zpow_le_zpow_right₀ (by norm_num) hend
  have hconverted := ha.convert hF (by rwa [hexact])
  rwa [hexact] at hconverted

end HasValue

end

end PulseTrain.Binary
