import PulseTrain.Proofs.Binary.Precision
import PulseTrain.Proofs.Division.Speeds
import PulseTrain.Proofs.Plan.Capacity
import PulseTrain.Proofs.Plan.Refusal

/-!
# Continuous speeds

The speed at the end of a division is the one at which the next division starts, and
the two ends of a movement keep the speeds that were asked for.  What has to be shown
is that no speed in between is lost to an overflow.  Without rounding, the square of
the speed would move evenly from the square of the entry speed to that of the exit
speed.  Every rounding errs by a bounded amount, and the errors of all divisions
together are far smaller than the half unit by which a speed may exceed the largest
single precision number.  Squares of speeds are below `2 ^ 256`, and a result below
`2 ^ 54 * 2 ^ k` is off by at most `2 ^ k`.
-/

namespace PulseTrain

open Double (HasValue)

noncomputable section

namespace Divisions

/-- A division hands its exit speed on. -/
theorem exitSpeed_next? {d rest : Divisions} {division : Division}
    (h : d.next? = some (division, rest)) :
    division.movement.exitSpeed = Binary.narrow rest.speed ∧
      (rest.remaining = 0 → rest.speed = d.finalSpeed) ∧
      rest.acceleration = d.acceleration ∧ rest.finalSpeed = d.finalSpeed := by
  unfold next? at h
  split at h
  · cases h
  next hremaining =>
    cases h
    exact ⟨rfl, fun hlast => if_pos hlast, rfl, rfl⟩

theorem entrySpeed_of_head? {d : Divisions} {first : Division}
    (h : d.toList.head? = some first) : first.movement.entrySpeed = Binary.narrow d.speed := by
  cases hnext : d.next? with
  | none =>
      rw [toList_of_next?_eq_none hnext] at h
      cases h
  | some drawn =>
      obtain ⟨division, rest⟩ := drawn
      rw [toList_of_next?_eq_some hnext] at h
      cases h
      exact (speed_next? hnext).1

theorem isChain_toList (d : Divisions) :
    d.toList.IsChain fun division next =>
      division.movement.exitSpeed = next.movement.entrySpeed := by
  match hnext : d.next? with
  | none =>
    rw [toList_of_next?_eq_none hnext]
    exact .nil
  | some (first, rest) =>
    have hlt := remaining_lt hnext
    rw [toList_of_next?_eq_some hnext, List.isChain_cons]
    refine ⟨fun second hsecond => ?_, isChain_toList rest⟩
    rw [(exitSpeed_next? hnext).1, entrySpeed_of_head? hsecond]
termination_by d.remaining.toNat

theorem exitSpeed_of_getLast? {d : Divisions} {last : Division}
    (h : d.toList.getLast? = some last) : last.movement.exitSpeed = Binary.narrow d.finalSpeed := by
  match hnext : d.next? with
  | none =>
    rw [toList_of_next?_eq_none hnext] at h
    cases h
  | some (first, rest) =>
    have hlt := remaining_lt hnext
    obtain ⟨hexit, hlast, -, hfinal⟩ := exitSpeed_next? hnext
    rw [toList_of_next?_eq_some hnext] at h
    by_cases hend : rest.remaining = 0
    · rw [toList_of_next?_eq_none (next?_eq_none_iff.mpr hend), List.getLast?_singleton] at h
      obtain rfl := Option.some.inj h
      rw [hexit, hlast hend]
    · have hmore : rest.toList ≠ [] := fun hnil => hend (by
        rw [← UInt32.toNat_inj, ← length_toList, hnil]
        rfl)
      rw [List.getLast?_cons_of_ne_nil hmore] at h
      rw [exitSpeed_of_getLast? h, hfinal]
termination_by d.remaining.toNat

/-! ## One step of the speed -/

theorem mul_le_max {a steps most : ℝ} (hsteps : 0 ≤ steps) (hmost : steps ≤ most) :
    a * steps ≤ max 0 (a * most) := by
  rcases le_or_gt 0 a with ha | ha
  · exact le_max_of_le_right (mul_le_mul_of_nonneg_left hmost ha)
  · exact le_max_of_le_left (mul_nonpos_of_nonpos_of_nonneg ha.le hsteps)

section

variable {acceleration : Float} {steps : UInt32} {a : ℝ}

theorem hasValue_rise (hacceleration : HasValue acceleration a)
    (ha : |2 * a| * 32767 ≤ 2 * 2 ^ 256) (hsteps : steps.toNat ≤ 32767) :
    ∃ q, HasValue (2 * acceleration * steps.toFloat) q ∧ |q - 2 * a * steps.toNat| ≤ 2 ^ 206 := by
  have hcount : (steps.toNat : ℝ) ≤ 32767 := by exact_mod_cast hsteps
  have hpos : (0 : ℝ) ≤ steps.toNat := steps.toNat.cast_nonneg
  obtain ⟨b, hb, hberror⟩ := Double.hasValue_two.mul hacceleration (k := 189)
    (by linarith) (by norm_num)
  have hbsize : |b| ≤ |2 * a| + 2 ^ 189 := by
    have hchange := abs_sub_abs_le_abs_sub b (2 * a)
    linarith
  have hproduct : |b * steps.toNat| ≤ 2 * 2 ^ 256 + 2 ^ 189 * 32767 := by
    rw [abs_mul, abs_of_nonneg hpos]
    calc |b| * steps.toNat ≤ (|2 * a| + 2 ^ 189) * 32767 := by gcongr
      _ ≤ 2 * 2 ^ 256 + 2 ^ 189 * 32767 := by linarith
  obtain ⟨q, hq, hqerror⟩ := hb.mul (Double.hasValue_toFloat steps) (k := 205)
    (by linarith) (by norm_num)
  refine ⟨q, hq, ?_⟩
  -- The error of the doubled acceleration is multiplied by the steps.
  calc |q - 2 * a * steps.toNat|
      ≤ |q - b * steps.toNat| + |b * steps.toNat - 2 * a * steps.toNat| := abs_sub_le _ _ _
    _ = |q - b * steps.toNat| + |b - 2 * a| * steps.toNat := by
      rw [← sub_mul, abs_mul, abs_of_nonneg hpos]
    _ ≤ 2 ^ 205 + 2 ^ 189 * 32767 := by gcongr
    _ ≤ 2 ^ 206 := by norm_num

/-- The square of the speed after some steps, before the root is taken. -/
theorem hasValue_square {speed : Float} {v : ℝ} (hspeed : HasValue speed v)
    (hacceleration : HasValue acceleration a) (hv : v ^ 2 ≤ 2 ^ 256)
    (ha : |2 * a| * 32767 ≤ 2 * 2 ^ 256) (hsteps : steps.toNat ≤ 32767) :
    ∃ w, HasValue (speed * speed + 2 * acceleration * steps.toFloat) w ∧
      w ≤ v ^ 2 + max 0 (2 * a * 32767) + 2 ^ 207 := by
  have hcount : (steps.toNat : ℝ) ≤ 32767 := by exact_mod_cast hsteps
  have hpos : (0 : ℝ) ≤ steps.toNat := steps.toNat.cast_nonneg
  have hvpos := sq_nonneg v
  obtain ⟨p, hp, hperror⟩ := hspeed.mul hspeed (k := 203)
    (by rw [abs_of_nonneg (mul_self_nonneg v), ← sq]; linarith) (by norm_num)
  obtain ⟨q, hq, hqerror⟩ := hasValue_rise hacceleration ha hsteps
  have hrise : |2 * a * steps.toNat| ≤ 2 * 2 ^ 256 := by
    rw [abs_mul, abs_of_nonneg hpos]
    exact (mul_le_mul_of_nonneg_left hcount (abs_nonneg _)).trans ha
  rw [← sq, abs_le] at hperror
  rw [abs_le] at hqerror hrise
  obtain ⟨w, hw, hwerror⟩ := hp.add hq (k := 205)
    (by rw [abs_lt]; constructor <;> linarith) (by norm_num)
  have hgain := mul_le_max (a := 2 * a) hpos hcount
  rw [abs_le] at hwerror
  exact ⟨w, hw, by linarith⟩

end

theorem hasValue_speedAfter {d : Divisions} {steps : UInt32} {v a : ℝ}
    (hspeed : HasValue d.speed v) (hacceleration : HasValue d.acceleration a)
    (hv : v ^ 2 ≤ 2 ^ 256) (ha : |2 * a| * 32767 ≤ 2 * 2 ^ 256) (hsteps : steps.toNat ≤ 32767) :
    ∃ r, HasValue (d.speedAfter steps) r ∧ 0 ≤ r ∧
      r ^ 2 ≤ v ^ 2 + (max 0 (2 * a * 32767) + 2 ^ 209) := by
  have hgain : 0 ≤ max 0 (2 * a * 32767) := le_max_left _ _
  obtain ⟨w, hw, hwmost⟩ := hasValue_square hspeed hacceleration hv ha hsteps
  unfold speedAfter
  extract_lets square
  by_cases hpositive : 0 < square
  · rw [if_pos hpositive]
    have hwpos : 0 < w := hw.pos hpositive
    have hgainmost : max 0 (2 * a * 32767) ≤ 2 * 2 ^ 256 :=
      max_le (by norm_num) (by linarith [le_abs_self (2 * a)])
    have hroot : √w ≤ 2 ^ 129 := by
      rw [Real.sqrt_le_left (by norm_num)]
      linarith
    obtain ⟨r, hr, hrerror⟩ := hw.sqrt hwpos (k := 77) (by linarith) (by norm_num)
    have hrnonneg : 0 ≤ r :=
      hr.nonneg (Binary.unsigned_sqrt (F := .binary64) (by decide)
        (Binary.unsigned_of_pos (of_decide_eq_true hpositive)).1)
    have hrmost : r ≤ √w + 2 ^ 77 := by
      rw [abs_le] at hrerror
      linarith
    refine ⟨r, hr, hrnonneg, ?_⟩
    calc r ^ 2 ≤ (√w + 2 ^ 77) ^ 2 := by gcongr
      _ = √w ^ 2 + √w * 2 ^ 78 + 2 ^ 154 := by ring
      _ ≤ w + 2 ^ 129 * 2 ^ 78 + 2 ^ 154 := by
        rw [Real.sq_sqrt hwpos.le]
        gcongr
      _ ≤ v ^ 2 + (max 0 (2 * a * 32767) + 2 ^ 209) := by linarith
  · rw [if_neg hpositive]
    refine ⟨0, Double.hasValue_zero, le_rfl, ?_⟩
    have := sq_nonneg v
    linarith

/-! ## All steps -/

/-- The square of the speed, with all that the remaining divisions can add to it, is
hardly larger than that of the largest single precision number. -/
structure Bounded (gain : ℝ) (d : Divisions) : Prop where
  nonneg : 0 ≤ gain
  speed : ∃ v, HasValue d.speed v ∧ 0 ≤ v ∧
    v ^ 2 + (d.remaining.toNat - 1 : ℕ) * gain ≤ (2 ^ 128 - 2 ^ 104) ^ 2 + 2 ^ 228
  acceleration : 1 < d.remaining.toNat → ∃ a, HasValue d.acceleration a ∧
    |2 * a| * 32767 ≤ 2 * 2 ^ 256 ∧ max 0 (2 * a * 32767) + 2 ^ 209 ≤ gain

theorem Bounded.isFinite_narrow {gain : ℝ} {d : Divisions} (h : Bounded gain d) :
    (Binary.narrow d.speed).isFinite = true := by
  obtain ⟨v, hspeed, hv, hmost⟩ := h.speed
  have hgain : 0 ≤ (d.remaining.toNat - 1 : ℕ) * gain := mul_nonneg (Nat.cast_nonneg _) h.nonneg
  apply Single.isFinite_narrow hspeed
  rw [abs_of_nonneg hv]
  apply lt_of_pow_lt_pow_left₀ 2 (by norm_num)
  calc v ^ 2 ≤ (2 ^ 128 - 2 ^ 104) ^ 2 + 2 ^ 228 := by linarith
    _ < (2 ^ 128 - 2 ^ 103) ^ 2 := by norm_num

theorem Bounded.next {gain : ℝ} {d rest : Divisions} {division : Division} (h : Bounded gain d)
    (hnext : d.next? = some (division, rest)) (hsteps : division.definingSteps.toNat ≤ 32767)
    (hmore : rest.remaining ≠ 0) : Bounded gain rest := by
  obtain ⟨-, -, hacceleration, -⟩ := exitSpeed_next? hnext
  have hreached := (speed_next? hnext).2 hmore
  have hcount := toNat_remaining_next? hnext
  have hpos := toNat_pos_of_ne_zero hmore
  obtain ⟨v, hspeed, hv, hmost⟩ := h.speed
  obtain ⟨a, ha, hslope, hgain⟩ := h.acceleration (by omega)
  have hsplit : ((d.remaining.toNat - 1 : ℕ) : ℝ) = (rest.remaining.toNat - 1 : ℕ) + 1 := by
    exact_mod_cast (by omega : d.remaining.toNat - 1 = rest.remaining.toNat - 1 + 1)
  have hlater : 0 ≤ (rest.remaining.toNat - 1 : ℕ) * gain :=
    mul_nonneg (Nat.cast_nonneg _) h.nonneg
  rw [hsplit, add_mul, one_mul] at hmost
  have hgainpos := h.nonneg
  obtain ⟨r, hr, hrpos, hrmost⟩ := hasValue_speedAfter hspeed ha (by linarith) hslope hsteps
  refine ⟨h.nonneg, ⟨r, hreached ▸ hr, hrpos, by linarith⟩, fun _ => ⟨a, ?_, hslope, hgain⟩⟩
  rw [hacceleration]
  exact ha

theorem speeds_valid {gain : ℝ} {d : Divisions}
    (hentry : Movement.speedIsValid (Binary.narrow d.speed) = true)
    (hexit : Movement.speedIsValid (Binary.narrow d.finalSpeed) = true)
    (hbounded : d.remaining ≠ 0 → Bounded gain d)
    (hsteps : ∀ division ∈ d.toList, division.definingSteps.toNat ≤ 32767) :
    ∀ division ∈ d.toList, division.movement.checkSpeeds = .ok () := by
  match hnext : d.next? with
  | none =>
    rw [toList_of_next?_eq_none hnext]
    exact fun _ hmem => absurd hmem List.not_mem_nil
  | some (first, rest) =>
    have hlt := remaining_lt hnext
    obtain ⟨hremaining, -⟩ := remaining_next? hnext
    obtain ⟨hends, hlast, -, hfinal⟩ := exitSpeed_next? hnext
    obtain ⟨hstarts, hreached⟩ := speed_next? hnext
    rw [toList_of_next?_eq_some hnext, List.forall_mem_cons] at hsteps ⊢
    have hbounded' : rest.remaining ≠ 0 → Bounded gain rest :=
      (hbounded hremaining).next hnext hsteps.1
    have hnextEntry : Movement.speedIsValid (Binary.narrow rest.speed) = true := by
      by_cases hend : rest.remaining = 0
      · rw [hlast hend]
        exact hexit
      · rw [Movement.speedIsValid_iff]
        refine ⟨(hbounded' hend).isFinite_narrow, Single.not_lt_zero ?_⟩
        rw [hreached hend]
        exact Binary.unsigned_narrow (unsigned_speedAfter d first.definingSteps)
    refine ⟨?_, speeds_valid hnextEntry (hfinal ▸ hexit) hbounded' hsteps.2⟩
    rw [Movement.checkSpeeds_eq_ok_iff, hstarts, hends]
    exact ⟨hentry, hnextEntry⟩
termination_by d.remaining.toNat

/-! ## The start -/

section

variable {m : Movement} {definingSteps : UInt32} {v₀ v₁ : ℝ}

theorem hasValue_difference (hentry : Single.HasValue m.entrySpeed v₀)
    (hexit : Single.HasValue m.exitSpeed v₁) :
    ∃ D, HasValue (Binary.widen m.exitSpeed * Binary.widen m.exitSpeed -
        Binary.widen m.entrySpeed * Binary.widen m.entrySpeed) D ∧
      |D - (v₁ ^ 2 - v₀ ^ 2)| ≤ 2 ^ 205 ∧ |v₁ ^ 2 - v₀ ^ 2| ≤ 2 ^ 256 := by
  have hsquare {v : ℝ} (hv : |v| ≤ 2 ^ 128 - 2 ^ 104) : v ^ 2 ≤ 2 ^ 256 := by
    rw [← sq_abs]
    calc |v| ^ 2 ≤ (2 ^ 128) ^ 2 := by
          gcongr
          linarith
      _ = 2 ^ 256 := by norm_num
  have hsquare₀ := hsquare hentry.abs_le
  have hsquare₁ := hsquare hexit.abs_le
  have hpos₀ := sq_nonneg v₀
  have hpos₁ := sq_nonneg v₁
  have hasked : |v₁ ^ 2 - v₀ ^ 2| ≤ 2 ^ 256 := by
    rw [abs_le]
    constructor <;> linarith
  -- The squares are exact, and their difference is rounded once.
  obtain ⟨D, hD, herror⟩ := hexit.mul_self_widen.sub hentry.mul_self_widen (k := 205)
    (by rw [← sq, ← sq]; linarith) (by norm_num)
  rw [← sq, ← sq] at herror
  exact ⟨D, hD, herror, hasked⟩

/-- Over all steps of the movement the square of the speed changes by hardly more than
what was asked for. -/
theorem hasValue_acceleration (hentry : Single.HasValue m.entrySpeed v₀)
    (hexit : Single.HasValue m.exitSpeed v₁) (hsteps : 32767 ≤ definingSteps.toNat) :
    ∃ a, HasValue (ofMovement m definingSteps).acceleration a ∧
      |2 * a * definingSteps.toNat - (v₁ ^ 2 - v₀ ^ 2)| ≤ 2 ^ 223 ∧
      |2 * a| * 32767 ≤ 2 * 2 ^ 256 := by
  obtain ⟨D, hD, herror, hasked⟩ := hasValue_difference hentry hexit
  have htwice := Double.hasValue_two_mul_toFloat definingSteps
  have hleast : (32767 : ℝ) ≤ definingSteps.toNat := by exact_mod_cast hsteps
  have hmost : (definingSteps.toNat : ℝ) ≤ 2 ^ 32 := by
    exact_mod_cast definingSteps.toNat_lt.le
  generalize (definingSteps.toNat : ℝ) = n at htwice hleast hmost ⊢
  have hpos : 0 < 2 * n := by linarith
  rw [abs_le] at herror hasked
  have hdifference : |D| ≤ 2 ^ 256 + 2 ^ 205 := by
    rw [abs_le]
    constructor <;> linarith
  have hquotient : |D / (2 * n)| < 2 ^ 54 * 2 ^ 189 := by
    rw [abs_div, abs_of_pos hpos, div_lt_iff₀ hpos]
    linarith
  obtain ⟨a, ha, haerror⟩ := hD.div htwice hpos.ne' hquotient (by norm_num)
  have hscaled : |2 * a * n - D| ≤ 2 ^ 222 := by
    have hsame : 2 * a * n - D = (a - D / (2 * n)) * (2 * n) := by
      rw [sub_mul, div_mul_cancel₀ _ hpos.ne']
      ring
    rw [hsame, abs_mul, abs_of_pos hpos]
    calc |a - D / (2 * n)| * (2 * n) ≤ 2 ^ 189 * (2 * 2 ^ 32) := by gcongr
      _ = 2 ^ 222 := by norm_num
  rw [abs_le] at hscaled
  refine ⟨a, ha, ?_, ?_⟩
  · rw [abs_le]
    constructor <;> linarith
  · calc |2 * a| * 32767 ≤ |2 * a| * n := by gcongr
      _ = |2 * a * n| := by rw [abs_mul _ n, abs_of_nonneg (by linarith : 0 ≤ n)]
      _ ≤ 2 * 2 ^ 256 := by
        rw [abs_le]
        constructor <;> linarith

theorem bounded_ofMovement (definingSteps : UInt32) (hentry : Single.HasValue m.entrySpeed v₀)
    (hexit : Single.HasValue m.exitSpeed v₁) (hv₀ : 0 ≤ v₀) :
    ∃ gain, Bounded gain (ofMovement m definingSteps) := by
  have hlimit {v : ℝ} (hv : |v| ≤ 2 ^ 128 - 2 ^ 104) : v ^ 2 ≤ (2 ^ 128 - 2 ^ 104) ^ 2 := by
    rw [← sq_abs]
    gcongr
  have hlimit₀ := hlimit hentry.abs_le
  have hlimit₁ := hlimit hexit.abs_le
  have hremaining : (ofMovement m definingSteps).remaining.toNat =
      definingSteps.toNat / 32767 + 1 := toNat_divisionCount definingSteps
  by_cases hshort : definingSteps.toNat < 32767
  · -- A single division ends at the exit speed, whatever its acceleration.
    have hone : (ofMovement m definingSteps).remaining.toNat = 1 := by omega
    refine ⟨0, le_rfl, ⟨v₀, hentry.widen, hv₀, ?_⟩, fun hmore => by omega⟩
    linarith
  · have hlong : 32767 ≤ definingSteps.toNat := not_lt.mp hshort
    obtain ⟨a, ha, herror, hslope⟩ := hasValue_acceleration hentry hexit hlong
    refine ⟨max 0 (2 * a * 32767) + 2 ^ 209, by positivity,
      ⟨v₀, hentry.widen, hv₀, ?_⟩, fun _ => ⟨a, ha, hslope, le_rfl⟩⟩
    rw [hremaining, Nat.add_sub_cancel]
    have hcount : ((definingSteps.toNat / 32767 : ℕ) : ℝ) * 32767 ≤ definingSteps.toNat := by
      exact_mod_cast Nat.div_mul_le_self _ _
    have hfew : ((definingSteps.toNat / 32767 : ℕ) : ℝ) ≤ 2 ^ 18 := by
      have := definingSteps.toNat_lt
      exact_mod_cast (by omega : definingSteps.toNat / 32767 ≤ 2 ^ 18)
    have hnonneg : (0 : ℝ) ≤ (definingSteps.toNat / 32767 : ℕ) := Nat.cast_nonneg _
    generalize ((definingSteps.toNat / 32767 : ℕ) : ℝ) = count at hcount hfew hnonneg ⊢
    generalize (definingSteps.toNat : ℝ) = n at hcount herror
    have hrise : count * max 0 (2 * a * 32767) ≤ max 0 (2 * a * n) := by
      rw [mul_max_of_nonneg _ _ hnonneg, mul_zero]
      refine max_le (le_max_left _ _) ?_
      have hscaled := mul_le_max (a := 2 * a) (by positivity) hcount
      linarith
    have hreached : v₀ ^ 2 + max 0 (2 * a * n) ≤ (2 ^ 128 - 2 ^ 104) ^ 2 + 2 ^ 223 := by
      rw [abs_le] at herror
      rw [← max_add_add_left]
      apply max_le <;> linarith
    linarith

end

theorem speeds_continuous {m : Movement} (hspeeds : m.checkSpeeds = .ok ()) :
    (ofMovement m m.definingSteps).toList.head?.map (·.movement.entrySpeed) =
        some m.entrySpeed ∧
      ((ofMovement m m.definingSteps).toList.IsChain fun division next =>
        division.movement.exitSpeed = next.movement.entrySpeed) ∧
      (ofMovement m m.definingSteps).toList.getLast?.map (·.movement.exitSpeed) =
        some m.exitSpeed ∧
      ∀ division ∈ (ofMovement m m.definingSteps).toList,
        (∀ speed ∈ [division.movement.entrySpeed, division.movement.exitSpeed],
          speed.isFinite = true ∧ speed.isNaN = false ∧ ¬speed < 0) ∧
        division.movement.outputs = m.outputs := by
  obtain ⟨hentry, hexit⟩ := Movement.checkSpeeds_eq_ok_iff.mp hspeeds
  obtain ⟨hentryFinite, hentrySign⟩ := Movement.speedIsValid_iff.mp hentry
  have hexitFinite := (Movement.speedIsValid_iff.mp hexit).1
  have hstart : Binary.narrow (ofMovement m m.definingSteps).speed = m.entrySpeed :=
    Single.narrow_widen hentryFinite
  have hend : Binary.narrow (ofMovement m m.definingSteps).finalSpeed = m.exitSpeed :=
    Single.narrow_widen hexitFinite
  have hsome : (ofMovement m m.definingSteps).toList ≠ [] := by
    rw [← List.length_pos_iff, length_toList_ofMovement]
    exact divisionCount_pos m.definingSteps
  refine ⟨?_, isChain_toList _, ?_, fun division hmem => ⟨fun speed hspeed => ?_, ?_⟩⟩
  · rw [List.head?_eq_some_head hsome, Option.map_some,
      entrySpeed_of_head? (List.head?_eq_some_head hsome), hstart]
  · rw [List.getLast?_eq_some_getLast hsome, Option.map_some,
      exitSpeed_of_getLast? (List.getLast?_eq_some_getLast hsome), hend]
  · obtain ⟨v₀, hv₀⟩ := Single.exists_hasValue hentryFinite
    obtain ⟨v₁, hv₁⟩ := Single.exists_hasValue hexitFinite
    obtain ⟨gain, hbounded⟩ :=
      bounded_ofMovement m.definingSteps hv₀ hv₁ (hv₀.nonneg hentrySign)
    have hvalid := speeds_valid (hstart ▸ hentry) (hend ▸ hexit) (fun _ => hbounded)
      (fun _ => definingSteps_le_of_mem) division hmem
    rw [Movement.checkSpeeds_eq_ok_iff] at hvalid
    have hspeedValid : Movement.speedIsValid speed = true := by
      rcases List.mem_pair.mp hspeed with rfl | rfl
      · exact hvalid.1
      · exact hvalid.2
    obtain ⟨hfinite, hsign⟩ := Movement.speedIsValid_iff.mp hspeedValid
    exact ⟨hfinite, Single.isNaN_of_isFinite hfinite, hsign⟩
  · obtain ⟨k, -, hcovers⟩ := exists_covers_of_mem hmem
    exact hcovers.outputs

/-- A stop from the largest speed there is. -/
theorem speeds_continuous_of_stop :
    (Movement.ofSteps [100000] (Float32.ofBits 0x7F7FFFFF) 0 7).checkSpeeds = .ok () ∧
      ((ofMovement (.ofSteps [100000] (Float32.ofBits 0x7F7FFFFF) 0 7) 100000).toList.getLast?.map
        (·.movement.exitSpeed) = some 0) := by
  have hspeeds :
      (Movement.ofSteps [100000] (Float32.ofBits 0x7F7FFFFF) 0 7).checkSpeeds = .ok () := rfl
  exact ⟨hspeeds, (speeds_continuous hspeeds).2.2.1⟩

end Divisions

end

end PulseTrain
