import PulseTrain.Proofs.Division.Continuity
import PulseTrain.Proofs.Plan.Segments
import PulseTrain.Proofs.Timing.Delays

/-!
# Ramps that end at rest

The series index of a ramp is the number of loops that a ramp from rest takes to its entry
speed.  For a ramp that stops these are its own loops, and the index has to be their number
exactly, or the generator would not arrive at rest.

The square of the entry speed is divided by the distance and the result is divided back
into it, with a rounding each time.  Measured by its result, the first rounding errs by one
part in `2 ^ 24`, which a count of loops below `2 ^ 16` turns into less than `2 ^ (-8)`
loops; the second one adds no more than that.  So the quotient stays well within half a
loop of the count, and the rounding to a whole number gives it back.
-/

namespace PulseTrain

open Float.Model Single
open scoped ENNReal

/-! ## Dividing and dividing back -/

theorem abs_nearest_div_nearest_sub_lt {square : ℝ} {n : ℕ} (hsquare : 0 ≤ square) (hn : 0 < n)
    (hfits : n < 2 ^ 16)
    (hnormal : (2 : ℝ) ^ (-126 : ℤ) ≤ Binary.nearest .binary32 (square / n)) :
    |Binary.nearest .binary32 (square / Binary.nearest .binary32 (square / n)) - n| < 1 / 2 := by
  set part := Binary.nearest .binary32 (square / n) with hpart
  have hpos : 0 < part := lt_of_lt_of_le (by positivity) hnormal
  have hcount : (0 : ℝ) < n := by exact_mod_cast hn
  have hmost : (n : ℝ) < 2 ^ 16 := by exact_mod_cast hfits
  have herror : |part - square / n| ≤ part / 2 ^ 24 :=
    Binary.abs_nearest_sub_le_div (by positivity) hnormal
  -- The share errs by a part of itself, so the exact quotient errs by that part of `n`.
  have hexact : |square / part - n| < 2 ^ (-8 : ℤ) :=
    calc |square / part - n| = n / part * |part - square / n| := by
          have hdifference : square / part - n = -(n / part * (part - square / n)) := by
            field_simp
            ring
          rw [hdifference, abs_neg, abs_mul, abs_of_pos (by positivity)]
      _ ≤ n / part * (part / 2 ^ 24) := by gcongr
      _ = n / 2 ^ 24 := by field_simp
      _ < 2 ^ 16 / 2 ^ 24 := by gcongr
      _ = 2 ^ (-8 : ℤ) := by norm_num
  -- Below `2 ^ 17` the last place of single precision is `2 ^ (-7)` at most.
  have hrange : square / part < 2 ^ ((-7 : ℤ) + (Format.mantissaBits .binary32 : ℤ)) :=
    calc square / part < n + 2 ^ (-8 : ℤ) := by linarith [(abs_lt.mp hexact).2]
      _ < 2 ^ 16 + 2 ^ (-8 : ℤ) := by gcongr
      _ < 2 ^ (17 : ℤ) := by norm_num
  have hround := Binary.abs_nearest_sub_le (F := .binary32) (k := -7)
    (div_nonneg hsquare hpos.le) (by decide) hrange
  calc |Binary.nearest .binary32 (square / part) - n|
      ≤ |Binary.nearest .binary32 (square / part) - square / part| + |square / part - n| :=
        abs_sub_le _ _ _
    _ < 2 ^ (-7 : ℤ) / 2 + 2 ^ (-8 : ℤ) := add_lt_add_of_le_of_lt hround hexact
    _ < 1 / 2 := by norm_num

theorem wholeCycles_rounded_of_near {x : ℝ} {n : ℕ} (hx : 0 ≤ x) (hfits : n < 2 ^ 16)
    (hnear : |Binary.nearest .binary32 x - n| < 1 / 2) :
    wholeCycles (rounded (.ofReal x)) = n := by
  have hmost : (n : ℝ) < 2 ^ 16 := by exact_mod_cast hfits
  obtain ⟨hlow, hhigh⟩ := abs_lt.mp hnear
  have hend : ¬(2 : ℝ) ^ Binary.endExponent .binary32 ≤ Binary.nearest .binary32 x := by
    have : (2 : ℝ) ^ (17 : ℤ) ≤ 2 ^ Binary.endExponent .binary32 :=
      zpow_le_zpow_right₀ (by norm_num) (by decide)
    norm_num at this
    linarith
  have hfloor : ⌊Binary.nearest .binary32 x + 1 / 2⌋₊ = n := by
    rw [Nat.floor_eq_iff (by linarith [Binary.nearest_nonneg (F := .binary32) x])]
    constructor <;> linarith
  rw [rounded, Binary.rounded_ofReal hx, if_neg hend, wholeCycles_of_ne_top ENNReal.ofReal_ne_top,
    ENNReal.toReal_ofReal (Binary.nearest_nonneg x), hfloor]
  omega

theorem wholeCycles_div_rounded {x : ℝ≥0∞} {n : ℕ} (hx : x ≠ ⊤) (hn : 0 < n) (hfits : n < 2 ^ 16)
    (hnormal : .ofReal (2 ^ (-126 : ℤ)) ≤ rounded (x / n)) (hfinite : rounded (x / n) ≠ ⊤) :
    wholeCycles (rounded (x / rounded (x / n))) = n := by
  obtain ⟨r, hr, rfl⟩ : ∃ r : ℝ, 0 ≤ r ∧ x = .ofReal r :=
    ⟨x.toReal, ENNReal.toReal_nonneg, (ENNReal.ofReal_toReal hx).symm⟩
  have hcount : (0 : ℝ) < n := by exact_mod_cast hn
  have hpart : rounded (.ofReal r / n) = .ofReal (Binary.nearest .binary32 (r / n)) := by
    have hexact : (.ofReal r / n : ℝ≥0∞) = .ofReal (r / n) := by
      rw [ENNReal.ofReal_div_of_pos hcount, ENNReal.ofReal_natCast]
    rw [hexact, rounded, Binary.rounded_ofReal (by positivity)] at hfinite ⊢
    exact if_neg fun hover => hfinite (if_pos hover)
  rw [hpart] at hnormal ⊢
  rw [ENNReal.ofReal_le_ofReal_iff (Binary.nearest_nonneg _)] at hnormal
  have hpos : 0 < Binary.nearest .binary32 (r / n) := lt_of_lt_of_le (by positivity) hnormal
  rw [← ENNReal.ofReal_div_of_pos hpos]
  exact wholeCycles_rounded_of_near (by positivity) hfits
    (abs_nearest_div_nearest_sub_lt hr hn hfits hnormal)

/-! ## The index of a stop -/

/-- Short of an overflow a double is not rounded. -/
theorem two_mul_exact {x : Float32} (hx : Unsigned x)
    (hlt : 2 * magnitude x < .ofReal (2 ^ Binary.endExponent .binary32)) :
    Unsigned (loopsPerStep.toFloat32 * x) ∧
      magnitude (loopsPerStep.toFloat32 * x) = 2 * magnitude x := by
  obtain ⟨hunsigned, hvalue⟩ := two_mul hx
  exact ⟨hunsigned, hvalue.trans (Binary.rounded_two_mul (stored x).canonical hlt)⟩

/-- The square of the speed, its double and the acceleration of the stop have the full
precision. -/
structure StopInRange (speed : Float32) (definingSteps : UInt32) : Prop where
  square : IsNormal (speed * speed)
  double : IsNormal (loopsPerStep.toFloat32 * (speed * speed))
  acceleration : IsNormal (speed * speed / (2 * definingSteps.toFloat32))

namespace StopInRange

instance (speed : Float32) (definingSteps : UInt32) : Decidable (StopInRange speed definingSteps) :=
  decidable_of_iff
    (IsNormal (speed * speed) ∧ IsNormal (loopsPerStep.toFloat32 * (speed * speed)) ∧
      IsNormal (speed * speed / (2 * definingSteps.toFloat32)))
    ⟨fun h => ⟨h.1, h.2.1, h.2.2⟩, fun h => ⟨h.square, h.double, h.acceleration⟩⟩

variable {speed : Float32} {definingSteps : UInt32}

theorem double_exact (h : StopInRange speed definingSteps) :
    Unsigned (loopsPerStep.toFloat32 * (speed * speed)) ∧
      magnitude (loopsPerStep.toFloat32 * (speed * speed)) = 2 * magnitude (speed * speed) := by
  have hfinite := h.double.magnitude_ne_top
  rw [(two_mul h.square.unsigned).2] at hfinite
  exact two_mul_exact h.square.unsigned (Binary.lt_of_rounded_ne_top (by decide) hfinite)

theorem magnitude_acceleration (h : StopInRange speed definingSteps)
    (hmoves : 0 < definingSteps.toNat) (hfits : definingSteps.toNat ≤ 32767) :
    magnitude (speed * speed / (2 * definingSteps.toFloat32)) =
      rounded (magnitude (speed * speed) / (2 * definingSteps.toNat : ℕ)) := by
  have hpos : (0 : ℝ) < (2 * definingSteps.toNat : ℕ) := by
    exact_mod_cast (by omega : 0 < 2 * definingSteps.toNat)
  have hdistance := hasValue_two_mul_toFloat32 (n := definingSteps) (by omega)
  have hunsigned := hdistance.unsigned_of_pos hpos
  have hvalue := hdistance.magnitude_eq hunsigned
  rw [ENNReal.ofReal_natCast] at hvalue
  have hne : magnitude (2 * definingSteps.toFloat32) ≠ 0 := by
    rw [hvalue]
    exact_mod_cast hpos.ne'
  rw [(div h.square.unsigned hunsigned (fun _ => hne)
    (fun htop => absurd htop h.square.magnitude_ne_top)).2, hvalue]

theorem double_acceleration_exact (h : StopInRange speed definingSteps)
    (hmoves : 0 < definingSteps.toNat) (hfits : definingSteps.toNat ≤ 32767) :
    Unsigned (2 * (speed * speed / (2 * definingSteps.toFloat32))) ∧
      magnitude (2 * (speed * speed / (2 * definingSteps.toFloat32))) =
        2 * magnitude (speed * speed / (2 * definingSteps.toFloat32)) := by
  have htwo : (2 : ℝ≥0∞) ≤ (2 * definingSteps.toNat : ℕ) := by
    exact_mod_cast (by omega : 2 ≤ 2 * definingSteps.toNat)
  apply two_mul_exact h.acceleration.unsigned
  calc 2 * magnitude (speed * speed / (2 * definingSteps.toFloat32))
      = 2 * rounded (magnitude (speed * speed) / (2 * definingSteps.toNat : ℕ)) := by
        rw [h.magnitude_acceleration hmoves hfits]
    _ ≤ 2 * rounded (magnitude (speed * speed) / 2) := by
        gcongr
        exact Binary.rounded_mono (ENNReal.div_le_div_left htwo _)
    _ < .ofReal (2 ^ Binary.endExponent .binary32) :=
        Binary.two_mul_rounded_half_lt (by decide) (stored (speed * speed))
          h.square.magnitude_ne_top

/-- Neither double is rounded, so the index is a quotient that was rounded twice. -/
theorem toNat_seriesIndex (h : StopInRange speed definingSteps)
    (hmoves : 0 < definingSteps.toNat) (hfits : definingSteps.toNat ≤ 32767) :
    (cycleCount (loopsPerStep.toFloat32 * (speed * speed) /
        (2 * (speed * speed / (2 * definingSteps.toFloat32))))).value.toNat =
      2 * definingSteps.toNat := by
  obtain ⟨hdouble, hdoubleValue⟩ := h.double_exact
  obtain ⟨hslope, hslopeValue⟩ := h.double_acceleration_exact hmoves hfits
  have hrounded := h.magnitude_acceleration hmoves hfits
  have hnormal := h.acceleration.le_magnitude
  have hfinite := h.acceleration.magnitude_ne_top
  have hsquare := h.square.magnitude_ne_top
  have hsquareZero := h.square.magnitude_ne_zero
  set square := speed * speed
  set acceleration := square / (2 * definingSteps.toFloat32)
  obtain ⟨hquotient, hquotientValue⟩ := div hdouble hslope
    (fun hzero => absurd hzero (by simp [hdoubleValue, hsquareZero]))
    (fun htop => absurd htop (by simp [hdoubleValue, ENNReal.mul_eq_top, hsquare]))
  calc (cycleCount (loopsPerStep.toFloat32 * square / (2 * acceleration))).value.toNat
      = wholeCycles (rounded (2 * magnitude square / (2 * magnitude acceleration))) := by
        rw [toNat_cycleCount hquotient, hquotientValue, hdoubleValue, hslopeValue]
    _ = wholeCycles (rounded (magnitude square / magnitude acceleration)) := by
        rw [ENNReal.mul_div_mul_left _ _ two_ne_zero ENNReal.ofNat_ne_top]
    _ = 2 * definingSteps.toNat := by
        rw [hrounded] at hnormal hfinite ⊢
        exact wholeCycles_div_rounded hsquare (by omega) (by omega) hnormal hfinite

end StopInRange

/-- The acceleration of a stop is the square of its entry speed over twice the distance. -/
theorem Timing.phase_of_stop (t : Timing) {m : Movement} (definingSteps : UInt32)
    (hnormal : IsNormal (m.entrySpeed * m.entrySpeed)) (hstop : (m.exitSpeed == 0) = true) :
    (t.phase m definingSteps).value =
      .decelerate (t.ramp (loopsPerStep * definingSteps).toUInt16 (m.entrySpeed * m.entrySpeed)
        (m.entrySpeed * m.entrySpeed / (2 * definingSteps.toFloat32))).value := by
  have hexit : m.exitSpeed * m.exitSpeed = 0 := (hasValue_of_beq_zero hstop).mul_self_of_zero
  have hdifferent : ¬(m.entrySpeed * m.entrySpeed == 0) = true := fun heq =>
    absurd (eq_of_beq_of_pos heq hnormal.pos ▸ hnormal.pos) (by decide)
  unfold phase
  simp only [hexit, hnormal.sub_zero_eq]
  rw [if_neg hdifferent, if_neg (not_lt_zero hnormal.unsigned)]
  rfl

/-! ## The last segment -/

/-- The segment slows down, and its index is the number of loops it has left. -/
def Segment.EndsAtRest (s : Segment) (definingSteps : UInt32) : Prop :=
  ∃ ramp : Ramp, s.phase = .decelerate ramp ∧
    ramp.loops.toNat = 2 * definingSteps.toNat ∧ ramp.seriesIndex.toNat = ramp.loops.toNat

theorem Timing.endsAtRest_synthesize (t : Timing) {m : Movement} {definingSteps : UInt32}
    (hmoves : 0 < definingSteps.toNat) (hfits : definingSteps.toNat ≤ 32767)
    (hstop : (m.exitSpeed == 0) = true) (hrange : StopInRange m.entrySpeed definingSteps) :
    (t.synthesize m definingSteps).value.EndsAtRest definingSteps := by
  have hphase := t.phase_of_stop definingSteps hrange.square hstop
  have hloops := toNat_loops hfits
  have hindex := hrange.toNat_seriesIndex hmoves hfits
  exact ⟨_, hphase, hloops, hindex.trans hloops.symm⟩

theorem Movement.exitSpeed_of_getLast? {m : Movement} {last : Division}
    (hspeeds : m.checkSpeeds = .ok ()) (hlast : m.pieces.getLast? = some last) :
    last.movement.exitSpeed = m.exitSpeed := by
  have hvalid := speedIsValid_iff.mp (checkSpeeds_eq_ok_iff.mp hspeeds).2
  unfold pieces at hlast
  split at hlast
  · rw [List.getLast?_singleton] at hlast
    obtain rfl := Option.some.inj hlast
    rfl
  · rw [Divisions.exitSpeed_of_getLast? hlast]
    exact narrow_widen hvalid.1

theorem Plan.exists_last_piece {t : Timing} {m : Movement} {p : Plan}
    (hplan : (t.plan m).value = .ok p) :
    ∃ last : Division, m.pieces.getLast? = some last ∧
      p.segments.getLast? = some (t.synthesize last.movement last.definingSteps) ∧
      0 < last.definingSteps.toNat ∧ last.definingSteps.toNat ≤ 32767 ∧
      last.movement.exitSpeed = m.exitSpeed := by
  obtain ⟨hmoves, hspeeds, -, -⟩ := Timing.plan_eq_ok hplan
  have hsome : m.pieces ≠ [] := List.ne_nil_of_length_pos m.length_pieces_pos
  obtain ⟨last, hlast⟩ : ∃ last, m.pieces.getLast? = some last :=
    ⟨_, List.getLast?_eq_some_getLast hsome⟩
  have hget : m.pieces[m.pieces.length - 1]? = some last := by
    rw [← List.getLast?_eq_getElem?, hlast]
  refine ⟨last, hlast, ?_, Movement.definingSteps_pos_of_piece hmoves hget,
    Movement.definingSteps_le_of_piece hget, Movement.exitSpeed_of_getLast? hspeeds hlast⟩
  rw [Plan.segments_of_plan hplan, List.getLast?_map, hlast]
  rfl

/-- A ramp to a stop has exactly as many loops as its index says, whatever its entry speed
and however many steps it makes, and the last segment of a movement that stops is one. -/
theorem Timing.stops_exactly (t : Timing) :
    (∀ (m : Movement) (definingSteps : UInt32),
        definingSteps ≠ 0 → definingSteps ≤ stepsPerSegment → m.exitSpeed == 0 →
        StopInRange m.entrySpeed definingSteps →
        (t.synthesize m definingSteps).value.EndsAtRest definingSteps) ∧
      ∀ (m : Movement) (p : Plan), (t.plan m).value = .ok p → m.exitSpeed == 0 →
        ∃ last : Division, m.pieces.getLast? = some last ∧
          ∃ entry : Logged Segment, p.segments.getLast? = some entry ∧
            (StopInRange last.movement.entrySpeed last.definingSteps →
              entry.value.EndsAtRest last.definingSteps) := by
  constructor
  · intro m definingSteps hmoves hfits hstop hrange
    exact t.endsAtRest_synthesize (toNat_pos_of_ne_zero hmoves)
      (UInt32.le_iff_toNat_le.mp hfits) hstop hrange
  · intro m p hplan hstop
    obtain ⟨last, hlast, hentry, hpos, hfits, hexit⟩ := Plan.exists_last_piece hplan
    refine ⟨last, hlast, _, hentry, fun hrange => ?_⟩
    exact t.endsAtRest_synthesize hpos hfits (hexit ▸ hstop) hrange

/-- A stop in one segment and a stop over four. -/
theorem Timing.stops_exactly_over_four_segments :
    ((32767 : UInt32) ≠ 0 ∧ (32767 : UInt32) ≤ stepsPerSegment ∧ ((0 : Float32) == 0) = true ∧
      StopInRange 1000 32767 ∧
      (Timing.synthesize {} (.ofSteps [32767] 1000 0 0) 32767).value.EndsAtRest 32767) ∧
      ∃ (p : Plan) (last : Division) (entry : Logged Segment),
        (Timing.plan {} (.ofSteps [100000, -7] 5000 0 0)).value = .ok p ∧
        (Movement.ofSteps [100000, -7] 5000 0 0).pieces.getLast? = some last ∧
        p.segments.getLast? = some entry ∧
        StopInRange last.movement.entrySpeed last.definingSteps ∧
        entry.value.EndsAtRest last.definingSteps := by
  obtain ⟨hsegments, hplans⟩ := Timing.stops_exactly {}
  have hrange : StopInRange 1000 32767 := by decide
  obtain ⟨p, hplan⟩ : ∃ p : Plan,
      (Timing.plan {} (.ofSteps [100000, -7] 5000 0 0)).value = .ok p := ⟨_, rfl⟩
  obtain ⟨last, hlast, entry, hentry, hstop⟩ := hplans _ p hplan (by decide)
  have hlastRange : StopInRange last.movement.entrySpeed last.definingSteps := by
    have hpieces : (Movement.ofSteps [100000, -7] 5000 0 0).pieces.getLast?.map
        (fun last => decide (StopInRange last.movement.entrySpeed last.definingSteps)) =
          some true := by decide +kernel
    rw [hlast] at hpieces
    exact of_decide_eq_true (Option.some.inj hpieces)
  exact ⟨⟨by decide, by decide, by decide, hrange,
    hsegments _ 32767 (by decide) (by decide) (by decide) hrange⟩,
    p, last, entry, hplan, hlast, hentry, hlastRange, hstop hlastRange⟩

end PulseTrain
