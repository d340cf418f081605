import PulseTrain.Proofs.Plan.ConstantSpeed
import PulseTrain.Proofs.Timing.Ceiling

/-!
# The order of travels

From the speed of a travel to its delay lead a clipping, a doubling, a division and a
rounding to whole cycles.  Each of them keeps or turns round the order of its arguments,
whatever it rounds to and wherever it overflows, so the slower of two travels never has
the shorter delay.  At rest the division gives infinity, which is clamped to the longest
delay there is.

Minus zero compares as equal to zero and passes the check of speeds, but the quotient is
minus infinity then and the delay is no delay at all.  It is the only speed out of order.
-/

namespace PulseTrain

open Single
open scoped ENNReal

namespace Timing

variable {t : Timing} {speed : Float32}

theorem wholeCycles_half : wholeCycles (1 / 2) = 1 := by
  have hfloor : ⌊(1 / 2 : ℝ≥0∞).toReal + 1 / 2⌋₊ = 1 := by norm_num
  rw [wholeCycles_of_ne_top (by simp), hfloor]
  rfl

theorem Checked.one_le_travelDelay (ht : t.Checked) (hspeed : Unsigned speed) :
    1 ≤ (t.travelDelay speed).value.toNat :=
  calc 1 = wholeCycles (rounded (1 / 2)) := by rw [rounded_half, wholeCycles_half]
    _ ≤ wholeCycles (rounded (magnitude t.clock.hertz / (2 * magnitude t.ceiling.hertz))) :=
        wholeCycles_mono (Binary.rounded_mono ht.half_le)
    _ = (t.travelDelay t.ceiling.hertz).value.toNat := ht.toNat_travelDelay_ceiling.symm
    _ ≤ (t.travelDelay speed).value.toNat := ht.travelDelay_ceiling_le hspeed

theorem Checked.travelDelay_of_zero (ht : t.Checked) (hspeed : Unsigned speed)
    (hzero : magnitude speed = 0) : (t.travelDelay speed).value = 0xFFFFFFFF := by
  have hnone : rounded 0 = 0 := Binary.rounded_zero
  have hall : rounded ⊤ = ⊤ := Binary.rounded_top
  have htop : (t.travelDelay speed).value.toNat = wholeCycles ⊤ := by
    rw [ht.toNat_travelDelay hspeed, hzero, zero_min, mul_zero, hnone,
      ENNReal.div_zero ht.clock_ne_zero, hall]
  rw [wholeCycles, if_pos rfl] at htop
  exact UInt32.toNat_inj.mp htop

end Timing

/-! ## Constant speeds -/

namespace Movement

variable {m : Movement} {v : ℝ}

/-- Squares may overflow or vanish, but those of one value compare as equal. -/
theorem beq_squares (hentry : HasValue m.entrySpeed v) (hexit : HasValue m.exitSpeed v) :
    (m.entrySpeed * m.entrySpeed == m.exitSpeed * m.exitSpeed) = true := by
  rw [beq_iff hentry.square.1 hexit.square.1, hentry.square.2, hexit.square.2]

/-- The value of the speed that an accepted movement has at both ends. -/
theorem exists_hasValue_speeds (hspeeds : m.checkSpeeds = .ok ())
    (hconstant : m.entrySpeed == m.exitSpeed) :
    ∃ v, 0 ≤ v ∧ HasValue m.entrySpeed v ∧ HasValue m.exitSpeed v := by
  have hvalid := speedIsValid_iff.mp (checkSpeeds_eq_ok_iff.mp hspeeds).1
  obtain ⟨v, hv⟩ := exists_hasValue hvalid.1
  exact ⟨v, hv.nonneg hvalid.2, hv, hv.of_beq hconstant⟩

theorem entrySpeed_of_head? {first : Division} (hspeeds : m.checkSpeeds = .ok ())
    (hfirst : m.pieces.head? = some first) : first.movement.entrySpeed = m.entrySpeed := by
  have hvalid := speedIsValid_iff.mp (checkSpeeds_eq_ok_iff.mp hspeeds).1
  unfold pieces at hfirst
  split at hfirst
  · obtain rfl := Option.some.inj hfirst
    rfl
  · rw [Divisions.entrySpeed_of_head? hfirst]
    exact narrow_widen hvalid.1

end Movement

namespace Plan

variable {t : Timing} {m : Movement} {p : Plan} {delay : UInt32}

/-- The plan has segments and all of them travel. -/
def OnlyTravels (p : Plan) : Prop :=
  p.segments ≠ [] ∧ ∀ entry ∈ p.segments, ∃ loops delay, entry.value.phase = .travel loops delay

theorem travels_of_mem_pieces (hplan : (t.plan m).value = .ok p)
    (hconstant : m.entrySpeed == m.exitSpeed) {piece : Division} (hpiece : piece ∈ m.pieces) :
    ∃ loops, (t.synthesize piece.movement piece.definingSteps).value.phase =
      .travel loops (t.travelDelay piece.movement.entrySpeed).value := by
  obtain ⟨hmoves, hspeeds, -, -⟩ := Timing.plan_eq_ok hplan
  obtain ⟨v, hnonneg, hentry, hexit⟩ := Movement.exists_hasValue_speeds hspeeds hconstant
  obtain ⟨hfirst, hlast⟩ :=
    Movement.hasValue_speeds_of_piece hentry hexit hnonneg hmoves hpiece
  exact ⟨_, t.phase_of_beq_squares _ (Movement.beq_squares hfirst hlast)⟩

theorem onlyTravels_of_constant (hplan : (t.plan m).value = .ok p)
    (hconstant : m.entrySpeed == m.exitSpeed) : p.OnlyTravels := by
  unfold OnlyTravels
  rw [segments_of_plan hplan]
  refine ⟨?_, fun entry hmem => ?_⟩
  · rw [ne_eq, List.map_eq_nil_iff, ← List.length_eq_zero_iff]
    exact m.length_pieces_pos.ne'
  · obtain ⟨piece, hpiece, rfl⟩ := List.mem_map.mp hmem
    obtain ⟨loops, hphase⟩ := travels_of_mem_pieces hplan hconstant hpiece
    exact ⟨loops, _, hphase⟩

theorem OnlyTravels.exists_travels (h : p.OnlyTravels) : ∃ delay, p.Travels delay := by
  obtain ⟨entry, hmem⟩ := List.exists_mem_of_ne_nil _ h.1
  obtain ⟨loops, delay, hphase⟩ := h.2 entry hmem
  exact ⟨delay, entry, hmem, loops, hphase⟩

/-- Every travel has the delay of the speed that was asked for. -/
theorem Travels.exists_magnitude (htravels : p.Travels delay) (hplan : (t.plan m).value = .ok p)
    (hconstant : m.entrySpeed == m.exitSpeed) (hsign : m.entrySpeed ≠ -0) :
    ∃ speed, Unsigned speed ∧ magnitude speed = magnitude m.entrySpeed ∧
      (t.travelDelay speed).value = delay := by
  obtain ⟨hmoves, hspeeds, -, -⟩ := Timing.plan_eq_ok hplan
  obtain ⟨v, hnonneg, hentry, hexit⟩ := Movement.exists_hasValue_speeds hspeeds hconstant
  obtain ⟨piece, hpiece, hdelay⟩ := htravels.exists_piece hplan
  have hvalue := (Movement.hasValue_speeds_of_piece hentry hexit hnonneg hmoves hpiece).1
  have hunsigned := Movement.unsigned_entrySpeed_of_piece hspeeds hsign hpiece
  refine ⟨piece.movement.entrySpeed, hunsigned, ?_, hdelay⟩
  rw [hvalue.magnitude_eq hunsigned,
    hentry.magnitude_eq (Movement.unsigned_entrySpeed hspeeds hsign)]

theorem travels_zero (ht : t.Checked) (hplan : (t.plan m).value = .ok p)
    (hconstant : m.entrySpeed == m.exitSpeed) (hsign : m.entrySpeed = -0) : p.Travels 0 := by
  obtain ⟨-, hspeeds, -, -⟩ := Timing.plan_eq_ok hplan
  obtain ⟨first, later, hpieces⟩ := List.exists_cons_of_length_pos m.length_pieces_pos
  have hpiece : first ∈ m.pieces := hpieces ▸ List.mem_cons_self
  have hentry := Movement.entrySpeed_of_head? hspeeds (hpieces ▸ List.head?_cons)
  obtain ⟨loops, hphase⟩ := travels_of_mem_pieces hplan hconstant hpiece
  rw [hentry, hsign, ht.travelDelay_neg_zero] at hphase
  refine ⟨_, ?_, loops, hphase⟩
  rw [segments_of_plan hplan]
  exact List.mem_map_of_mem hpiece

/-- Of two constant speeds the slower one never travels faster, every delay is a cycle or
more, and a speed of zero has the longest delay there is; all of this exactly as long as no
speed is minus zero. -/
theorem slower_travels_longer_iff {slow fast : Movement} {q : Plan} (hcheck : t.check = .ok ())
    (hslow : (t.plan slow).value = .ok p) (hfast : (t.plan fast).value = .ok q)
    (hconstant₁ : slow.entrySpeed == slow.exitSpeed)
    (hconstant₂ : fast.entrySpeed == fast.exitSpeed)
    (hle : slow.entrySpeed ≤ fast.entrySpeed) :
    p.OnlyTravels ∧ q.OnlyTravels ∧
      ((∀ long short, p.Travels long → q.Travels short →
          short ≤ long ∧ 1 ≤ short ∧
            (slow.entrySpeed == 0 → long = 0xFFFFFFFF) ∧
            (fast.entrySpeed == 0 → short = 0xFFFFFFFF)) ↔
        slow.entrySpeed ≠ -0 ∧ fast.entrySpeed ≠ -0) := by
  have ht := Timing.checked_of_check hcheck
  have htravels₁ := onlyTravels_of_constant hslow hconstant₁
  have htravels₂ := onlyTravels_of_constant hfast hconstant₂
  refine ⟨htravels₁, htravels₂, fun hlaw => ⟨fun hsign => ?_, fun hsign => ?_⟩, ?_⟩
  · obtain ⟨short, hshort⟩ := htravels₂.exists_travels
    obtain ⟨hbelow, hcycle, -⟩ :=
      hlaw 0 short (travels_zero ht hslow hconstant₁ hsign) hshort
    exact absurd (UInt32.le_trans hcycle hbelow) (by decide)
  · obtain ⟨long, hlong⟩ := htravels₁.exists_travels
    obtain ⟨-, hcycle, -⟩ := hlaw long 0 hlong (travels_zero ht hfast hconstant₂ hsign)
    exact absurd hcycle (by decide)
  · rintro ⟨hsign₁, hsign₂⟩ long short hlong hshort
    obtain ⟨-, hspeeds₁, -, -⟩ := Timing.plan_eq_ok hslow
    obtain ⟨-, hspeeds₂, -, -⟩ := Timing.plan_eq_ok hfast
    have hunsigned₁ := Movement.unsigned_entrySpeed hspeeds₁ hsign₁
    have hunsigned₂ := Movement.unsigned_entrySpeed hspeeds₂ hsign₂
    have hmagnitude := (le_iff hunsigned₁ hunsigned₂).mp hle
    obtain ⟨u, hu, hslowest, rfl⟩ := hlong.exists_magnitude hslow hconstant₁ hsign₁
    obtain ⟨v, hv, hfastest, rfl⟩ := hshort.exists_magnitude hfast hconstant₂ hsign₂
    refine ⟨UInt32.le_iff_toNat_le.mpr (ht.travelDelay_le hu hv ?_),
      UInt32.le_iff_toNat_le.mpr (ht.one_le_travelDelay hv), fun hzero => ?_, fun hzero => ?_⟩
    · rw [hslowest, hfastest]
      gcongr
    · exact ht.travelDelay_of_zero hu (hslowest.trans (magnitude_of_beq_zero hunsigned₁ hzero))
    · exact ht.travelDelay_of_zero hv (hfastest.trans (magnitude_of_beq_zero hunsigned₂ hzero))

/-- A stop against a movement of four divisions at five times the ceiling. -/
theorem slower_travels_longer_than_clipped :
    ∃ p q : Plan, Timing.check {} = .ok () ∧
      (Timing.plan {} (.ofSteps [10] 0 0 0)).value = .ok p ∧
      (Timing.plan {} (.ofSteps [100000, -7] 5000000 5000000 0)).value = .ok q ∧
      (0 : Float32) ≤ 5000000 ∧ q.OnlyTravels ∧
      ∀ long short, p.Travels long → q.Travels short →
        short ≤ long ∧ 1 ≤ short ∧ long = 0xFFFFFFFF := by
  obtain ⟨p, hslow⟩ : ∃ p : Plan, (Timing.plan {} (.ofSteps [10] 0 0 0)).value = .ok p := ⟨_, rfl⟩
  obtain ⟨q, hfast⟩ : ∃ q : Plan,
      (Timing.plan {} (.ofSteps [100000, -7] 5000000 5000000 0)).value = .ok q := ⟨_, rfl⟩
  have hcheck : Timing.check {} = .ok () := rfl
  have hle : (0 : Float32) ≤ 5000000 := by decide
  obtain ⟨-, htravels, hlaw⟩ :=
    slower_travels_longer_iff hcheck hslow hfast (by decide) (by decide) hle
  have hsigns : (0 : Float32) ≠ -0 ∧ (5000000 : Float32) ≠ -0 :=
    ⟨ne_neg_zero rfl, ne_neg_zero rfl⟩
  refine ⟨p, q, hcheck, hslow, hfast, hle, htravels, fun long short hlong hshort => ?_⟩
  obtain ⟨hbelow, hcycle, hrest, -⟩ := hlaw.mpr hsigns long short hlong hshort
  exact ⟨hbelow, hcycle, hrest (by decide)⟩

/-- Minus zero is zero and not above 100 steps per second, and its delay is the shortest. -/
theorem neg_zero_travels_faster :
    ∃ p q : Plan, Timing.check {} = .ok () ∧
      (Timing.plan {} (.ofSteps [10] (-0) (-0) 0)).value = .ok p ∧
      (Timing.plan {} (.ofSteps [10] 100 100 0)).value = .ok q ∧
      (-0 : Float32) ≤ 100 ∧ ((-0 : Float32) == 0) = true ∧
      p.Travels 0 ∧ q.Travels 1000000 := by
  obtain ⟨p, hslow⟩ : ∃ p : Plan, (Timing.plan {} (.ofSteps [10] (-0) (-0) 0)).value = .ok p :=
    ⟨_, rfl⟩
  obtain ⟨q, hfast⟩ : ∃ q : Plan, (Timing.plan {} (.ofSteps [10] 100 100 0)).value = .ok q :=
    ⟨_, rfl⟩
  have hcheck : Timing.check {} = .ok () := rfl
  have hpieces : (Movement.ofSteps [10] 100 100 0).pieces = [⟨.ofSteps [10] 100 100 0, 10⟩] := rfl
  refine ⟨p, q, hcheck, hslow, hfast, by decide, by decide,
    travels_zero (Timing.checked_of_check hcheck) hslow (by decide) rfl,
    Timing.synthesize {} (.ofSteps [10] 100 100 0) 10, ?_, 20, by decide +kernel⟩
  rw [segments_of_plan hfast, hpieces]
  exact List.mem_singleton_self _

end Plan

end PulseTrain
