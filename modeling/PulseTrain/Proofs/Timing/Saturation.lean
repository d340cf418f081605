import PulseTrain.Proofs.Plan.Segments
import PulseTrain.Proofs.Timing.Delays

/-!
# Clamped cycle counts

A field of 32 bits has its largest value only where a count was clamped.  A single
precision number below `2 ^ 32` is even if it is above `2 ^ 24`, so that none of them
rounds to `2 ^ 32 - 1`, and a negative or indeterminate count is taken for zero.
Every clamping is reported at once, so the warnings of a segment are its clamped
counts, whatever the formulas of a ramp give.
-/

namespace PulseTrain

open Single

/-! ## Warnings -/

namespace Logged

def warnings (x : Logged α) : List Event := x.events.filter (·.level = .warning)

@[simp] theorem warnings_pure (a : α) : (pure a : Logged α).warnings = [] := rfl

@[simp] theorem warnings_bind (x : Logged α) (f : α → Logged β) :
    (x >>= f).warnings = x.warnings ++ (f x.value).warnings := by
  simp [warnings]

@[simp] theorem value_map (f : α → β) (x : Logged α) : (f <$> x).value = f x.value := rfl

@[simp] theorem warnings_map (f : α → β) (x : Logged α) : (f <$> x).warnings = x.warnings := by
  change (x >>= fun a => pure (f a)).warnings = x.warnings
  simp

end Logged

/-! ## Counts and fields -/

/-- The field holds the whole number nearest to `x`, or its largest value if `x` is
too large for a field. -/
structure Holds (x : Float32) (field : UInt32) : Prop where
  eq_max_iff : field = 0xFFFFFFFF ↔ cycleLimit ≤ x
  toNat_eq : ¬cycleLimit ≤ x → field.toNat = Binary.roundNat x

theorem holds_cycleCount (x : Float32) : Holds x (cycleCount x).value := by
  by_cases hlarge : cycleLimit ≤ x
  · simp [cycleCount, hlarge, Holds.mk]
  · have hvalue := toNat_cycleCount_of_not_le hlarge
    have hfits := roundNat_add_one_lt_of_not_le hlarge
    have hmax : (cycleCount x).value ≠ 0xFFFFFFFF := by
      intro h
      have : Binary.roundNat x = 4294967295 := by rw [← hvalue, h]; rfl
      omega
    exact ⟨by simp [hmax, hlarge], fun _ => hvalue⟩

theorem length_filter_of_holds {counts : List Float32} {fields : List UInt32}
    (h : List.Forall₂ Holds counts fields) :
    (counts.filter (cycleLimit ≤ ·)).length = fields.count 0xFFFFFFFF := by
  induction h with
  | nil => rfl
  | @cons x field _ _ hfield _ ih =>
    by_cases hlarge : cycleLimit ≤ x <;>
      simp [List.count_cons, hfield.eq_max_iff, hlarge, ih]

/-- The fields hold the counts and the warnings are those that were clamped, in order. -/
structure Clamped (counts : List Float32) (fields : List UInt32) (warnings : List Event) :
    Prop where
  holds : List.Forall₂ Holds counts fields
  warnings_eq : warnings = (counts.filter (cycleLimit ≤ ·)).map .tooSlow

theorem clamped_cycleCount (x : Float32) :
    Clamped [x] [(cycleCount x).value] (cycleCount x).warnings := by
  refine ⟨.cons (holds_cycleCount x) .nil, ?_⟩
  by_cases hlarge : cycleLimit ≤ x <;>
    simp [cycleCount, hlarge, Logged.warnings, Event.level]

theorem Clamped.append {counts counts' : List Float32} {fields fields' : List UInt32}
    {warnings warnings' : List Event} (h : Clamped counts fields warnings)
    (h' : Clamped counts' fields' warnings') :
    Clamped (counts ++ counts') (fields ++ fields') (warnings ++ warnings') where
  holds := List.rel_append h.holds h'.holds
  warnings_eq := by simp [h.warnings_eq, h'.warnings_eq]

/-! ## Phases and segments -/

/-- The fields of a phase that hold cycle counts. -/
def Phase.cycleFields : Phase → List UInt32
  | .travel _ delayCycles => [delayCycles]
  | .accelerate ramp | .decelerate ramp => [ramp.seriesIndex, ramp.fineCycles]

namespace Timing

def rampCounts (t : Timing) (entrySquare acceleration : Float32) (seriesIndex : UInt32) :
    List Float32 :=
  [loopsPerStep.toFloat32 * entrySquare / (2 * acceleration),
    32 * rampDelay t.clock acceleration seriesIndex]

/-- The counts from which the fields of a phase are rounded. -/
def cycleCounts (t : Timing) (m : Movement) (definingSteps : UInt32) : Phase → List Float32
  | .travel .. =>
    [t.clock.hertz / (loopsPerStep.toFloat32 * lesser m.entrySpeed t.ceiling.hertz)]
  | .accelerate ramp =>
    t.rampCounts (m.entrySpeed * m.entrySpeed)
      ((m.exitSpeed * m.exitSpeed - m.entrySpeed * m.entrySpeed) /
        (2 * definingSteps.toFloat32)) ramp.seriesIndex
  | .decelerate ramp =>
    t.rampCounts (m.entrySpeed * m.entrySpeed)
      ((m.entrySpeed * m.entrySpeed - m.exitSpeed * m.exitSpeed) /
        (2 * definingSteps.toFloat32)) ramp.seriesIndex

theorem clamped_ramp (t : Timing) (loops : UInt16) (entrySquare acceleration : Float32) :
    Clamped
      (t.rampCounts entrySquare acceleration
        (t.ramp loops entrySquare acceleration).value.seriesIndex)
      [(t.ramp loops entrySquare acceleration).value.seriesIndex,
        (t.ramp loops entrySquare acceleration).value.fineCycles]
      (t.ramp loops entrySquare acceleration).warnings := by
  have hindex :=
    clamped_cycleCount (loopsPerStep.toFloat32 * entrySquare / (2 * acceleration))
  have hfine := clamped_cycleCount (32 * rampDelay t.clock acceleration
    (t.ramp loops entrySquare acceleration).value.seriesIndex)
  simpa [ramp, rampCounts] using hindex.append hfine

theorem clamped_phase (t : Timing) (m : Movement) (definingSteps : UInt32) :
    Clamped (t.cycleCounts m definingSteps (t.phase m definingSteps).value)
      (t.phase m definingSteps).value.cycleFields (t.phase m definingSteps).warnings := by
  unfold phase
  simp only
  split
  next =>
    rw [Logged.value_map, Logged.warnings_map]
    exact clamped_cycleCount _
  next =>
    split <;>
    · rw [Logged.value_map, Logged.warnings_map]
      exact t.clamped_ramp _ _ _

theorem clamped_synthesize (t : Timing) (m : Movement) (definingSteps : UInt32) :
    Clamped (t.cycleCounts m definingSteps (t.synthesize m definingSteps).value.phase)
      (t.synthesize m definingSteps).value.phase.cycleFields
      (t.synthesize m definingSteps).warnings := by
  have hreport : (Logged.report (.synthesized m.reversed)).warnings = [] := rfl
  simpa [synthesize, hreport] using t.clamped_phase m definingSteps

end Timing

/-- A segment has as many warnings as fields with the largest value.  Its fields hold the
counts of its piece of the movement, and its warnings are those that did not fit. -/
theorem Plan.clamping_reported {t : Timing} {m : Movement} {p : Plan}
    (hplan : (t.plan m).value = .ok p) {k : ℕ} {entry : Logged Segment}
    (hentry : p.segments[k]? = some entry) :
    entry.warnings.length = entry.value.phase.cycleFields.count 0xFFFFFFFF ∧
      ∃ piece : Division, m.pieces[k]? = some piece ∧
        Clamped (t.cycleCounts piece.movement piece.definingSteps entry.value.phase)
          entry.value.phase.cycleFields entry.warnings := by
  obtain ⟨piece, hpiece, rfl, -⟩ := Plan.exists_piece_of_segment hplan hentry
  have hclamped := t.clamped_synthesize piece.movement piece.definingSteps
  refine ⟨?_, piece, hpiece, hclamped⟩
  rw [hclamped.warnings_eq, List.length_map]
  exact length_filter_of_holds hclamped.holds

/-- A ramp to 200 steps per second over 30000 steps starts too slowly for the timer. -/
theorem Plan.clamping_reported_of_slow_ramp :
    ∃ (p : Plan) (entry : Logged Segment),
      (Timing.plan {} (.ofSteps [30000] 0 200 0)).value = .ok p ∧
      p.segments[0]? = some entry ∧
      entry.value.phase.cycleFields = [0, 0xFFFFFFFF] ∧ entry.warnings.length = 1 := by
  obtain ⟨p, hplan⟩ : ∃ p : Plan, (Timing.plan {} (.ofSteps [30000] 0 200 0)).value = .ok p :=
    ⟨_, rfl⟩
  have hentry : p.segments[0]? = some (Timing.synthesize {} (.ofSteps [30000] 0 200 0) 30000) := by
    rw [Plan.segments_of_fits hplan (by decide)]
    rfl
  have hfields : (Timing.synthesize {} (.ofSteps [30000] 0 200 0) 30000).value.phase.cycleFields =
      [0, 0xFFFFFFFF] := by decide +kernel
  refine ⟨p, _, hplan, hentry, hfields, ?_⟩
  rw [(Plan.clamping_reported hplan hentry).1, hfields]
  rfl

end PulseTrain
