import PulseTrain.Binary.Rounding
import PulseTrain.Movement

/-!
# Divisions

A segment counts its loops in sixteen bits, so a long movement is played in
several divisions.  Every axis makes an equal share of its steps in each of
them.  The share is kept in fixed point with 32 fractional bits and rounded up
a little; the whole part of the running sum is the position, so the differences
of successive positions add up to the steps that were asked for.

One acceleration is worked out for the whole movement.  Speeds are followed with it
in double precision, since squares of speeds grow large and single precision would
drift too far for a stop to end at rest.
-/

namespace PulseTrain

/-- The most steps of the defining axis that one segment can hold. -/
def stepsPerSegment : UInt32 := 32767

def divisionCount (definingSteps : UInt32) : UInt32 := definingSteps / stepsPerSegment + 1

/-- One piece of a movement, with the steps of the axis that moves furthest in
this piece. -/
structure Division where
  movement : Movement
  definingSteps : UInt32

/-- An equal share of `steps` with 32 fractional bits, and one unit more so
that truncation never leaves the total one step short. -/
def share (steps : Int32) (divisions : UInt32) : Int64 :=
  (steps.toInt64 <<< 32) / divisions.toUInt64.toInt64 + 1

/-- The steps completed at a position with 32 fractional bits. -/
def wholeSteps (position : Int64) : Int32 := (position >>> 32).toInt32

structure Divisions where
  /-- The share of every axis in one division. -/
  shares : Axes Int64
  /-- The sum of the shares so far. -/
  progress : Axes Int64
  position : Axes Int32
  acceleration : Float
  /-- The speed at which the next division starts. -/
  speed : Float
  finalSpeed : Float
  outputs : UInt16
  remaining : UInt32

namespace Divisions

def ofMovement (m : Movement) (definingSteps : UInt32) : Divisions :=
  let count := divisionCount definingSteps
  let entry := Binary.widen m.entrySpeed
  let final := Binary.widen m.exitSpeed
  { shares := m.steps.map (share · count)
    progress := Vector.replicate axisCount 0
    position := Vector.replicate axisCount 0
    acceleration := (final * final - entry * entry) / (2 * definingSteps.toFloat)
    speed := entry
    finalSpeed := final
    outputs := m.outputs
    remaining := count }

/-- The speed after `steps` steps under the constant acceleration.  Rounding
can push its square just below zero at a stop. -/
def speedAfter (d : Divisions) (steps : UInt32) : Float :=
  let square := d.speed * d.speed + 2 * d.acceleration * steps.toFloat
  if 0 < square then square.sqrt else 0

def next? (d : Divisions) : Option (Division × Divisions) :=
  if d.remaining = 0 then none else
    let remaining := d.remaining - 1
    let progress := d.progress.zipWith (· + ·) d.shares
    let position := progress.map wholeSteps
    let steps := position.zipWith (· - ·) d.position
    let definingSteps := largestMagnitude steps
    let exit := if remaining = 0 then d.finalSpeed else d.speedAfter definingSteps
    let movement :=
      { steps
        entrySpeed := Binary.narrow d.speed
        exitSpeed := Binary.narrow exit
        outputs := d.outputs }
    some (⟨movement, definingSteps⟩, { d with progress, position, speed := exit, remaining })

theorem remaining_next? {d rest : Divisions} {division : Division}
    (h : d.next? = some (division, rest)) :
    d.remaining ≠ 0 ∧ rest.remaining = d.remaining - 1 := by
  unfold next? at h
  split at h
  · cases h
  · next hne =>
    cases h
    exact ⟨hne, rfl⟩

theorem remaining_lt {d rest : Divisions} {division : Division}
    (h : d.next? = some (division, rest)) : rest.remaining.toNat < d.remaining.toNat := by
  obtain ⟨hne, hrest⟩ := remaining_next? h
  have : d.remaining.toNat ≠ 0 := fun hz => hne (UInt32.toNat_inj.mp hz)
  rw [hrest, UInt32.toNat_sub_of_le _ _ (by
    rw [UInt32.le_iff_toNat_le]
    exact Nat.one_le_iff_ne_zero.mpr this)]
  have : (1 : UInt32).toNat = 1 := rfl
  omega

/-- Divisions in the order in which they are played, after those in `played`,
which come latest first. -/
def collect (played : List Division) (d : Divisions) : List Division :=
  match h : d.next? with
  | none => played.reverse
  | some (division, rest) =>
    have := remaining_lt h
    rest.collect (division :: played)
termination_by d.remaining.toNat

def toList (d : Divisions) : List Division := d.collect []

theorem collect_of_next?_eq_none (played : List Division) {d : Divisions}
    (h : d.next? = none) : d.collect played = played.reverse := by
  rw [collect]
  split
  · rfl
  · simp_all

theorem collect_of_next?_eq_some (played : List Division) {d rest : Divisions}
    {division : Division} (h : d.next? = some (division, rest)) :
    d.collect played = rest.collect (division :: played) := by
  rw [collect]
  split <;> simp_all

theorem collect_eq_append (played : List Division) (d : Divisions) :
    d.collect played = played.reverse ++ d.toList := by
  match h : d.next? with
  | none => simp [toList, collect_of_next?_eq_none _ h]
  | some (division, rest) =>
    have := remaining_lt h
    rw [toList, collect_of_next?_eq_some _ h, collect_of_next?_eq_some _ h,
      collect_eq_append (division :: played) rest, collect_eq_append [division] rest]
    simp
termination_by d.remaining.toNat

theorem toList_of_next?_eq_none {d : Divisions} (h : d.next? = none) : d.toList = [] :=
  collect_of_next?_eq_none [] h

theorem toList_of_next?_eq_some {d rest : Divisions} {division : Division}
    (h : d.next? = some (division, rest)) : d.toList = division :: rest.toList := by
  rw [toList, collect_of_next?_eq_some _ h, collect_eq_append]
  rfl

theorem next?_eq_none_iff {d : Divisions} : d.next? = none ↔ d.remaining = 0 := by
  unfold next?
  split <;> simp_all

/-- The number of divisions that is announced is the number that comes. -/
@[simp] theorem length_toList (d : Divisions) : d.toList.length = d.remaining.toNat := by
  match h : d.next? with
  | none =>
    rw [toList_of_next?_eq_none h, next?_eq_none_iff.mp h]
    rfl
  | some (division, rest) =>
    have hlt := remaining_lt h
    obtain ⟨hne, hrest⟩ := remaining_next? h
    rw [toList_of_next?_eq_some h, List.length_cons, length_toList rest, hrest]
    rw [UInt32.toNat_sub_of_le _ _ (by
      rw [UInt32.le_iff_toNat_le]
      have : (1 : UInt32).toNat = 1 := rfl
      omega)]
    have : (1 : UInt32).toNat = 1 := rfl
    omega
termination_by d.remaining.toNat

end Divisions

end PulseTrain
