import PulseTrain.Division
import PulseTrain.Proofs.Binary.Single

/-!
# Speeds between divisions

A division starts at the speed at which the one before it ended.  That speed is a
square root or zero and so carries no sign; the requested final speed may, but
nothing starts from it.
-/

namespace PulseTrain

open Float.Model Float.Model.UnpackedFloat

namespace Binary

theorem unsigned_convert {F : Format} {u : UnpackedFloat} (hF : 2 ≤ F.exponentBits)
    (h : Unsigned u) : Unsigned (unpack F (pack F (convert F u))) := by
  cases u with
  | notANumber => exact h.elim
  | infinity =>
    cases h
    exact gives_infinity.unsigned
  | zero =>
    cases h
    exact gives_zero.unsigned
  | finite s m e hm =>
    cases h
    exact ((rounds_round .positive hm e).gives hF (finite_value_pos hm e).le).unsigned

theorem unsigned_widen {x : Float32} (h : Single.Unsigned x) :
    Unsigned (widen x).toModel.unpack :=
  unsigned_convert (F := .binary64) (by decide) h

theorem unsigned_narrow {x : Float} (h : Unsigned x.toModel.unpack) :
    Single.Unsigned (narrow x) :=
  unsigned_convert (F := .binary32) (by decide) h

end Binary

namespace Divisions

theorem unsigned_speedAfter (d : Divisions) (steps : UInt32) :
    Binary.Unsigned (d.speedAfter steps).toModel.unpack := by
  unfold speedAfter
  extract_lets square
  by_cases hpos : 0 < square
  · rw [if_pos hpos]
    exact Binary.unsigned_sqrt (F := .binary64) (by decide)
      (Binary.unsigned_of_pos (of_decide_eq_true hpos)).1
  · rw [if_neg hpos]
    rfl

/-- A division starts at the speed reached, and the next one where it ends. -/
theorem speed_next? {d rest : Divisions} {division : Division}
    (h : d.next? = some (division, rest)) :
    division.movement.entrySpeed = Binary.narrow d.speed ∧
      (rest.remaining ≠ 0 → rest.speed = d.speedAfter division.definingSteps) := by
  unfold next? at h
  split at h
  · cases h
  next hremaining =>
    cases h
    exact ⟨rfl, fun hmore => if_neg hmore⟩

theorem unsigned_entrySpeed {d : Divisions} {division : Division}
    (hspeed : d.remaining ≠ 0 → Binary.Unsigned d.speed.toModel.unpack)
    (hmem : division ∈ d.toList) : Single.Unsigned division.movement.entrySpeed := by
  match hnext : d.next? with
  | none =>
    rw [toList_of_next?_eq_none hnext] at hmem
    cases hmem
  | some (first, rest) =>
    have hlt := remaining_lt hnext
    obtain ⟨hmore, -⟩ := remaining_next? hnext
    obtain ⟨hentry, hexit⟩ := speed_next? hnext
    rw [toList_of_next?_eq_some hnext, List.mem_cons] at hmem
    rcases hmem with rfl | hlater
    · rw [hentry]
      exact Binary.unsigned_narrow (hspeed hmore)
    · refine unsigned_entrySpeed (fun hmore => ?_) hlater
      rw [hexit hmore]
      exact unsigned_speedAfter d first.definingSteps
termination_by d.remaining.toNat

end Divisions

end PulseTrain
