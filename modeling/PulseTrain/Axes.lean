/-!
# Axes

A machine drives eight axes.  Quantities that exist once per axis are kept in
a vector of that length, and yes-or-no facts about all axes are packed into a
mask, axis `i` at bit `i`.
-/

namespace PulseTrain

abbrev axisCount : Nat := 8

abbrev Axis := Fin axisCount

abbrev Axes (α : Type) := Vector α axisCount

namespace Axes

/-- The given values on the first axes and `rest` on the others; values past
the last axis are dropped. -/
def ofList (rest : α) (values : List α) : Axes α :=
  Vector.ofFn fun axis => values.getD axis.val rest

@[simp] theorem get_map (f : α → β) (values : Axes α) (axis : Axis) :
    (values.map f).get axis = f (values.get axis) :=
  Vector.getElem_map f axis.isLt

@[simp] theorem get_zipWith (f : α → β → γ) (first : Axes α) (second : Axes β) (axis : Axis) :
    (first.zipWith f second).get axis = f (first.get axis) (second.get axis) :=
  Vector.getElem_zipWith axis.isLt

@[simp] theorem get_replicate (value : α) (axis : Axis) :
    (Vector.replicate axisCount value).get axis = value :=
  Vector.getElem_replicate axis.isLt

end Axes

/-- A set of axes, one bit for each. -/
abbrev AxisMask := BitVec axisCount

namespace AxisMask

/-- The axes at which the given vector holds `true`. -/
def ofAxes (flags : Axes Bool) : AxisMask :=
  (BitVec.iunfoldr (fun axis (_ : Unit) => ((), flags.get axis)) ()).2

def contains (mask : AxisMask) (axis : Axis) : Bool := mask.getLsbD axis.val

def toAxes (mask : AxisMask) : Axes Bool := Vector.ofFn mask.contains

@[simp] theorem contains_ofAxes (flags : Axes Bool) (axis : Axis) :
    (ofAxes flags).contains axis = flags.get axis := by
  unfold ofAxes contains
  rw [BitVec.iunfoldr_getLsbD (fun _ => ()) axis (fun _ => rfl)]

@[simp] theorem contains_and (first second : AxisMask) (axis : Axis) :
    contains (first &&& second) axis = (first.contains axis && second.contains axis) :=
  BitVec.getLsbD_and

@[simp] theorem contains_not (mask : AxisMask) (axis : Axis) :
    contains (~~~mask) axis = !mask.contains axis := by
  have := axis.isLt
  simp [contains, this]

@[simp] theorem get_toAxes (mask : AxisMask) (axis : Axis) :
    mask.toAxes.get axis = mask.contains axis := by
  simp [toAxes, Vector.get]
  rfl

end AxisMask

end PulseTrain
