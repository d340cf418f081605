/-!
# Rounding binary numbers

Changes of precision and rounding to whole numbers, each made in one step from
the exact value.  A finite binary number is a sign, a mantissa and a power of
two, so widening, narrowing and rounding are arithmetic on natural numbers with
a single rounding at the end.
-/

namespace PulseTrain.Binary

open Float.Model

/-- The number of the given format that is nearest to `x`, ties to even. -/
def convert (format : Format) : UnpackedFloat → UnpackedFloat
  | .finite sign mantissa exponent _ => .round format sign mantissa exponent
  | x => x

/-- The double precision number with the same value; every single precision
number has one. -/
def widen (x : Float32) : Float :=
  .ofModel (.pack (convert .binary64 x.toModel.unpack))

/-- The single precision number nearest to `x`, ties to even; numbers beyond
the largest one become infinite. -/
def narrow (x : Float) : Float32 :=
  .ofModel (.pack (convert .binary32 x.toModel.unpack))

/-- The whole number nearest to `mantissa * 2 ^ exponent`, a half going up. -/
def nearestNat (mantissa : Nat) (exponent : Int) : Nat :=
  if 0 ≤ exponent then
    mantissa <<< exponent.toNat
  else
    (2 * mantissa + 1 <<< (-exponent).toNat) >>> ((-exponent).toNat + 1)

/-- The whole number nearest to a positive number, a half going up.  Negative
numbers and indeterminate ones have none and give zero, and so does infinity. -/
def wholePart : UnpackedFloat → Nat
  | .finite .positive mantissa exponent _ => nearestNat mantissa exponent
  | _ => 0

/-- The whole number nearest to a finite positive `x`, and zero for any other. -/
def roundNat (x : Float32) : Nat := wholePart x.toModel.unpack

end PulseTrain.Binary
