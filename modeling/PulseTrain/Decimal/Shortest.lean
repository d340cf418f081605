/-!
# Shortest decimals

The decimal with the fewest digits that reads back as a given binary number.
The reals that round to a number form an interval around it.  On each power of
ten there is a grid of decimals; the coarsest grid with a point in the interval
gives the fewest digits, and of the two neighbours of the number on that grid
the nearer one is taken, the upper one when both are equally near.
-/

namespace PulseTrain

open Float.Model

structure Decimal where
  digits : Nat
  exponent : Int
  deriving DecidableEq, Repr

namespace Decimal

/-- A positive number `value / scale` together with the ends of the interval
of reals that round to it, on the same scale. -/
structure Interval where
  low : Nat
  value : Nat
  high : Nat
  scale : Nat
  /-- Whether the ends themselves round to the number. -/
  closed : Bool

namespace Interval

/-- The reals that round to `mantissa * 2 ^ exponent`.  A number at the bottom
of its binade has its lower neighbour only half as far away as its upper one,
unless it lies on the coarsest grid of the format. -/
def ofFinite (format : Format) (mantissa : Nat) (exponent : Int) : Interval :=
  let unit := 1 <<< exponent.toNat
  let bottom :=
    mantissa == 1 <<< format.mantissaBitsWithoutImplicit && decide (format.minExponent < exponent)
  { low := (4 * mantissa - if bottom then 1 else 2) * unit
    value := 4 * mantissa * unit
    high := (4 * mantissa + 2) * unit
    scale := 4 <<< (-exponent).toNat
    closed := mantissa % 2 = 0 }

def magnify (factor : Nat) (i : Interval) : Interval :=
  { i with low := i.low * factor, value := i.value * factor, high := i.high * factor }

/-- The same reals measured in units of `10 ^ exponent`. -/
def inUnits (exponent : Int) (i : Interval) : Interval :=
  { i.magnify (Nat.pow 10 (-exponent).toNat) with
    scale := i.scale * Nat.pow 10 exponent.toNat }

def holds (i : Interval) (n : Nat) : Bool :=
  if i.closed then i.low ≤ n * i.scale && n * i.scale ≤ i.high
  else i.low < n * i.scale && n * i.scale < i.high

def nearest? (i : Interval) : Option Nat :=
  let below := i.value / i.scale
  let above := below + 1
  let nearer := if 2 * (i.value % i.scale) < i.scale then below else above
  [nearer, below, above].find? i.holds

end Interval

/-- Powers of ten from above the largest finite number down to below the
smallest positive one. -/
def exponents : List Int := (List.range 650).map fun n : Nat => 310 - (n : Int)

def Interval.shortest? (i : Interval) : Option Decimal :=
  exponents.findSome? fun exponent =>
    (i.inUnits exponent).nearest?.map fun digits => { digits, exponent }

/-- The shortest decimal that reads back as `mantissa * 2 ^ exponent`. -/
def shortest (format : Format) (mantissa : Nat) (exponent : Int) : Decimal :=
  (Interval.ofFinite format mantissa exponent).shortest?.getD ⟨0, 0⟩

end Decimal

end PulseTrain
