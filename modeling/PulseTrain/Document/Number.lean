import PulseTrain.Document.Text

/-!
# Numbers in documents

Whole numbers are written in decimal with an optional sign, or in hexadecimal,
octal or binary without one.  A floating-point number has a fraction, an
exponent or both, or it is infinite or indeterminate by name.  Single
underscores may stand between digits.
-/

namespace PulseTrain.Document

open Reader

def digitRun (digit : Reader Nat) : Reader (List Nat) := do
  let first ← digit
  return first :: (← many (do discard (optional (char '_')); digit))

def ofDigits (base : Nat) (digits : List Nat) : Nat :=
  digits.foldl (fun n digit => base * n + digit) 0

/-- A digit of the given base, ten at most or sixteen. -/
def digit (base : Nat) : Reader Nat := guarded (fun d => decide (d < base)) hexDigit

/-- An optional sign; `true` means negative. -/
def sign : Reader Bool := (do char '-'; return true) <|> (do char '+'; return false) <|> pure false

/-- The digits of a decimal number without superfluous zeros in front. -/
def decimalDigits : Reader (List Nat) :=
  (do char '0'; return [0]) <|> digitRun (digit 10)

def signed (negative : Bool) (n : Nat) : Int := if negative then -(n : Int) else n

def fitsWord (n : Int) : Bool := decide (Int64.minValue.toInt ≤ n ∧ n ≤ Int64.maxValue.toInt)

def based (mark : String) (base : Nat) : Reader Int := do
  exactly mark
  return ofDigits base (← digitRun (digit base))

def decimalInteger : Reader Int := do
  let negative ← sign
  return signed negative (ofDigits 10 (← decimalDigits))

def integer : Reader Int :=
  guarded fitsWord (based "0x" 16 <|> based "0o" 8 <|> based "0b" 2 <|> decimalInteger)

/-- The double precision number nearest to `mantissa * 10 ^ exponent`.  Numbers
far outside the range of finite numbers are recognised by their size, so that
no large power has to be computed. -/
def nearestDouble (mantissa : Nat) (exponent : Int) : Float :=
  let magnitude := (Nat.toDigits 10 mantissa).length + exponent
  if mantissa = 0 || decide (magnitude < -400) then 0
  else if 400 < magnitude then Float.ofBits 0x7FF0000000000000
  else Float.ofScientific mantissa (decide (exponent < 0)) exponent.natAbs

def fraction : Reader (List Nat) := do
  char '.'
  digitRun (digit 10)

def exponent : Reader Int := do
  char 'e' <|> char 'E'
  let negative ← sign
  return signed negative (ofDigits 10 (← digitRun (digit 10)))

def fractionAndExponent : Reader (List Nat × Int) :=
  (do return ([], ← exponent)) <|> (do
    let fraction ← fraction
    return (fraction, (← optional exponent).getD 0))

def negateIf (negative : Bool) (x : Float) : Float := if negative then -x else x

/-- A number written in decimal.  One that is too large is refused, unless it
is negative: then it is minus infinity. -/
def decimalFloat : Reader Float :=
  guarded (fun x => !(x.isInf && 0 < x)) do
    let negative ← sign
    let whole ← decimalDigits
    let (fraction, exponent) ← fractionAndExponent
    return negateIf negative
      (nearestDouble (ofDigits 10 (whole ++ fraction)) (exponent - fraction.length))

def namedFloat : Reader Float := do
  let negative ← sign
  let size ←
    (do exactly "inf"; return Float.ofBits 0x7FF0000000000000) <|>
    (do exactly "nan"; return Float.ofBits 0x7FF8000000000000)
  return negateIf negative size

def float : Reader Float := decimalFloat <|> namedFloat

end PulseTrain.Document
