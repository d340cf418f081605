import PulseTrain.Decimal.Shortest

/-!
# Numbers in messages

The text of a binary number in a message: its shortest decimal written out in
full, never with an exponent.  What a whole number ends in is a matter of style.
-/

namespace PulseTrain.Decimal

open Float.Model

/-- How numbers are written where several ways are in use. -/
structure Style where
  /-- Written after a number without a fractional part. -/
  wholeEnding : String

/-- Speeds and frequencies are written as short as they can be. -/
def Style.plain : Style := { wholeEnding := "" }

/-- A number that is quoted from a document keeps a fractional part. -/
def Style.quoted : Style := { wholeEnding := ".0" }

def positional (style : Style) (d : Decimal) : String :=
  let digits := toString d.digits
  let places := (-d.exponent).toNat
  if places = 0 then
    digits ++ String.ofList (List.replicate d.exponent.toNat '0') ++ style.wholeEnding
  else
    let padded := List.replicate (places + 1 - digits.length) '0' ++ digits.toList
    let whole := padded.length - places
    String.ofList (padded.take whole) ++ "." ++ String.ofList (padded.drop whole)

def signText : UnpackedFloat.Sign → String
  | .positive => ""
  | .negative => "-"

def text (style : Style) (format : Format) : UnpackedFloat → String
  | .notANumber => "NaN"
  | .infinity sign => signText sign ++ "inf"
  | .zero sign => signText sign ++ "0" ++ style.wholeEnding
  | .finite sign mantissa exponent _ =>
    signText sign ++ (shortest format mantissa exponent).positional style

def ofSingle (x : Float32) : String := text .plain .binary32 x.toModel.unpack

def ofDouble (x : Float) : String := text .quoted .binary64 x.toModel.unpack

end PulseTrain.Decimal
