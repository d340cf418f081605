import PulseTrain.Document.Number

/-!
# Dates and times in documents

A date, a time of day, or both with an optional offset from universal time.
No setting is a date, so only that it is well formed matters.
-/

namespace PulseTrain.Document

open Reader

def fixedNumber (digits : Nat) : Reader Nat := do
  return ofDigits 10 (← (List.replicate digits (digit 10)).mapM id)

def twoDigits (low high : Nat) : Reader Nat :=
  guarded (fun n => decide (low ≤ n ∧ n ≤ high)) (fixedNumber 2)

def isLeapYear (year : Nat) : Bool :=
  year % 4 == 0 && (year % 100 != 0 || year % 400 == 0)

def daysInMonth (year month : Nat) : Nat :=
  if month = 2 then (if isLeapYear year then 29 else 28)
  else if month ∈ [4, 6, 9, 11] then 30 else 31

def date : Reader Unit := do
  let year ← fixedNumber 4
  char '-'
  let month ← twoDigits 1 12
  char '-'
  discard (twoDigits 1 (daysInMonth year month))

/-- A time of day with seconds, which reach 60 when a leap second is added. -/
def timeOfDay : Reader Unit := do
  discard (twoDigits 0 23)
  char ':'
  discard (twoDigits 0 59)
  char ':'
  discard (twoDigits 0 60)
  discard (optional (do char '.'; discard (someRun isAsciiDigit)))

def offset : Reader Unit :=
  char 'Z' <|> char 'z' <|> (do
    char '+' <|> char '-'
    discard (twoDigits 0 23)
    char ':'
    discard (twoDigits 0 59))

def dateAndTime : Reader Unit := do
  date
  discard (optional (do
    char 'T' <|> char 't' <|> char ' '
    timeOfDay
    discard (optional offset)))

def moment : Reader Unit := dateAndTime <|> timeOfDay

end PulseTrain.Document
