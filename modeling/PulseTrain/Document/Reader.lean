/-!
# Readers

A reader takes a value off the front of a text or refuses.  A refusal consumes
nothing, so an alternative reads from the same place.  Repetition is bounded by
the length of the text that is left, which is enough for every reader that
takes at least one character.
-/

namespace PulseTrain.Document

abbrev Reader := StateT (List Char) Option

namespace Reader

def satisfy (p : Char → Bool) : Reader Char
  | c :: rest => if p c then some (c, rest) else none
  | [] => none

def char (c : Char) : Reader Unit := discard (satisfy (· == c))

def exactly (text : String) : Reader Unit := text.toList.forM char

def finish : Reader Unit
  | [] => some ((), [])
  | _ :: _ => none

/-- All characters up to the first one that does not satisfy `p`. -/
def run (p : Char → Bool) : Reader (List Char) := fun text => some (text.span p)

def someRun (p : Char → Bool) : Reader (List Char) := do
  let c ← satisfy p
  return c :: (← run p)

/-- Repeats a reader until it refuses, at most `bound` times. -/
def repeatUpTo (r : Reader α) : Nat → Reader (List α)
  | 0 => pure []
  | bound + 1 => (do
      let first ← r
      return first :: (← repeatUpTo r bound)) <|> pure []

/-- Repeats a reader until it refuses. -/
def many (r : Reader α) : Reader (List α) := fun text => repeatUpTo r text.length text

def separated (separator : Reader Unit) (r : Reader α) : Reader (List α) := do
  let first ← r
  return first :: (← many (do separator; r))

def guarded (p : α → Bool) (r : Reader α) : Reader α := do
  let a ← r
  if p a then return a else failure

def filterMap (f : α → Option β) (r : Reader α) : Reader β := do
  match f (← r) with
  | some b => return b
  | none => failure

end Reader

/-! ### Blanks, line ends and comments -/

open Reader

def isBlank (c : Char) : Bool := c == ' ' || c == '\t'

def isAsciiDigit (c : Char) : Bool := '0' ≤ c && c ≤ '9'

/-- Characters outside ASCII stand in texts and comments as they are. -/
def isForeign (c : Char) : Bool := 0x80 ≤ c.val

/-- A character that is neither a control character nor a line end. -/
def isVisible (c : Char) : Bool := c == '\t' || (' ' ≤ c && c ≤ '~') || isForeign c

def blanks : Reader Unit := discard (run isBlank)

/-- A line feed, with or without a carriage return in front. -/
def newline : Reader Unit := exactly "\n" <|> exactly "\r\n"

def comment : Reader Unit := do
  char '#'
  discard (run isVisible)

/-- The rest of a line that holds nothing more than a comment. -/
def lineEnd : Reader Unit := do
  blanks
  discard (optional comment)
  newline <|> finish

def spacing : Reader Unit :=
  discard (many (discard (someRun isBlank) <|> newline <|> (do comment; newline)))

end PulseTrain.Document
