import PulseTrain.Document.Reader

/-!
# Texts in documents

Four ways to write a text: between double quotes with escapes or between single
quotes as it is, on one line or, with three quotes on each side, on several.  A
line end inside a text counts as a line feed however it is written.
-/

namespace PulseTrain.Document

open Reader

def hexValue? (c : Char) : Option Nat :=
  if isAsciiDigit c then some (c.toNat - '0'.toNat)
  else if 'a' ≤ c && c ≤ 'f' then some (c.toNat - 'a'.toNat + 10)
  else if 'A' ≤ c && c ≤ 'F' then some (c.toNat - 'A'.toNat + 10)
  else none

def hexDigit : Reader Nat := filterMap hexValue? (satisfy fun _ => true)

/-- The character with a code of exactly `digits` hexadecimal digits. -/
def codePoint (digits : Nat) : Reader Char := do
  let values ← (List.replicate digits hexDigit).mapM id
  let code := values.foldl (fun n value => 16 * n + value) 0
  if h : code.isValidChar then return Char.ofNatAux code h else failure

def escaped : Reader Char := do
  match ← satisfy fun _ => true with
  | 'b' => return '\x08'
  | 't' => return '\t'
  | 'n' => return '\n'
  | 'f' => return '\x0c'
  | 'r' => return '\r'
  | '"' => return '"'
  | '\\' => return '\\'
  | 'u' => codePoint 4
  | 'U' => codePoint 8
  | _ => failure

def basicChar : Reader Char :=
  satisfy (fun c => isVisible c && c != '"' && c != '\\') <|> (do char '\\'; escaped)

def literalChar : Reader Char := satisfy fun c => isVisible c && c != '\''

/-- A text on one line between two quotes. -/
def singleLine (quote : Char) (content : Reader Char) : Reader String := do
  char quote
  let content ← many content
  char quote
  return String.ofList content

/-- A backslash at the end of a line, which takes away all blanks and line ends
up to the next other character. -/
def lineContinuation : Reader Unit := do
  char '\\'
  blanks
  newline
  discard (many (discard (someRun isBlank) <|> newline))

/-- A text over several lines between three quotes.  A line end right after the
opening quotes is left out.  One or two quotes may stand anywhere in the text,
also right before the closing quotes. -/
def multiLine (quote : Char) (content : Reader (List Char)) : Reader String := do
  let quotes := someRun (· == quote)
  exactly (String.ofList (List.replicate 3 quote))
  discard (optional newline)
  let inner ← many (content <|> guarded (·.length ≤ 2) quotes)
  let closing ← guarded (fun run => 3 ≤ run.length && run.length ≤ 5) quotes
  return String.ofList (inner.flatten ++ closing.drop 3)

def basicContent : Reader (List Char) :=
  (do lineContinuation; return []) <|> (do newline; return ['\n']) <|> (do return [← basicChar])

def literalContent : Reader (List Char) :=
  (do newline; return ['\n']) <|> (do return [← literalChar])

def text : Reader String :=
  multiLine '"' basicContent <|> singleLine '"' basicChar <|>
    multiLine '\'' literalContent <|> singleLine '\'' literalChar

end PulseTrain.Document
