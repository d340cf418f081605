import PulseTrain.Document.Moment

/-!
# Items and statements

The values of a document and its statements: entries, headers of tables and
headers of elements in arrays of tables.  Values nest to a limited depth and
keys have a limited number of parts.
-/

namespace PulseTrain.Document

open Reader

/-- How a table came to be, which decides what may still be added to it. -/
inductive Origin where
  /-- By a header of its own, as an element of an array of tables or as the
  whole document. -/
  | declared
  /-- As a table around one with a header. -/
  | implied
  /-- By a key of several parts. -/
  | dotted
  /-- As a value in braces, to which nothing can be added. -/
  | closed
  deriving DecidableEq

/-- A value in a document.  Entries of a table keep their order. -/
inductive Item where
  | text (value : String)
  | integer (value : Int)
  | float (value : Float)
  | boolean (value : Bool)
  | moment
  | array (items : List Item)
  | table (origin : Origin) (entries : List (String × Item))
  /-- An array of tables, each element under a header of its own. -/
  | tables (elements : List (List (String × Item)))

abbrev Entries := List (String × Item)

/-- A key: the parts that lead to a table and the name in that table. -/
structure Key where
  path : List String
  name : String

structure Entry where
  key : Key
  value : Item

inductive Statement where
  | entry (entry : Entry)
  /-- The entries that follow belong to the table with this key. -/
  | header (key : Key)
  /-- The entries that follow belong to a new element of an array of tables. -/
  | element (key : Key)

/-! ### Keys -/

/-- The number of parts in which a key is refused. -/
def keyLimit : Nat := 80

def isBareKeyChar (c : Char) : Bool :=
  isAsciiDigit c || ('a' ≤ c && c ≤ 'z') || ('A' ≤ c && c ≤ 'Z') || c == '-' || c == '_'

def keyPart : Reader String := do
  blanks
  let name ← singleLine '"' basicChar <|> singleLine '\'' literalChar <|>
    String.ofList <$> someRun isBareKeyChar
  blanks
  return name

/-- The last part is the name and those before it are the path. -/
def Key.ofParts? (parts : List String) : Option Key :=
  if keyLimit ≤ parts.length then none
  else parts.getLast?.map fun name => { path := parts.dropLast, name }

def key : Reader Key := filterMap Key.ofParts? (separated (char '.') keyPart)

/-! ### Values -/

/-- The number of arrays and tables that may stand inside one another. -/
def depthLimit : Nat := 79

def scalar : Reader Item :=
  (Item.text <$> text) <|> (do moment; return .moment) <|> (Item.float <$> float) <|>
    (Item.integer <$> integer) <|> (do exactly "true"; return .boolean true) <|>
    (do exactly "false"; return .boolean false)

/-- An array, whose items may stand on several lines and end in a comma. -/
def array (value : Reader Item) : Reader (List Item) := do
  char '['
  let items ← optional do
    let items ← separated (char ',') (do
      spacing
      let item ← value
      spacing
      return item)
    discard (optional (char ','))
    return items
  spacing
  char ']'
  return items.getD []

def entry (value : Reader Item) : Reader Entry := do
  let key ← key
  char '='
  blanks
  return { key, value := ← value }

def braced (value : Reader Item) : Reader (List Entry) := do
  char '\x7b'
  let entries ← optional (separated (char ',') (do
    let entry ← entry value
    blanks
    return entry))
  blanks
  char '\x7d'
  return entries.getD []

end PulseTrain.Document
