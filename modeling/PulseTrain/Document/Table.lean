import PulseTrain.Document.Statement

/-!
# Documents

A document in the TOML format is the table that its statements build up.  A
table has at most one header, a key stands for at most one value, and a value in
braces is complete.  The tables around a table that has a header, and those that
a key of several parts goes through, come into being without a header of their
own.
-/

namespace PulseTrain.Document

open Reader

namespace Entries

def replace (name : String) (item : Item) (entries : Entries) : Entries :=
  entries.map fun (other, old) => if other = name then (name, item) else (other, old)

def erase (name : String) (entries : Entries) : Entries :=
  entries.filter fun (other, _) => other ≠ name

/-- Changes the table at the end of a path, which is told its origin.  Tables
that are missing on the way come into being with the origin `new`.  A path
leads into the last element of an array of tables.  It does not lead into a
value, and a key does not lead into a table with a header. -/
def descend (new : Origin) (change : Origin → Entries → Option Entries) :
    List String → Origin → Entries → Option Entries
  | [], origin, entries => change origin entries
  | name :: path, _, entries =>
    match entries.lookup name with
    | none => do
      let sub ← descend new change path new []
      return entries ++ [(name, .table new sub)]
    | some (.table origin sub) =>
      if origin = .closed ∨ (new = .dotted ∧ origin = .declared) then none else do
        let sub ← descend new change path origin sub
        return replace name (.table origin sub) entries
    | some (.tables elements) => do
      let last ← elements.getLast?
      let sub ← descend new change path .declared last
      return replace name (.tables (elements.dropLast ++ [sub])) entries
    | some _ => none

/-- Adds an entry.  Its path may only end in a table that was itself made by
such a path. -/
def insert (entries : Entries) (entry : Entry) : Option Entries :=
  let add (origin : Origin) (table : Entries) : Option Entries :=
    if (origin == .dotted) == entry.key.path.isEmpty then none
    else if (table.lookup entry.key.name).isSome then none
    else some (table ++ [(entry.key.name, entry.value)])
  descend .dotted add entry.key.path .declared entries

def insertAll (entries : Entries) (added : List Entry) : Option Entries :=
  added.foldlM insert entries

/-- Adds a table with a header.  A table that came into being around others
may still get one and moves to the end. -/
def insertTable (root : Entries) (key : Key) (body : List Entry) : Option Entries :=
  let add (_ : Origin) (parent : Entries) : Option Entries := do
    let old ← match parent.lookup key.name with
      | none => some []
      | some (.table .implied old) => some old
      | some _ => none
    let table ← insertAll old body
    return erase key.name parent ++ [(key.name, .table .declared table)]
  descend .implied add key.path .declared root

def insertElement (root : Entries) (key : Key) (body : List Entry) : Option Entries :=
  let add (_ : Origin) (parent : Entries) : Option Entries := do
    let element ← insertAll [] body
    match parent.lookup key.name with
    | none => some (parent ++ [(key.name, .tables [element])])
    | some (.tables elements) => some (replace key.name (.tables (elements ++ [element])) parent)
    | some _ => none
  descend .implied add key.path .declared root

end Entries

/-! ### Reading -/

/-- A value inside at most `depth` others. -/
def value : Nat → Reader Item
  | 0 => scalar
  | depth + 1 =>
    scalar <|> (Item.array <$> array (value depth)) <|>
      (Item.table .closed <$> filterMap (Entries.insertAll []) (braced (value depth)))

def statement : Reader Statement :=
  (do exactly "[["
      let key ← key
      exactly "]]"
      return .element key) <|>
  (do char '['
      let key ← key
      char ']'
      return .header key) <|>
  (Statement.entry <$> entry (value depthLimit))

def line : Reader (Option Statement) := do
  blanks
  (do newline; return none) <|> (do comment; newline <|> finish; return none) <|> (do
    let statement ← statement
    lineEnd
    return some statement)

/-- The statements of a whole document, which may begin with a byte order
mark. -/
def statements : Reader (List Statement) := do
  discard (optional (char '\ufeff'))
  let lines ← many line
  blanks
  finish
  return lines.filterMap id

/-! ### Building up -/

/-- A header with the entries below it. -/
structure Section where
  key : Key
  /-- Whether the header adds an element to an array of tables. -/
  isElement : Bool
  body : List Entry

/-- The entries above the first header and the sections below it. -/
def sections (statements : List Statement) : List Entry × List Section :=
  statements.foldr (fun statement (entries, later) =>
    match statement with
    | .entry entry => (entry :: entries, later)
    | .header key => ([], ⟨key, false, entries⟩ :: later)
    | .element key => ([], ⟨key, true, entries⟩ :: later)) ([], [])

def Entries.insertSection (root : Entries) (s : Section) : Option Entries :=
  if s.isElement then insertElement root s.key s.body else insertTable root s.key s.body

/-- The table that the statements build up, unless one of them cannot stand
where it does. -/
def Entries.ofStatements? (statements : List Statement) : Option Entries := do
  let (top, rest) := sections statements
  let root ← insertAll [] top
  rest.foldlM insertSection root

def parse? (source : String) : Option Entries := do
  let (statements, _) ← statements source.toList
  Entries.ofStatements? statements

end PulseTrain.Document
