import PulseTrain.Binary.Rounding
import PulseTrain.Config
import PulseTrain.Decimal.Text
import PulseTrain.Document.Table
import PulseTrain.Text.Quoted

/-!
# Configuration documents

A configuration is written as a TOML document with the sections `timing` and
`enable`.  Settings that are missing keep their defaults and unknown ones are
passed over.  A section may also be an array, whose items are the settings by
position.  Settings are read in the order of the document and the first one
with a wrong type is reported.  What is said of a text that is no TOML document
is a stand-in for the words of a full parser, which name the place.
-/

namespace PulseTrain

namespace Config

open Document

/-- What is said of a value that has the wrong type. -/
def describe : Item → String
  | .text value => "string " ++ Text.quote value
  | .integer value => s!"integer `{value}`"
  | .float value => s!"floating point `{Decimal.ofDouble value}`"
  | .boolean value => s!"boolean `{value}`"
  | .array _ | .tables _ => "sequence"
  | .table .. | .moment => "map"

def mismatch (wanted : String) (item : Item) : Except String α :=
  .error s!"invalid type: {describe item}, expected {wanted}"

/-- A frequency is any number, rounded to single precision. -/
def readFrequency : Item → Except String Frequency
  | .integer value => .ok ⟨Float32.ofInt value⟩
  | .float value => .ok ⟨Binary.narrow value⟩
  | item => mismatch "f32" item

def readBoolean : Item → Except String Bool
  | .boolean value => .ok value
  | item => mismatch "a boolean" item

/-- A setting of a section of type `S`: its name and how it is read. -/
structure Setting (S : Type) where
  name : String
  read : S → Item → Except String S

def readNamed (settings : List (Setting S)) (defaults : S) (entries : Entries) : Except String S :=
  entries.foldlM (fun soFar (name, item) =>
    match settings.find? (·.name == name) with
    | some setting => setting.read soFar item
    | none => pure soFar) defaults

def readPositional (settings : List (Setting S)) (defaults : S) (items : List Item) :
    Except String S :=
  (settings.zip items).foldlM (fun soFar (setting, item) => setting.read soFar item) defaults

/-- Reads a section.  A date is a table without any known setting. -/
def readSection (wanted : String) (settings : List (Setting S)) (defaults : S) :
    Item → Except String S
  | .table _ entries => readNamed settings defaults entries
  | .array items => readPositional settings defaults items
  | .tables elements => readPositional settings defaults (elements.map (.table .declared))
  | .moment => .ok defaults
  | item => mismatch wanted item

def timingSettings : List (Setting Timing) :=
  [{ name := "timer_frequency_hz"
     read := fun timing item => do return { timing with clock := ← readFrequency item } },
   { name := "max_frequency_hz"
     read := fun timing item => do return { timing with ceiling := ← readFrequency item } }]

def enableSettings : List (Setting EnableLine) :=
  [{ name := "active_low"
     read := fun _ item => do return { activeLow := ← readBoolean item } }]

def readTiming (item : Item) : Except String Timing :=
  readSection "struct TimingConfig" timingSettings {} item

def readEnable (item : Item) : Except String EnableLine :=
  readSection "struct EnableConfig" enableSettings {} item

def settings : List (Setting Config) :=
  [{ name := "timing"
     read := fun config item => do return { config with timing := ← readTiming item } },
   { name := "enable"
     read := fun config item => do return { config with enable := ← readEnable item } }]

/-- The configuration that a document describes. -/
def readDocument (source : String) : Except String Config :=
  match parse? source with
  | none => .error "malformed document"
  | some entries => readNamed settings {} entries

def parse : String → Except Fault Config := parseWith readDocument

/-- The text in a file with the given contents, or in a file that is missing. -/
def readFile : Option ByteArray → Except String String
  | none => .error "No such file or directory (os error 2)"
  | some bytes =>
    match String.fromUTF8? bytes with
    | none => .error "stream did not contain valid UTF-8"
    | some source => .ok source

def load (contents : Option ByteArray) : Except Fault Config :=
  loadWith readDocument (readFile contents)

end Config

end PulseTrain
