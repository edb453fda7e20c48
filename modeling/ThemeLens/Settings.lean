import ThemeLens.InlineLabel
import ThemeLens.Text.Quoted
import ThemeLens.Toml.Document

/-!
# Settings

Four settings, each with a default, in a TOML file. A file may leave any of them out and may hold
nothing else: an unknown key is refused, so that a misspelt one is not silently ignored. The keys
are checked in the order of the file and the first wrong one is reported; whatever keeps the file
from being TOML at all comes before that.
-/

namespace ThemeLens

/-- How queries answer. -/
structure Settings where
  /-- The most characters of a string that a label shows in full. -/
  maxLabelWidth : Nat
  /-- The lines on each side of the cursor that a guess looks at. -/
  hoverLineWindow : Nat
  /-- The key under which a function is kept. -/
  callableKey : Text
  /-- What every label begins with. -/
  labelLead : Text
  deriving DecidableEq, Repr

/-- Why a text holds no settings. -/
inductive SettingsFault
  | toml (fault : Toml.Fault)
  | unknownKey (key : Text)
  /-- A value of another kind than the setting has. -/
  | wrongKind (found : Toml) (expected : String)
  /-- A number below zero. -/
  | negative (n : Int)

namespace SettingsFault

/-- The names of the settings, as a file and a message give them. -/
def keys : List String := ["max_label_width", "hover_line_window", "callable_key", "label_prefix"]

/-- A value as a message names it: its kind, and for a simple one the value itself. -/
def describe : Toml → String
  | .string s => s!"string {String.ofList s.quoted}"
  | .integer n => s!"integer `{n}`"
  | .float x => s!"floating point `{String.ofList x.text}`"
  | .boolean b => s!"boolean `{b}`"
  | .moment => "map"
  | .table _ _ => "map"
  | .array _ => "sequence"
  | .tables _ => "sequence"

/-- What is said about a repeated key; the document itself is the table with the empty path. -/
def duplicateMessage (key : Text) : Option (List Text) → String
  | none => s!"duplicate key `{String.ofList key}`"
  | some [] => s!"duplicate key `{String.ofList key}` in document root"
  | some path =>
    let name := ".".intercalate (path.map String.ofList)
    s!"duplicate key `{String.ofList key}` in table `{name}`"

def message : SettingsFault → String
  | toml .malformed => "<toml syntax>"
  | toml (.duplicateKey key path) => duplicateMessage key path
  | unknownKey key =>
    let expected := ", ".intercalate (keys.map fun k => s!"`{k}`")
    s!"unknown field `{String.ofList key}`, expected one of {expected}"
  | wrongKind found expected => s!"invalid type: {describe found}, expected {expected}"
  | negative n => s!"invalid value: integer `{n}`, expected usize"

end SettingsFault

namespace Settings

def default : Settings :=
  { maxLabelWidth := 32
    hoverLineWindow := 3
    callableKey := "spacing".toList
    labelLead := "= ".toList }

/-- The name of the file that holds settings. -/
def fileName : String := "themepath.toml"

/-- How labels look under these settings. -/
def labelStyle (s : Settings) : InlineLabel.Style := ⟨s.maxLabelWidth, s.labelLead⟩

/-- A setting that is a count. -/
def count : Toml → Except SettingsFault Nat
  | .integer n => if n < 0 then .error (.negative n) else .ok n.toNat
  | value => .error (.wrongKind value "usize")

/-- A setting that is a text. -/
def textual : Toml → Except SettingsFault Text
  | .string s => .ok s
  | value => .error (.wrongKind value "a string")

/-- Takes over one entry of a file. -/
def set (s : Settings) (entry : Text × Toml) : Except SettingsFault Settings :=
  let (key, value) := entry
  if key = "max_label_width".toList then (count value).map fun n => { s with maxLabelWidth := n }
  else if key = "hover_line_window".toList then
    (count value).map fun n => { s with hoverLineWindow := n }
  else if key = "callable_key".toList then (textual value).map fun t => { s with callableKey := t }
  else if key = "label_prefix".toList then (textual value).map fun t => { s with labelLead := t }
  else .error (.unknownKey key)

/-- The settings that a text holds. -/
def parse (t : Text) : Except SettingsFault Settings :=
  match Toml.read t with
  | .error fault => .error (.toml fault)
  | .ok fields => fields.foldlM set default

end Settings

end ThemeLens
