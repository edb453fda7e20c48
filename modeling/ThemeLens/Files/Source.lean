import ThemeLens.Diagnostic
import ThemeLens.Files.Disk
import ThemeLens.Json.Reader
import ThemeLens.Settings
import ThemeLens.Theme.Graph

/-!
# Themes and settings from files

Loading reads a file and makes sense of it; each of the two steps can fail, and the error says
which file is meant. Settings are also looked for: in a directory and then in every one above it,
the first file found being the one that counts, whether or not it can be read.
-/

namespace ThemeLens

/-- Why no theme could be had from a file. -/
inductive ThemeError
  | malformed (defect : Defect)
  | unreadable (path : Text) (fault : FileFault)
  | notJson (path : Text)
  deriving DecidableEq, Repr

namespace ThemeError

def message : ThemeError → String
  | malformed defect => defect.message
  | unreadable path _ => s!"failed to read theme {String.ofList path}"
  | notJson path => s!"theme {String.ofList path} is not valid JSON"

def code : ThemeError → String
  | malformed _ => "themepath::theme::malformed"
  | unreadable _ _ => "themepath::theme::io"
  | notJson _ => "themepath::theme::json"

def help : ThemeError → Option String
  | malformed _ => some "the previously published table stays active until the theme is fixed"
  | unreadable _ _ => none
  | notJson _ => none

def diagnostic (e : ThemeError) : Diagnostic := ⟨e.message, some e.code, e.help, []⟩

end ThemeError

/-- Why no settings could be had from a file. -/
inductive SettingsError
  | unreadable (path : Text) (fault : FileFault)
  | invalid (path : Text) (fault : SettingsFault)

namespace SettingsError

def message : SettingsError → String
  | unreadable path _ => s!"failed to read {String.ofList path}"
  | invalid path fault => s!"invalid configuration in {String.ofList path}: {fault.message}"

def code : SettingsError → String
  | unreadable _ _ => "themepath::config::io"
  | invalid _ _ => "themepath::config::parse"

def help : SettingsError → Option String
  | unreadable _ _ => none
  | invalid _ _ => some ("known keys: " ++ ", ".intercalate SettingsFault.keys)

def diagnostic (e : SettingsError) : Diagnostic := ⟨e.message, some e.code, e.help, []⟩

end SettingsError

namespace Theme

/-- The greatest depth to which the containers of a theme file may nest. -/
def nesting : Nat := 127

/-- The theme that the text of a file describes. -/
def ofText (path content : Text) : Except ThemeError Theme :=
  match Json.read? nesting content with
  | none => .error (.notJson path)
  | some value => (ofJson value).mapError .malformed

def load {m : Type → Type} [Monad m] (disk : Disk m) (path : Text) :
    m (Except ThemeError Theme) := do
  match ← disk.read path with
  | .error fault => return .error (.unreadable path fault)
  | .ok content => return ofText path content

end Theme

namespace Settings

variable {m : Type → Type} [Monad m]

def load (disk : Disk m) (path : Text) : m (Except SettingsError Settings) := do
  match ← disk.read path with
  | .error fault => return .error (.unreadable path fault)
  | .ok content => return (parse content).mapError (.invalid path)

/-- Loads the settings from the first of some directories that has a file of them. -/
def discoverIn (disk : Disk m) : List Text → m (Except SettingsError (Option Settings))
  | [] => return .ok none
  | directory :: rest => do
    let candidate := Path.join directory fileName.toList
    if ← disk.isFile candidate then return (← load disk candidate).map some
    else discoverIn disk rest

/-- Looks for settings from a path upwards: in it if it is a directory, else in the one it is
in. -/
def discover (disk : Disk m) (start : Text) : m (Except SettingsError (Option Settings)) := do
  let directories := Path.upwards start
  if ← disk.isDirectory start then discoverIn disk directories
  else discoverIn disk directories.tail

end Settings

end ThemeLens
