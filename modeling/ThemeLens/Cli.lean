import ThemeLens.Files.Source
import ThemeLens.Report
import ThemeLens.Service
import ThemeLens.Text.Position

/-!
# The command line

Four commands on a theme file: print its table, and complete, hover and label a source file
against it. A run reads its files through a `Disk` and ends in the text to print or in a failure to
show; nothing is printed before the outcome is known.

Arguments are looked at only when they are needed, so a theme that cannot be loaded is reported
before a missing source, and a source before a missing offset.
-/

namespace ThemeLens.Cli

def usage : String :=
  "Usage: themepath [--config <file>] <flatten|complete|hover|annotate> <theme.json> [source] "
    ++ "[offset|line:col|start..end]"

/-! ## Numbers -/

/-- Why an argument is no number. -/
inductive NumberFault
  | empty
  | badDigit
  | tooLarge
  deriving DecidableEq, Repr

def NumberFault.message : NumberFault → String
  | empty => "cannot parse integer from empty string"
  | badDigit => "invalid digit found in string"
  | tooLarge => "number too large to fit in target type"

/-- Reads digits behind the number `n`, below a limit. The first fault from the left counts. -/
def readDigits (limit n : Nat) : Text → Except NumberFault Nat
  | [] => .ok n
  | c :: t =>
    match Numeral.digit? 10 c with
    | none => .error .badDigit
    | some d => if 10 * n + d < limit then readDigits limit (10 * n + d) t else .error .tooLarge

/-- Reads a number below a limit; one plus sign may stand in front. -/
def readNumber (limit : Nat) (t : Text) : Except NumberFault Nat :=
  match t with
  | [] => .error .empty
  | ['+'] => .error .badDigit
  | '+' :: digits => readDigits limit 0 digits
  | digits => readDigits limit 0 digits

/-- The first number that no byte offset reaches. -/
def offsetLimit : Nat := Nat.pow 2 64

/-- The first number that no line or column reaches. -/
def positionLimit : Nat := Nat.pow 2 32

/-! ## Arguments -/

/-- A run can fail at any point; the failure ends it. -/
abbrev Attempt := Except Diagnostic

def fail {α : Type} (message : String) : Attempt α := .error (.plain message)

def number (limit : Nat) (t : Text) : Attempt Nat :=
  (readNumber limit t).mapError fun fault => .plain fault.message

/-- The arguments without the option for a settings file, and that file. -/
def takeOption : List Text → Attempt (Option Text × List Text)
  | [] => .ok (none, [])
  | arg :: rest =>
    if arg = "--config".toList then
      match rest with
      | [] => fail "`--config` expects a path"
      | path :: rest => .ok (some path, rest)
    else (takeOption rest).map fun (path?, rest) => (path?, arg :: rest)

/-- Splits a text at the first place where `mark` stands. -/
def splitAt? (mark : Text) : Text → Option (Text × Text)
  | [] => none
  | c :: t =>
    match Text.strip? mark (c :: t) with
    | some rest => some ([], rest)
    | none => (splitAt? mark t).map fun (start, rest) => (c :: start, rest)

/-- The offset an argument names, as a number of bytes or as `line:column`. -/
def offset (source : Text) (arg? : Option Text) : Attempt Nat := do
  let some arg := arg? | fail s!"missing offset\n{usage}"
  let offset ←
    match splitAt? [':'] arg with
    | some (line, column) => do
      let line ← number positionLimit line
      let column ← number positionLimit column
      pure (source.offsetAt ⟨line, column⟩)
    | none => number offsetLimit arg
  if source.size < offset then
    fail s!"offset {offset} is past the end of the source ({source.size} bytes)"
  else return offset

/-- The window an argument names as `start..end`; without one, the whole source. -/
def window (source : Text) (arg? : Option Text) : Attempt Span :=
  match arg? with
  | none => return ⟨0, source.size⟩
  | some arg => do
    let some (start, stop) := splitAt? ['.', '.'] arg | fail "range must look like `start..end`"
    let start ← number offsetLimit start
    let stop ← number offsetLimit stop
    return ⟨start, max stop start⟩

/-! ## Commands -/

/-- A value as it is printed. -/
def print (value : Json) : Text := value.indented 0 ++ ['\n']

/-- What is printed for a query; one that finds nothing prints `null`. -/
def printResolution {α : Type} (toJson : α → Json) : Resolution α → Text
  | .found answer => print (toJson answer)
  | .missingTable => print .null
  | .noMatch => print .null

/-- Runs a command on a source. -/
def query (service : Service) (command : Text) (source : Text) (arg? : Option Text) :
    Attempt Text := do
  if command = "complete".toList then
    let offset ← offset source arg?
    return printResolution Completion.toJson (service.complete source offset .never)
  else if command = "hover".toList then
    let offset ← offset source arg?
    return printResolution Hover.toJson (service.hover source offset)
  else if command = "annotate".toList then
    let window ← window source arg?
    return print (.arr ((service.labels source window .never).map InlineLabel.toJson))
  else fail s!"unknown command `{String.ofList command}`\n{usage}"

variable {m : Type → Type} [Monad m]

/-- The settings of a run: those of the file named, or those found from the theme upwards. -/
def settings (disk : Disk m) (path? : Option Text) (theme : Text) : m (Attempt Settings) := do
  match path? with
  | some path => return (← Settings.load disk path).mapError SettingsError.diagnostic
  | none =>
    let start := (← disk.resolve theme).getD theme
    let found ← Settings.discover disk start
    return (found.map fun settings? => settings?.getD .default).mapError SettingsError.diagnostic

/-- A whole run: the text it prints, or how it fails. -/
def run (disk : Disk m) (args : List Text) : m (Attempt Text) := ExceptT.run do
  let (settingsPath?, args) ← liftExcept (takeOption args)
  let command :: themePath :: args := args | liftExcept (fail usage)
  let settings ← ExceptT.mk (settings disk settingsPath? themePath)
  let theme ← ExceptT.mk do return (← Theme.load disk themePath).mapError ThemeError.diagnostic
  let flattened := (theme.flatten settings.callableKey).mapError fun defect =>
    (ThemeError.malformed defect).diagnostic
  if command = "flatten".toList then
    let table ← liftExcept flattened
    return print table.toJson
  else
    let sourcePath :: args := args | liftExcept (fail usage)
    let source ← ExceptT.mk do
      return (← disk.read sourcePath).mapError fun fault => .plain fault.message
    let table ← liftExcept flattened
    let service := ((Service.start settings).publish table).2
    liftExcept (query service command source args.head?)
where
  liftExcept {α : Type} (attempt : Attempt α) : ExceptT Diagnostic m α := ExceptT.mk (pure attempt)

end ThemeLens.Cli
