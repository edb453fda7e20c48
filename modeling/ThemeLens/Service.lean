import ThemeLens.Completion
import ThemeLens.Hover
import ThemeLens.InlineLabel
import ThemeLens.Provider
import ThemeLens.Settings

/-!
# The query service

A provider with the settings the queries run under. Every query reads one snapshot, so its answer
belongs to one published table whatever is published meanwhile. Before the first publication there
is no table to ask, which is told apart from an answer that finds nothing.
-/

namespace ThemeLens

/-- The outcome of a query at a point. -/
inductive Resolution (α : Type)
  /-- Nothing has been published yet. -/
  | missingTable
  | noMatch
  | found (answer : α)

namespace Resolution

def ofOption {α : Type} : Option α → Resolution α
  | none => noMatch
  | some answer => found answer

end Resolution

/-- Published tables and the settings of the queries on them. -/
structure Service where
  provider : Provider
  settings : Settings

namespace Service

def start (settings : Settings) : Service := ⟨.initial, settings⟩

/-- Publishes the table of a theme; one with a defect leaves everything as it is. -/
def reload (s : Service) (theme : Theme) : Except Defect (Snapshot × Service) :=
  (s.provider.rebuild theme s.settings.callableKey).map fun (snapshot, provider) =>
    (snapshot, { s with provider })

/-- Publishes a table that is already flat. -/
def publish (s : Service) (table : Table) : Snapshot × Service :=
  let (snapshot, provider) := s.provider.publish table
  (snapshot, { s with provider })

def invalidate (s : Service) : Service := { s with provider := s.provider.invalidate }

/-- Asks the current table, if there is one. -/
def ask {α : Type} (s : Service) (query : Table → Option α) : Resolution α :=
  match s.provider.current with
  | none => .missingTable
  | some snapshot => .ofOption (query snapshot.table)

def complete (s : Service) (text : Text) (offset : Nat) (polls : Polls) : Resolution Completion :=
  s.ask fun table => Completion.at? text offset table polls

def hover (s : Service) (text : Text) (offset : Nat) : Resolution Hover :=
  s.ask fun table => Hover.at? text offset table s.settings.hoverLineWindow

/-- The labels of a window; none before the first publication. -/
def labels (s : Service) (text : Text) (window : Span) (polls : Polls) : List InlineLabel :=
  match s.provider.current with
  | none => []
  | some snapshot => InlineLabel.within text window snapshot.table s.settings.labelStyle polls

end Service

end ThemeLens
