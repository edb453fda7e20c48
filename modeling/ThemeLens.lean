import ThemeLens.Editor
import ThemeLens.Main
import ThemeLens.Proofs.Theme.Flattening
import ThemeLens.Proofs.Accessor.Path
import ThemeLens.Proofs.Accessor.Head
import ThemeLens.Proofs.Accessor.Pattern
import ThemeLens.Proofs.Accessor.Derivation
import ThemeLens.Proofs.Text.Place
import ThemeLens.Proofs.Accessor.Scan
import ThemeLens.Proofs.Accessor.PointQuery
import ThemeLens.Proofs.Completion.Slots
import ThemeLens.Proofs.Completion.Acceptance
import ThemeLens.Proofs.Completion.BeforeCursor
import ThemeLens.Proofs.Completion.Listing
import ThemeLens.Proofs.Completion.Reach
import ThemeLens.Proofs.Provider.Interleaving
import ThemeLens.Proofs.Provider.Versions
import ThemeLens.Proofs.Provider.Staleness
import ThemeLens.Proofs.Theme.FlatTable
import ThemeLens.Proofs.Json.Keys
import ThemeLens.Proofs.Theme.Nested
import ThemeLens.Proofs.Theme.FirstDefect
import ThemeLens.Proofs.Text.LineColumn
import ThemeLens.Proofs.Text.Around
import ThemeLens.Proofs.Hover.Span
import ThemeLens.Proofs.InlineLabel
import ThemeLens.Proofs.Hover.Labels
import ThemeLens.Proofs.Hover.Certain
import ThemeLens.Proofs.Hover.Guess
import ThemeLens.Proofs.Hover.UnderCursor
import ThemeLens.Proofs.Editor.Ranges
import ThemeLens.Proofs.Accessor.Window
import ThemeLens.Proofs.Accessor.Greedy
import ThemeLens.Proofs.Accessor.Longest
import ThemeLens.Proofs.Completion.Cancelled
import ThemeLens.Proofs.Service.Sequence
import ThemeLens.Proofs.Accessor.Destructuring
import ThemeLens.Proofs.Text.NameSpan
import ThemeLens.Proofs.Editor.SortOrder
