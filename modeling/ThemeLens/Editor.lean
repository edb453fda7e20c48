import ThemeLens.Completion
import ThemeLens.Hover
import ThemeLens.InlineLabel
import ThemeLens.Text.Position

/-!
# Answers as an editor receives them

The records of the editor protocol that completions, hovers and labels turn into. Offsets become
positions, values become text, and the order of suggestions is fixed by a sort text that counts
them. An absent field is left out of a record.
-/

namespace ThemeLens.Editor

/-- What kind of thing an item is, as far as its icon goes. -/
inductive ItemKind
  /-- A segment with more below it. -/
  | branch
  | color
  | function
  | value
  deriving DecidableEq, Repr

namespace ItemKind

/-- The number of a kind in the protocol. -/
def code : ItemKind → Nat
  | branch => 9
  | color => 16
  | function => 3
  | value => 12

/-- The kind of a leaf: a string that begins like a colour is one. -/
def ofValue : Option Value → ItemKind
  | some (.scalar (.string s)) => if s.head? = some '#' then color else value
  | some (.function _) => function
  | _ => value

end ItemKind

/-- A suggestion as an item of a completion list. -/
structure CompletionItem where
  label : Text
  kind : ItemKind
  detail : Option Text
  sortText : Text
  /-- Where the new text goes. -/
  range : Range
  newText : Text
  /-- Ask for suggestions again once the item is in. -/
  retrigger : Bool

/-- A number with zeros in front of it, at least five digits wide. -/
def sortKey (index : Nat) : Text :=
  let digits := Nat.toDigits 10 index
  List.replicate (5 - digits.length) '0' ++ digits

/-- The item of a suggestion at this place in the list. -/
def CompletionItem.ofSuggestion (range : Range) (index : Nat) (s : Suggestion) : CompletionItem :=
  { label := s.segment
    kind := if s.isIntermediate then .branch else .ofValue s.value
    detail := s.value.map Value.text
    sortText := sortKey index
    range
    newText := if s.isIntermediate then s.segment ++ ['.'] else s.segment
    retrigger := s.isIntermediate }

/-- The items of a completion, in its order. -/
def completionItems (text : Text) (c : Completion) : List CompletionItem :=
  let range := text.rangeOf c.replace
  c.suggestions.mapIdx fun index s => CompletionItem.ofSuggestion range index s

/-- A hover as a card of marked-up text. -/
structure HoverCard where
  markdown : Text
  range : Range

/-- What a card says about a guess. -/
def guessNote : String :=
  "\n\n_Inferred: this token matches a theme path but is not read from `theme` directly._"

def hoverCard (text : Text) (h : Hover) : HoverCard :=
  { markdown :=
      "**theme.".toList ++ h.path ++ "**\n\n```\n".toList ++ h.value.text ++ "\n```".toList
        ++ match h.confidence with
           | .high => []
           | .inferred => guessNote.toList
    range := text.rangeOf h.span }

/-- A label as a hint between the characters of a source. -/
structure InlayHint where
  position : Position
  label : Text
  tooltip : Text
  deriving DecidableEq, Repr

def inlayHints (text : Text) (labels : List InlineLabel) : List InlayHint :=
  labels.map fun l =>
    { position := text.positionAt l.offset, label := l.label, tooltip := "theme.".toList ++ l.path }

/-! ## Wire form -/

def positionJson (p : Position) : Json :=
  .record [("line", .nat p.line), ("character", .nat p.column)]

def rangeJson (r : Range) : Json :=
  .record [("start", positionJson r.start), ("end", positionJson r.stop)]

/-- The command that opens the list of suggestions again. -/
def retriggerJson : Json :=
  .record [("title", .string "Suggest"), ("command", .string "editor.action.triggerSuggest")]

def CompletionItem.toJson (i : CompletionItem) : Json :=
  .record <|
    [("label", .str i.label), ("kind", .nat i.kind.code)]
      ++ i.detail.toList.map (fun detail => ("detail", .str detail))
      ++ [("sortText", .str i.sortText), ("filterText", .str i.label),
          ("textEdit", .record [("range", rangeJson i.range), ("newText", .str i.newText)])]
      ++ if i.retrigger then [("command", retriggerJson)] else []

def HoverCard.toJson (h : HoverCard) : Json :=
  .record
    [("contents", .record [("kind", .string "markdown"), ("value", .str h.markdown)]),
     ("range", rangeJson h.range)]

def InlayHint.toJson (h : InlayHint) : Json :=
  .record
    [("position", positionJson h.position), ("label", .str h.label), ("kind", .nat 1),
     ("tooltip", .str h.tooltip), ("paddingLeft", .bool true)]

end ThemeLens.Editor
