import ThemeLens.Completion
import ThemeLens.Hover
import ThemeLens.InlineLabel

/-!
# Answers as JSON

The records in which the command line prints its answers. Offsets stay byte offsets here, and a
value that is absent leaves its field out.
-/

namespace ThemeLens

def Span.toJson (s : Span) : Json := .record [("start", .nat s.start), ("end", .nat s.stop)]

def Accessor.toJson (a : Accessor) : Json :=
  .record
    [("span", a.span.toJson), ("kind", .string a.form.name), ("pathSpan", a.pathSpan.toJson),
     ("path", .str a.path)]

def Suggestion.toJson (s : Suggestion) : Json :=
  .record <|
    [("segment", .str s.segment), ("isIntermediate", .bool s.isIntermediate),
     ("fullPath", .str s.fullPath)]
      ++ s.value.toList.map fun value => ("value", value.toJson)

def Completion.toJson (c : Completion) : Json :=
  .record
    [("expression", c.accessor.toJson), ("typedPrefix", .str c.typed),
     ("replace", c.replace.toJson), ("suggestions", .arr (c.suggestions.map Suggestion.toJson))]

def Hover.toJson (h : Hover) : Json :=
  .record
    [("path", .str h.path), ("value", h.value.toJson), ("confidence", .string h.confidence.name),
     ("span", h.span.toJson)]

def InlineLabel.toJson (l : InlineLabel) : Json :=
  .record
    [("offset", .nat l.offset), ("label", .str l.label), ("path", .str l.path),
     ("value", l.value.toJson)]

end ThemeLens
