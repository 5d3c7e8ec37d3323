import Coroutines.Code
import Coroutines.Json.Write
import Coroutines.Text

/-!
# Diagnostics

What the checks of a unit and the commands report: as JSON, or pretty with the place and the
offending line.  The line of carets is padded to the reported column, so the pretty form of a
column beyond the greatest length of a text does not exist; nor does a report beyond that length.
-/

namespace Coroutines

structure Span where
  file : String
  site : Site
  deriving DecidableEq

structure Diagnostic where
  code : String
  message : String
  span : Option Span
  hint : Option String
  deriving DecidableEq

namespace Diagnostic

/-- A diagnostic whose empty hint counts as none. -/
def make (code message : String) (span : Option Span) (hint : Option String) : Diagnostic :=
  ⟨code, message, span, hint.filter (· ≠ "")⟩

/-- A diagnostic without place and hint. -/
def plain (code message : String) : Diagnostic := ⟨code, message, none, none⟩

def spanJson (s : Span) : Json :=
  .object [("file", .text s.file), ("line", .number s.site.line), ("col", .number s.site.column),
    ("endCol", .number s.site.endColumn)]

def json (d : Diagnostic) : Json :=
  .object <|
    [("code", .text d.code), ("message", .text d.message)] ++
      (d.span.map fun s => ("span", spanJson s)).toList ++
      (d.hint.map fun h => ("hint", Json.text h)).toList

/-- The carets under a span, padded to its column; absent beyond the greatest length. -/
def caretLine? (pad : String) (column width : Number) : Option String :=
  match Text.copyCount? column, Text.copyCount? width with
  | some c, some w =>
    if Text.maxLength < pad.length + 3 + c + w then none
    else some (pad ++ String.ofList (" | ".toList ++ List.replicate c ' ' ++ List.replicate w '^'))
  | _, _ => none

/-- The source line of a span with carets; no line where the source has none. -/
def snippet? (s : Span) (source : String) : Option (List String) :=
  match Text.lineAt? (Text.lines source) s.site.line with
  | none => some []
  | some text =>
    let gutter := s.site.line.text
    let pad := String.ofList (List.replicate gutter.length ' ')
    let width := ((s.site.endColumn.min (.ofNat (Text.length text))).sub s.site.column).max (.ofNat 1)
    (caretLine? pad s.site.column width).map fun carets =>
      [pad ++ " |", s!"{gutter} | {text}", carets]

/-- The lines of the pretty form. -/
def prettyLines? (d : Diagnostic) (source : Option String) : Option (List String) := do
  let place ← match d.span with
    | none => some []
    | some s =>
      let column := s.site.column.add (.ofNat 1)
      let shown ← (source.map (snippet? s)).getD (some [])
      some (s!"  --> {s.file}:{s.site.line.text}:{column.text}" :: shown)
  let hint := (d.hint.map fun h => s!"  hint: {h}").toList
  some (s!"error[{d.code}]: {d.message}" :: place ++ hint)

/-- One diagnostic as text; absent beyond the greatest length. -/
def format? (d : Diagnostic) (pretty : Bool) (source : Option String) : Option String :=
  if pretty then (d.prettyLines? source).bind fun lines => Text.bounded? ("\n".intercalate lines)
  else Text.bounded? d.json.compact

/-- Several diagnostics: a JSON array, or the pretty forms with a blank line between them. -/
def formatAll? (ds : List Diagnostic) (pretty : Bool) (source : Option String) : Option String :=
  if pretty then
    (ds.mapM fun (d : Diagnostic) => d.format? true source).bind fun forms =>
      Text.bounded? ("\n\n".intercalate forms)
  else Text.bounded? (Json.array (ds.map json)).compact

end Diagnostic

end Coroutines
