import Coroutines.Record
import Coroutines.Text

/-!
# Tracebacks

An exception with frames is shown as a block per frame, outermost first, and its description.
The innermost block carries marks under the failing extent, shifted and clipped to the line as
shown, which is trimmed.  The host puts this text together from parts (`Record.render?`), any of
which may be too long.
-/

namespace Coroutines

namespace CallFrame

def indent : List Char := List.replicate 4 ' '

/-- The marks under the columns of the site that the trimmed line shows. -/
def marks? (site : SourceSite) : Option (List Char) :=
  let text := site.text.toList
  let leading := Number.ofNat (Text.width text - Text.width (Text.trimStart text))
  let shown := Number.ofNat (Text.width (Text.trim text))
  let first := (site.startColumn.sub leading).max .zero
  let past := (site.endColumn.sub leading).min shown
  if past.le first then none
  else
    some (indent ++ List.replicate first.toNat ' ' ++ List.replicate (past.sub first).toNat '~')

/-- The lines of marks, as many as there are, put together from copies of a blank and of a wave; a line is absent
where one of the texts that it is made of is refused. -/
def copiedMarks (site : SourceSite) : List (Option String) :=
  let text := site.text.toList
  let leading := Number.ofNat (Text.width text - Text.width (Text.trimStart text))
  let first := (site.startColumn.sub leading).max .zero
  let past := (site.endColumn.sub leading).min (.ofNat (Text.width (Text.trim text)))
  if past.le first then []
  else
    [do
      let blanks ← Text.copies? " " first
      let waves ← Text.copies? "~" (past.sub first)
      let padding ← Text.append? (String.ofList indent) blanks
      Text.append? padding waves]

/-- The lines of a frame. -/
def block (frame : CallFrame) (innermost : Bool) : List String :=
  let site := frame.site
  let place := s!"  File \"{site.file}\", line {site.line.text}, in {site.name}"
  let source := String.ofList (indent ++ Text.trim site.text.toList)
  let marks := if innermost then marks? site else none
  place :: source :: (marks.map String.ofList).toList

/-- The lines of a frame, each as it is put together. -/
def renderedLines (frame : CallFrame) (innermost : Bool) : List (Option String) :=
  let site := frame.site
  Text.bounded? s!"  File \"{site.file}\", line {site.line.text}, in {site.name}" ::
    Text.append? (String.ofList indent) (String.ofList (Text.trim site.text.toList)) ::
      if innermost then copiedMarks site else []

end CallFrame

namespace Record

/-- The lines of the frames; only the last frame is the innermost. -/
def blocks : List CallFrame → List String
  | [] => []
  | [frame] => frame.block true
  | frame :: rest => frame.block false ++ blocks rest

/-- The lines of a traceback. -/
def tracebackLines (r : Record) : List String :=
  (if r.frames.isEmpty then [] else "Traceback (most recent call last):" :: blocks r.frames) ++
    [r.failure.describe]

/-- The traceback of an uncaught exception, without a line break at the end. -/
def traceback (r : Record) : String := "\n".intercalate r.tracebackLines

/-- The lines of the frames as they are put together; only the last frame is the innermost. -/
def renderedBlocks : List CallFrame → List (Option String)
  | [] => []
  | [frame] => frame.renderedLines true
  | frame :: rest => frame.renderedLines false ++ renderedBlocks rest

/-- The lines of a traceback as they are put together. -/
def renderedLines (r : Record) : List (Option String) :=
  (if r.frames.isEmpty then []
    else Text.bounded? "Traceback (most recent call last):" :: renderedBlocks r.frames) ++
    [r.failure.describe?]

/-- The traceback as the host puts it together, absent where one of the texts on the way to it is refused. -/
def render? (r : Record) : Option String :=
  (r.renderedLines.mapM id).bind fun lines => Text.join? "\n" lines

end Record

end Coroutines
