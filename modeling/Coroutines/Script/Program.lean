import Coroutines.Scheduler
import Coroutines.Operator
import Coroutines.Text

/-!
# Programs

A compiled unit ready to run, the bodies of its coroutines, the state that scripts share and the
scopes that statements run in.
-/

namespace Coroutines

/-- What a coroutine of a script continues. -/
inductive Body where
  /-- The statements of an async function. -/
  | function (decl : FunctionDecl)
  /-- The wait for a group whose result the coroutine hands on. -/
  | joined (group : GroupRef)

/-- What all code of a program sees. -/
structure Globals where
  bindings : Bindings Value
  /-- What `print` wrote. -/
  output : String

/-- The work of a script: it gives an `α` or ends without one. -/
abbrev Script (α : Type) := Action Body Globals α

/-- How any value is called, with positional and keyword arguments. -/
abbrev Calls := Value → List Value → Bindings Value → Script Value

structure Program where
  unit : CompiledUnit
  lines : List String
  /-- The functions by name; of two with one name the later counts. -/
  functions : Bindings Value

namespace Program

def ofUnit (unit : CompiledUnit) : Program where
  unit := unit
  lines := Text.lines unit.source
  functions := .ofList (unit.functions.zipIdx.map fun (decl, i) => (decl.name, .function i decl))

/-- The place of an extent in the source; a line outside the source has no text. -/
def sourceSite (p : Program) (scope : String) (site : Site) : SourceSite where
  file := p.unit.file
  line := site.line
  name := scope
  text := (Text.lineAt? p.lines site.line).getD ""
  startColumn := site.column
  endColumn := site.endColumn

def frame (p : Program) (scope operation : String) (args : List Value) (site : Site) : CallFrame where
  operation := operation
  args := args.map Value.kindName
  site := p.sourceSite scope site

end Program

inductive Mode where
  | module
  | sync
  | async
  deriving DecidableEq, Repr

/-- Where a statement runs. -/
structure Scope where
  /-- The frame name in tracebacks. -/
  name : String
  /-- The bindings of the scope's own; module statements bind globals and have none. -/
  locals : Bindings Value
  mode : Mode

/-- How a statement completes. -/
inductive Completion where
  | next (value : Value)
  /-- Goes on after binding a name of the scope that runs the statement. -/
  | bind (name : String) (value : Value)
  | ret (value : Value)
  | await (target : Target)

/-- The scope after a statement completed. -/
def Scope.after (scope : Scope) : Completion → Scope
  | .bind name value => { scope with locals := scope.locals.set name value }
  | _ => scope

end Coroutines
