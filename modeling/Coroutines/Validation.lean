import Coroutines.Diagnostic
import Coroutines.Bindings

/-!
# Static checks

The defects of a unit that show without running it: sites outside the source, names without a
site or a binding, repeated names, and returns and awaits where none may stand.
-/

namespace Coroutines

/-- What the checks of one unit look up. -/
structure CheckContext where
  file : String
  lines : List String
  /-- Names of builtins; unbound names are reported only where they are given. -/
  builtins : Option (List String)
  globals : List String

namespace CheckContext

/-- The defects of a site. -/
def site (ctx : CheckContext) (s : Site) : List Diagnostic :=
  match Text.lineAt? ctx.lines s.line, s.line.isInteger with
  | some text, true =>
    if s.column.lt .zero || s.endColumn.lt s.column || (Number.ofNat (Text.length text)).lt s.column then
      [⟨"E_SITE",
        s!"Site columns {s.column.text}..{s.endColumn.text} do not fit line {s.line.text}.",
        some ⟨ctx.file, s⟩, none⟩]
    else []
  | _, _ =>
    [⟨"E_SITE", s!"Site line {s.line.text} is outside the source ({ctx.lines.length} lines).",
      some ⟨ctx.file, s⟩, none⟩]

def site? (ctx : CheckContext) (s : Option Site) : List Diagnostic := (s.map ctx.site).getD []

/-- The defects of a name. -/
def name (ctx : CheckContext) (bound : List String) (enclosing : Option Site) (name : String)
    (own : Option Site) : List Diagnostic :=
  ctx.site? own ++
    (if own.isNone && enclosing.isNone then
      [⟨"E_NO_SITE", s!"Name '{name}' has no source site.", none,
        some "Give the name, or the statement that holds it, an 'at' site."⟩]
    else []) ++
    (match ctx.builtins with
      | some builtins =>
        if !bound.contains name && !ctx.globals.contains name && !builtins.contains name then
          [⟨"E_UNBOUND", s!"Unbound name '{name}'.", own.map (⟨ctx.file, ·⟩), none⟩]
        else []
      | none => [])

mutual

/-- The defects of an expression; `enclosing` is the site of what holds it. -/
def expr (ctx : CheckContext) (bound : List String) (enclosing : Option Site) :
    Expr → List Diagnostic
  | .const _ _ => []
  | .name n own => ctx.name bound enclosing n own
  | .list elements | .tuple elements => ctx.exprs bound enclosing elements
  | .binary _ left right here =>
    ctx.site here ++ ctx.expr bound (some here) left ++ ctx.expr bound (some here) right
  | .call callee args keywords here =>
    ctx.site here ++ ctx.expr bound (some here) callee ++ ctx.exprs bound (some here) args ++
      (match keywords with
        | some ks => ctx.keywordArgs bound here [] ks
        | none => [])

def exprs (ctx : CheckContext) (bound : List String) (enclosing : Option Site) :
    List Expr → List Diagnostic
  | [] => []
  | e :: rest => ctx.expr bound enclosing e ++ ctx.exprs bound enclosing rest

/-- The defects of keyword arguments, of which `seen` came before. -/
def keywordArgs (ctx : CheckContext) (bound : List String) (here : Site) (seen : List String) :
    List (String × Expr) → List Diagnostic
  | [] => []
  | (k, e) :: rest =>
    (if seen.contains k then
      [⟨"E_DUP_KEYWORD", s!"Keyword argument '{k}' repeated.", some ⟨ctx.file, here⟩, none⟩]
    else []) ++
      ctx.expr bound (some here) e ++ ctx.keywordArgs bound here (k :: seen) rest

end

def expr? (ctx : CheckContext) (bound : List String) (enclosing : Option Site)
    (e : Option Expr) : List Diagnostic :=
  (e.map (ctx.expr bound enclosing)).getD []

/-- The defects of a statement of a function, or of the module without an owner. -/
def stmt (ctx : CheckContext) (owner : Option FunctionDecl) (bound : List String) :
    Stmt → List Diagnostic
  | .assign _ value own | .expr value own => ctx.site? own ++ ctx.expr bound own value
  | .ret value own =>
    (if owner.isNone then
      [⟨"E_RETURN_OUTSIDE", "'return' outside function.", none,
        some "Move the return into a function body."⟩]
    else []) ++
      ctx.site? own ++ ctx.expr? bound own value
  | .assert test message own =>
    ctx.site own ++ ctx.expr bound (some own) test ++ ctx.expr? bound (some own) message
  | .await _ value own =>
    ctx.site own ++
      (match owner with
        | none =>
          [⟨"E_AWAIT_OUTSIDE", "'await' outside function.", some ⟨ctx.file, own⟩,
            some "Only async functions may await."⟩]
        | some fn =>
          if fn.isAsync then []
          else
            [⟨"E_AWAIT_OUTSIDE", s!"'await' inside non-async function '{fn.name}'.",
              some ⟨ctx.file, own⟩, some "Only async functions may await."⟩]) ++
      ctx.expr bound (some own) value

end CheckContext

namespace Stmt

/-- The name that a statement binds. -/
def binds? : Stmt → Option String
  | .assign name _ _ => some name
  | .await target _ _ => target
  | _ => none

end Stmt

/-- The names that statements bind anywhere in their scope. -/
def assignedNames (body : List Stmt) : List String := body.filterMap Stmt.binds?

/-- A report for each entry that repeats an earlier one. -/
def repeated (report : String → Diagnostic) (seen : List String) : List String → List Diagnostic
  | [] => []
  | n :: rest =>
    (if seen.contains n then [report n] else []) ++ repeated report (n :: seen) rest

namespace CompiledUnit

def checkContext (unit : CompiledUnit) (builtins : Option (List String)) : CheckContext where
  file := unit.file
  lines := Text.lines unit.source
  builtins := builtins
  globals :=
    assignedNames unit.module ++ unit.inputs.getD [] ++ unit.functions.map FunctionDecl.name

/-- The defects of a function. -/
def validateFunction (ctx : CheckContext) (fn : FunctionDecl) : List Diagnostic :=
  repeated (fun p => .plain "E_DUP_PARAM" s!"Duplicate parameter '{p}' in function '{fn.name}'.")
      [] fn.params ++
    fn.body.flatMap (ctx.stmt (some fn) (fn.params ++ assignedNames fn.body))

/-- All defects of a unit, inputs and function names first, then bodies in source order. -/
def validate (unit : CompiledUnit) (builtins : Option (List String)) : List Diagnostic :=
  let ctx := unit.checkContext builtins
  repeated (fun n => .plain "E_DUP_INPUT" s!"Duplicate input '{n}'.") [] (unit.inputs.getD []) ++
    repeated (fun n => ⟨"E_DUP_FN", s!"Duplicate function '{n}'.", none,
      some "Give each function a unique name."⟩) [] (unit.functions.map FunctionDecl.name) ++
    unit.functions.flatMap (validateFunction ctx) ++
    unit.module.flatMap (ctx.stmt none [])

end CompiledUnit

end Coroutines
