import Coroutines.Proofs.Tracebacks.History
import Coroutines.Script.Host

/-!
# Which scopes are live when a script fails

A script catches no exceptions, so the scopes that are live for one are found by following the work that
failed to the part of it that did: a call that failed has the scopes inside it, and a plain function that
failed is one scope more.  A coroutine that failed is a scope too, with the scopes inside it or those of
the exception that it was handed.  Each definition below gives the scopes inside the one that does the
work, none if that scope raised the exception itself.
-/

namespace Coroutines

/-- The scopes that were live inside the one at hand when its work failed, by the world in which the work
began. -/
abbrev LiveScopes := World Body Globals → List String

/-- How values are called, and which scopes are live inside a call that fails. -/
structure Calling where
  runner : Runner Body Globals
  call : Calls
  scopes : Value → List Value → Bindings Value → LiveScopes

/-- The scopes of work that failed and had more work behind it: those of the first part, or of the rest
if the first part gave a value. -/
def Calling.follow {α : Type} (k : Calling) (x : Script α) (first : LiveScopes)
    (rest : α → LiveScopes) : LiveScopes := fun w =>
  match x.perform k.runner w with
  | (.ok a, w) => rest a w
  | (.error _, _) => first w

namespace Program

/-! ### Expressions and statements -/

mutual

def exprScopes (p : Program) (k : Calling) (scope : Scope) (enclosing : Option Site) :
    Expr → LiveScopes
  | .const _ _ | .name _ _ => fun _ => []
  | .list elements | .tuple elements => p.exprsScopes k scope enclosing elements
  | .binary _ left right site =>
    k.follow (p.evalExpr k.call scope (some site) left) (p.exprScopes k scope (some site) left) fun _ =>
      k.follow (p.evalExpr k.call scope (some site) right) (p.exprScopes k scope (some site) right)
        fun _ _ => []
  | .call callee args keywords site =>
    k.follow (p.evalExpr k.call scope (some site) callee) (p.exprScopes k scope (some site) callee)
      fun fn =>
        k.follow (p.evalExprs k.call scope (some site) args) (p.exprsScopes k scope (some site) args)
          fun vs =>
            match keywords with
            | none => k.scopes fn vs []
            | some ks =>
              k.follow (p.evalKeywords k.call scope site [] ks) (p.keywordsScopes k scope site [] ks)
                (k.scopes fn vs)

def exprsScopes (p : Program) (k : Calling) (scope : Scope) (enclosing : Option Site) :
    List Expr → LiveScopes
  | [] => fun _ => []
  | e :: rest =>
    k.follow (p.evalExpr k.call scope enclosing e) (p.exprScopes k scope enclosing e) fun _ =>
      p.exprsScopes k scope enclosing rest

def keywordsScopes (p : Program) (k : Calling) (scope : Scope) (site : Site)
    (bound : Bindings Value) : List (String × Expr) → LiveScopes
  | [] => fun _ => []
  | (name, e) :: rest =>
    if bound.has name then fun _ => []
    else
      k.follow (p.evalExpr k.call scope (some site) e) (p.exprScopes k scope (some site) e) fun v =>
        p.keywordsScopes k scope site (bound.set name v) rest

end

def stmtScopes (p : Program) (k : Calling) (scope : Scope) : Stmt → LiveScopes
  | .assign _ value site | .expr value site => p.exprScopes k scope site value
  | .ret none _ => fun _ => []
  | .ret (some value) site => p.exprScopes k scope site value
  | .await _ value site =>
    k.follow (p.evalExpr k.call scope (some site) value) (p.exprScopes k scope (some site) value)
      fun _ _ => []
  | .assert test message site =>
    k.follow (p.evalExpr k.call scope (some site) test) (p.exprScopes k scope (some site) test)
      fun _ =>
        match message with
        | none => fun _ => []
        | some e =>
          k.follow (p.evalExpr k.call scope (some site) e) (p.exprScopes k scope (some site) e)
            fun _ _ => []

/-- The statements of a function, up to its next await. -/
def stmtsScopes (p : Program) (k : Calling) (scope : Scope) : List Stmt → LiveScopes
  | [] => fun _ => []
  | stmt :: rest =>
    k.follow (p.execStmt k.call scope stmt) (p.stmtScopes k scope stmt) fun completion =>
      match completion with
      | .next _ | .bind _ _ => p.stmtsScopes k (scope.after completion) rest
      | .ret _ | .await _ => fun _ => []

/-- The statements of the module, which bind globals. -/
def moduleScopes (p : Program) (k : Calling) : List Stmt → LiveScopes
  | [] => fun _ => []
  | stmt :: rest =>
    k.follow (p.execStmt k.call ⟨CompiledUnit.moduleFrame, [], .module⟩ stmt)
      (p.stmtScopes k ⟨CompiledUnit.moduleFrame, [], .module⟩ stmt) fun completion =>
        match completion with
        | .next _ => p.moduleScopes k rest
        | .bind name v => fun w => p.moduleScopes k rest
            { w with shared := { w.shared with bindings := w.shared.bindings.set name v } }
        | .ret _ | .await _ => fun _ => []

/-! ### Calls -/

def rowsScopes (k : Calling) (fn : Value) : List (List Value) → LiveScopes
  | [] => fun _ => []
  | row :: rest => k.follow (k.call fn row []) (k.scopes fn row []) fun _ => rowsScopes k fn rest

def itemsScopes (k : Calling) (predicate : Value) : List Value → LiveScopes
  | [] => fun _ => []
  | v :: rest =>
    k.follow (k.call predicate [v] []) (k.scopes predicate [v] []) fun _ => itemsScopes k predicate rest

/-- A builtin is no scope; it may call back, or run a coroutine with the scopes that `runs` gives. -/
def executeScopes (k : Calling) (runs : CoroutineRef → LiveScopes) (args : List Value) :
    Builtin → LiveScopes
  | .map =>
    let columns := args.tail.map Value.items
    rowsScopes k (args.headD .none) (Builtin.rows (Builtin.shortest columns) columns)
  | .filter =>
    if (args.headD .none).kind.capabilities.contains .callable then
      itemsScopes k (args.headD .none) (args.tail.headD .none).items
    else fun _ => []
  | .run =>
    match args.headD .none with
    | .coroutine c => runs c
    | _ => fun _ => []
  | _ => fun _ => []

/-- Arguments that do not fit fail in the scope of the call. -/
def builtinScopes (k : Calling) (runs : CoroutineRef → LiveScopes) (b : Builtin) (args : List Value)
    (kwargs : Bindings Value) : LiveScopes :=
  match b.signature.check args kwargs with
  | some _ => fun _ => []
  | none => executeScopes k runs args b

/-- A plain function is a scope inside the one that calls it, once its arguments are bound. -/
def functionScopes (p : Program) (k : Calling) (fn : FunctionDecl) (args : List Value)
    (kwargs : Bindings Value) : LiveScopes :=
  match fn.bindParams args kwargs with
  | .error _ => fun _ => []
  | .ok locals =>
    if fn.isAsync then fun _ => []
    else fun w => fn.name :: p.stmtsScopes k ⟨fn.name, locals, .sync⟩ fn.body w

def callScopes (p : Program) (runner : Runner Body Globals) (runs : CoroutineRef → LiveScopes) :
    (depth : Nat) → Value → List Value → Bindings Value → LiveScopes
  | 0, _, _, _ => fun _ => []
  | depth + 1, fn, args, kwargs =>
    let k : Calling := ⟨runner, p.callValue depth, p.callScopes runner runs depth⟩
    match fn with
    | .builtin b => builtinScopes k runs b args kwargs
    | .function _ decl => p.functionScopes k decl args kwargs
    | _ => fun _ => []

/-- Calls nested at most `depth` deep. -/
def calling (p : Program) (depth : Nat) (runner : Runner Body Globals)
    (runs : CoroutineRef → LiveScopes) : Calling :=
  ⟨runner, p.callValue depth, p.callScopes runner runs depth⟩

/-! ### Coroutines -/

/-- A coroutine of an async function is a scope; the exception that it is handed by an await has the
scopes `thrown`.  A coroutine that hands on what a group comes to is none. -/
def resumeScopes (p : Program) (k : Calling) (thrown : List String) (frame : Frame) (input : Input) :
    Body → LiveScopes
  | .joined _ => fun _ => thrown
  | .function decl => fun w =>
    let scope : Scope := ⟨decl.name, frame.locals, .async⟩
    decl.name ::
      match input with
      | .throw _ => thrown
      | .start => p.stmtsScopes k scope (decl.body.drop frame.pc) w
      | .value v =>
        let scope := match awaitAt? decl frame.pc with
          | some (some x, _) => scope.after (.bind x v)
          | _ => scope
        p.stmtsScopes k scope (decl.body.drop (frame.pc + 1)) w

/-- The scopes of the exception that a resume ended with; runs inside the coroutine nest at most `fuel`
deep. -/
def coroutineScopes (p : Program) (depth : Nat) :
    (fuel : Nat) → Episode Body Globals → (thrown : List String) → List String
  | 0, _, _ => []
  | fuel + 1, e, thrown =>
    let runs : CoroutineRef → LiveScopes := fun c w =>
      w.runScopes (World.resume (p.bodies depth) fuel) (p.coroutineScopes depth fuel) fuel 0 c
    match e.entered.handles.get? e.coroutine.id with
    | none => []
    | some h =>
      p.resumeScopes (p.calling depth (World.runner (p.bodies depth) fuel) runs) thrown h.frame e.input
        h.body (e.entered.enter (p.bodies depth) e.coroutine e.input).2

/-- What is called outside any coroutine, and runs. -/
def outermost (p : Program) (depth fuel : Nat) : Calling :=
  p.calling depth (World.runner (p.bodies depth) fuel) fun c w =>
    w.runScopes (World.resume (p.bodies depth) fuel) (p.coroutineScopes depth fuel) fuel 0 c

end Program

/-- The scopes that were live for the exception that escapes from a unit, outermost first. -/
def CompiledUnit.liveScopes (unit : CompiledUnit) (inputs : Bindings Value) (maxSteps : Option Number) :
    List String :=
  match unit.bindInputs inputs with
  | .error _ => []
  | .ok globals =>
    let p := Program.ofUnit unit
    moduleFrame :: p.moduleScopes (p.outermost Program.bound Program.bound) unit.module
      { p.world maxSteps with shared := ⟨globals, (p.world maxSteps).shared.output⟩ }

end Coroutines
