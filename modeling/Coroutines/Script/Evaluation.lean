import Coroutines.Script.Builtins
import Coroutines.Script.Binding

/-!
# Evaluation

Expressions, statements and calls of a program, and the bodies of its coroutines.  An expression
without a site of its own fails at the site of the call or statement that holds it.  Calls are a
parameter of evaluation and nest within a bound.
-/

namespace Coroutines

namespace Program

/-- The value of a constant; a whole number is an integer unless it is marked as a float. -/
def constant (float : Option Bool) : Literal → Value
  | .none => .none
  | .bool b => .bool b
  | .text s => .str s
  | .number n => if float = some true || !n.isInteger then .float n else .int (.ofNumber n)

/-- What a name stands for: a local, a global, a function or a builtin, in this order. -/
def lookup (p : Program) (scope : Scope) (name : String) : Script (Option Value) :=
  match scope.locals.get? name with
  | some v => pure (some v)
  | none => .read fun g =>
    pure (g.bindings.get? name <|> p.functions.get? name <|>
      (Builtin.ofName? name).map .builtin)

/-- The operation that a call frame names. -/
def operation : Value → String
  | .builtin b => b.name
  | .function _ decl => decl.name
  | _ => "call"

/-- The exception of an assertion that failed, with its message; one that cannot be described is too large. -/
def assertion (message : Value) (frame : CallFrame) : Except Abort Completion :=
  match message.display? with
  | none => .error .tooLarge
  | some text =>
    let failure := Failure.assertion (some text)
    match failure.describe? with
    | none => .error .tooLarge
    | some _ => .error (.script ⟨failure, [frame]⟩)

/-- The message decides whether the exception is too large. -/
theorem assertion_eq (message : Value) : (∀ frame, assertion message frame = .error .tooLarge) ∨
    ∀ frame, assertion message frame = .error (.script ⟨.assertion (some message.display), [frame]⟩) := by
  unfold assertion Value.display? Failure.describe? Text.bounded?
  by_cases hdisplay : Text.maxLength < Text.length message.display
  · exact .inl fun frame => by rw [if_pos hdisplay]
  · simp only [if_neg hdisplay]
    by_cases hdescribe : Text.maxLength < Text.length (Failure.assertion (some message.display)).describe
    · exact .inl fun frame => by rw [if_pos hdescribe]
    · exact .inr fun frame => by rw [if_neg hdescribe]

mutual

/-- Evaluates an expression; `enclosing` is the site of what holds it. -/
def evalExpr (p : Program) (call : Calls) (scope : Scope) (enclosing : Option Site) :
    Expr → Script Value
  | .const value float => pure (constant float value)
  | .name name own => do
    match ← p.lookup scope name with
    | some v => pure v
    | none =>
      .raise ⟨.unboundName name, ((own <|> enclosing).map (p.frame scope.name name [])).toList⟩
  | .list elements => do
    let vs ← p.evalExprs call scope enclosing elements
    pure (.list vs)
  | .tuple elements => do
    let vs ← p.evalExprs call scope enclosing elements
    pure (.tuple vs)
  | .binary op left right site => do
    let a ← p.evalExpr call scope (some site) left
    let b ← p.evalExpr call scope (some site) right
    match op.apply a b with
    | .error (.script r) => .raise (r.within (p.frame scope.name op.symbol [a, b] site))
    | result => .ofExcept result
  | .call callee args keywords site => do
    let fn ← p.evalExpr call scope (some site) callee
    let vs ← p.evalExprs call scope (some site) args
    let kwargs ← match keywords with
      | some ks => p.evalKeywords call scope site [] ks
      | none => pure []
    (call fn vs kwargs).catchScript fun r =>
      .raise (r.within (p.frame scope.name (operation fn) vs site))

/-- Evaluates expressions from left to right. -/
def evalExprs (p : Program) (call : Calls) (scope : Scope) (enclosing : Option Site) :
    List Expr → Script (List Value)
  | [] => pure []
  | e :: rest => do
    let v ← p.evalExpr call scope enclosing e
    let vs ← p.evalExprs call scope enclosing rest
    pure (v :: vs)

/-- Evaluates keyword arguments after those in `bound`; no name may come twice. -/
def evalKeywords (p : Program) (call : Calls) (scope : Scope) (site : Site)
    (bound : Bindings Value) : List (String × Expr) → Script (Bindings Value)
  | [] => pure bound
  | (name, e) :: rest =>
    if bound.has name then
      .raise ⟨.raised .syntaxError (some s!"keyword argument repeated: {name}"),
        [p.frame scope.name "call" [] site]⟩
    else do
      let v ← p.evalExpr call scope (some site) e
      p.evalKeywords call scope site (bound.set name v) rest

end

/-- Executes a statement up to its completion; what it binds is left to the scope's owner. -/
def execStmt (p : Program) (call : Calls) (scope : Scope) : Stmt → Script Completion
  | .assign name value site => do
    let v ← p.evalExpr call scope site value
    pure (.bind name v)
  | .expr value site => do
    let v ← p.evalExpr call scope site value
    pure (.next v)
  | .ret value site =>
    if scope.mode = .module then
      .abort (.raise (.raised .syntaxError (some "'return' outside function")))
    else
      match value with
      | none => pure (.ret .none)
      | some e => do
        let v ← p.evalExpr call scope site e
        pure (.ret v)
  | .assert test message site => do
    let v ← p.evalExpr call scope (some site) test
    if v.truthy then pure (.next .none)
    else
      let frame := p.frame scope.name "assert" [v] site
      match message with
      | none => .raise ⟨.assertion none, [frame]⟩
      | some e => do
        let m ← p.evalExpr call scope (some site) e
        .ofExcept (assertion m frame)
  | .await _ value site => do
    let v ← p.evalExpr call scope (some site) value
    let frame := p.frame scope.name "await" [v] site
    if scope.mode ≠ .async then
      .raise ⟨.raised .syntaxError (some "'await' outside async function"), [frame]⟩
    else
      match v with
      | .coroutine c => pure (.await (.coroutine c))
      | .joinGroup g => pure (.await (.group g))
      | _ => .raise ⟨.notAwaitable v.kindName, [frame]⟩

/-- Runs the statements of a plain function. -/
def runBody (p : Program) (call : Calls) (scope : Scope) : List Stmt → Script Value
  | [] => pure .none
  | stmt :: rest => do
    match ← p.execStmt call scope stmt with
    | .ret v => pure v
    | .await _ =>
      .abort (.host s!"Function '{scope.name}' is not async but reached an await.")
    | completion => p.runBody call (scope.after completion) rest

/-- Calls a function of the unit; the call of an async one makes a coroutine. -/
def callFunction (p : Program) (call : Calls) (fn : FunctionDecl) (args : List Value)
    (kwargs : Bindings Value) : Script Value :=
  match fn.bindParams args kwargs with
  | .error f => .abort (.raise f)
  | .ok locals =>
    if fn.isAsync then .spawn fn.name (.function fn) locals fun c => pure (.coroutine c)
    else p.runBody call ⟨fn.name, locals, .sync⟩ fn.body

/-- Calls a value, with calls nested at most `depth` deep. -/
def callValue (p : Program) : (depth : Nat) → Calls
  | 0, _, _, _ => .abort .outOfFuel
  | depth + 1, fn, args, kwargs =>
    match fn with
    | .builtin b => b.invoke (callValue p depth) args kwargs
    | .function _ decl => p.callFunction (callValue p depth) decl args kwargs
    | _ => .abort (.raise (.argumentShape fn.kindName .callable))

/-! ### Bodies of coroutines -/

/-- Runs the statements of an async function, the first of which is number `pc`. -/
def runAsync (p : Program) (call : Calls) (scope : Scope) (pc : Nat) :
    List Stmt → Script (Frame × Step)
  | [] => pure (⟨pc, scope.locals⟩, .ret .none)
  | stmt :: rest => do
    match ← p.execStmt call scope stmt with
    | .ret v => pure (⟨pc, scope.locals⟩, .ret v)
    | .await target => pure (⟨pc, scope.locals⟩, .await target)
    | completion => p.runAsync call (scope.after completion) (pc + 1) rest

/-- The target and the site of the await that is statement number `pc`. -/
def awaitAt? (fn : FunctionDecl) (pc : Nat) : Option (Option String × Site) :=
  match fn.body[pc]? with
  | some (.await target _ site) => some (target, site)
  | _ => none

/-- Continues an async function: from its first statement, or from the await that it stands at. -/
def resumeFunction (p : Program) (call : Calls) (fn : FunctionDecl) (frame : Frame)
    (input : Input) : Script (Frame × Step) :=
  let scope : Scope := ⟨fn.name, frame.locals, .async⟩
  match input, awaitAt? fn frame.pc with
  | .start, _ => p.runAsync call scope frame.pc (fn.body.drop frame.pc)
  | .throw r, some (_, site) => pure (frame, .raise (r.within (p.frame fn.name "await" [] site)))
  | .value v, some (target, _) =>
    let scope := match target with
      | some x => scope.after (.bind x v)
      | none => scope
    p.runAsync call scope (frame.pc + 1) (fn.body.drop (frame.pc + 1))
  | _, none =>
    .abort (.host
      s!"Coroutine '{fn.name}' resumed at statement {frame.pc}, which is not an await.")

/-- Continues a coroutine that awaits a group and hands its result on. -/
def resumeJoined (group : GroupRef) (frame : Frame) : Input → Script (Frame × Step)
  | .start => pure (frame, .await (.group group))
  | .value v => pure (frame, .ret v)
  | .throw r => pure (frame, .raise r)

/-- The bodies of a program's coroutines, with calls nested at most `depth` deep. -/
def bodies (p : Program) (depth : Nat) : Bodies Body Globals where
  resume body frame input :=
    match body with
    | .function decl => p.resumeFunction (p.callValue depth) decl frame input
    | .joined group => resumeJoined group frame input
  forgets body :=
    match body with
    | .function _ => true
    | .joined _ => false

/-! ### Module statements -/

/-- Runs module statements; `last` is the value of the statement before. -/
def runStatements (p : Program) (call : Calls) (last : Value) : List Stmt → Script Value
  | [] => pure last
  | stmt :: rest => do
    match ← p.execStmt call ⟨CompiledUnit.moduleFrame, [], .module⟩ stmt with
    | .next v => p.runStatements call v rest
    | .bind name v =>
      .modify (fun g => { g with bindings := g.bindings.set name v })
        (p.runStatements call .none rest)
    | .ret _ => .abort (.host "Module statement 'Return' cannot return.")
    | .await _ => .abort (.host "Module statement 'Await' cannot await.")

/-- Runs the module; the value is that of a last expression statement. -/
def runModule (p : Program) (depth : Nat) : Script Value :=
  p.runStatements (p.callValue depth) .none p.unit.module

end Program

end Coroutines
