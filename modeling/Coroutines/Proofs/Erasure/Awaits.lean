import Coroutines.Proofs.Erasure.Calls
import Coroutines.Proofs.Erasure.Chain

/-!
# Statements of async functions, with and without awaits

How far an async function and what erasure leaves of it get without another coroutine: through every
statement that is no await, and at an await through the arguments of the call that is awaited.  There
the one makes a coroutine and suspends, and the other goes on into the body of the function.
-/

namespace Coroutines

/-! ### Steps without coroutines -/

namespace Action

variable {β σ α γ : Type}

/-- The first action goes on as the second after work without coroutines. -/
inductive Leads : Action β σ α → σ × Nat → Action β σ α → σ × Nat → Prop
  | refl (a : Action β σ α) (st : σ × Nat) : Leads a st a st
  | read {next : σ → Action β σ α} {b : Action β σ α} {st st' : σ × Nat}
      (h : Leads (next st.1) st b st') : Leads (.read next) st b st'
  | modify {f : σ → σ} {next b : Action β σ α} {st st' : σ × Nat}
      (h : Leads next (f st.1, st.2) b st') : Leads (.modify f next) st b st'
  | identity {next : Nat → Action β σ α} {b : Action β σ α} {st st' : σ × Nat}
      (h : Leads (next st.2) (st.1, st.2 + 1) b st') : Leads (.identity next) st b st'

namespace Leads

variable {a b c : Action β σ α} {st st' st'' : σ × Nat}

theorem trans (h : Leads a st b st') (h' : Leads b st' c st'') : Leads a st c st'' := by
  induction h with
  | refl => exact h'
  | read _ ih => exact .read (ih h')
  | modify _ ih => exact .modify (ih h')
  | identity _ ih => exact .identity (ih h')

theorem bind (h : Leads a st b st') (k : α → Action β σ γ) : Leads (a.bind k) st (b.bind k) st' := by
  induction h with
  | refl => exact .refl _ _
  | read _ ih => exact .read ih
  | modify _ ih => exact .modify ih
  | identity _ ih => exact .identity ih

theorem catchScript (h : Leads a st b st') (handler : Record → Action β σ α) :
    Leads (a.catchScript handler) st (b.catchScript handler) st' := by
  induction h with
  | refl => exact .refl _ _
  | read _ ih => exact .read ih
  | modify _ ih => exact .modify ih
  | identity _ ih => exact .identity ih

theorem of_exec {r : Except Abort α} (h : a.exec st = some (r, st')) : Leads a st (.done r) st' := by
  induction a generalizing st with
  | done result =>
      cases h
      exact .refl _ _
  | read next ih => exact .read (ih _ h)
  | modify f next ih => exact .modify (ih h)
  | identity next ih => exact .identity (ih _ h)
  | _ => cases h

theorem exec (h : Leads a st b st') : a.exec st = b.exec st' := by
  induction h with
  | refl => rfl
  | read _ ih => exact ih
  | modify _ ih => exact ih
  | identity _ ih => exact ih

theorem perform {runner : Runner β σ} {w : World β σ} (h : Leads a w.store b st') :
    a.perform runner w = b.perform runner (w.restore st') := by
  generalize hw : w.store = st at h
  induction h generalizing w with
  | refl =>
      rw [← hw]
      rfl
  | read _ ih =>
      subst hw
      exact ih rfl
  | @modify f next b st st' _ ih =>
      subst hw
      exact ih (w := { w with shared := f w.shared }) rfl
  | identity _ ih =>
      subst hw
      exact ih (w := w.identity.2) rfl

end Leads

end Action

/-- The scope after an await of the target came to a value. -/
def Scope.awaited (scope : Scope) (target : Option String) (v : Value) : Scope :=
  match target with
  | some x => scope.after (.bind x v)
  | none => scope

namespace Program

variable {p : Program} {call : Calls} {scope : Scope} {pc : Nat} {st st' : Globals × Nat}
  {s : Stmt} {rest : List Stmt}

/-! ### Statements that are no awaits -/

theorem leads_runAsync_error {e : Abort}
    (h : (p.execStmt call scope s).exec st = some (.error e, st')) :
    Action.Leads (p.runAsync call scope pc (s :: rest)) st (.done (.error e)) st' :=
  (Action.Leads.of_exec h).bind _

theorem leads_runAsync_ret {v : Value}
    (h : (p.execStmt call scope s).exec st = some (.ok (.ret v), st')) :
    Action.Leads (p.runAsync call scope pc (s :: rest)) st
      (.done (.ok (⟨pc, scope.locals⟩, .ret v))) st' :=
  (Action.Leads.of_exec h).bind _

theorem leads_runAsync_next {c : Completion} {unit : CompiledUnit} (hc : c.Kept unit)
    (hret : ∀ v, c ≠ .ret v) (h : (p.execStmt call scope s).exec st = some (.ok c, st')) :
    Action.Leads (p.runAsync call scope pc (s :: rest)) st
      (p.runAsync call (scope.after c) (pc + 1) rest) st' := by
  cases c with
  | ret v => exact (hret v rfl).elim
  | await target => exact hc.elim
  | next v => exact (Action.Leads.of_exec h).bind _
  | bind n v => exact (Action.Leads.of_exec h).bind _

theorem leads_runBody_error {e : Abort}
    (h : (p.execStmt call scope s).exec st = some (.error e, st')) :
    Action.Leads (p.runBody call scope (s :: rest)) st (.done (.error e)) st' :=
  (Action.Leads.of_exec h).bind _

theorem leads_runBody_ret {v : Value}
    (h : (p.execStmt call scope s).exec st = some (.ok (.ret v), st')) :
    Action.Leads (p.runBody call scope (s :: rest)) st (.done (.ok v)) st' :=
  (Action.Leads.of_exec h).bind _

theorem leads_runBody_next {c : Completion} {unit : CompiledUnit} (hc : c.Kept unit)
    (hret : ∀ v, c ≠ .ret v) (h : (p.execStmt call scope s).exec st = some (.ok c, st')) :
    Action.Leads (p.runBody call scope (s :: rest)) st
      (p.runBody call (scope.after c) rest) st' := by
  cases c with
  | ret v => exact (hret v rfl).elim
  | await target => exact hc.elim
  | next v => exact (Action.Leads.of_exec h).bind _
  | bind n v => exact (Action.Leads.of_exec h).bind _

/-! ### Calls of async functions -/

variable {enclosing own : Option Site} {f : String} {fn : Value} {args : List Expr}
  {keywords : Option (List (String × Expr))} {site : Site}

theorem leads_name (hlocals : scope.locals.get? f = none) (hglobals : st.1.bindings.get? f = none)
    (hf : p.functions.get? f = some fn) :
    Action.Leads (p.evalExpr call scope enclosing (.name f own)) st (.done (.ok fn)) st := by
  have hlookup : Action.Leads (p.lookup scope f) st (.done (.ok (some fn))) st := by
    unfold lookup
    rw [hlocals]
    refine .read ?_
    rw [hglobals, hf]
    exact .refl _ _
  simp only [evalExpr]
  exact hlookup.bind _

/-- A call under the name of a function goes on with its arguments. -/
theorem leads_callee (hlocals : scope.locals.get? f = none) (hglobals : st.1.bindings.get? f = none)
    (hf : p.functions.get? f = some fn) :
    Action.Leads (p.evalExpr call scope enclosing (.call (.name f own) args keywords site)) st
      ((p.evalArguments call scope args keywords site).bind fun a =>
        (call fn a.1 a.2).catchScript fun r =>
          .raise (r.within (p.frame scope.name (operation fn) a.1 site))) st := by
  rw [evalExpr_call]
  exact (leads_name hlocals hglobals hf).bind _

/-- A call under the name of a function goes on with what the arguments come to. -/
theorem leads_call (hlocals : scope.locals.get? f = none) (hglobals : st.1.bindings.get? f = none)
    (hf : p.functions.get? f = some fn) {r : Except Abort (List Value × Bindings Value)}
    (h : (p.evalArguments call scope args keywords site).exec st = some (r, st')) :
    Action.Leads (p.evalExpr call scope enclosing (.call (.name f own) args keywords site)) st
      ((Action.done r).bind fun a => (call fn a.1 a.2).catchScript fun r =>
        .raise (r.within (p.frame scope.name (operation fn) a.1 site))) st' :=
  (leads_callee hlocals hglobals hf).trans ((Action.Leads.of_exec h).bind _)

theorem callValue_error {depth i : Nat} {decl : FunctionDecl} {vs : List Value}
    {kwargs : Bindings Value} {failure : Failure} (h : decl.bindParams vs kwargs = .error failure) :
    p.callValue (depth + 1) (.function i decl) vs kwargs = .abort (.raise failure) := by
  simp only [callValue, callFunction, h]

theorem callValue_async {depth i : Nat} {decl : FunctionDecl} {vs : List Value}
    {kwargs locals : Bindings Value} (h : decl.bindParams vs kwargs = .ok locals)
    (ha : decl.isAsync = true) : p.callValue (depth + 1) (.function i decl) vs kwargs =
      .spawn decl.name (.function decl) locals fun c => .done (.ok (.coroutine c)) := by
  simp only [callValue, callFunction, h, ha, if_true]
  rfl

theorem callValue_erase {depth i : Nat} {decl : FunctionDecl} {vs : List Value}
    {kwargs locals : Bindings Value} (h : decl.bindParams vs kwargs = .ok locals) :
    p.callValue (depth + 1) (.function i decl.erase) vs kwargs =
      p.runBody (p.callValue depth) ⟨decl.name, locals, .sync⟩ (decl.body.map Stmt.erase) := by
  simp only [callValue, callFunction, FunctionDecl.erase_bindParams, h]
  rfl

/-! ### Awaits -/

variable {target : Option String} {value : Expr}

theorem leads_await_error {e : Abort}
    (h : Action.Leads (p.evalExpr call scope (some site) value) st (.done (.error e)) st') :
    Action.Leads (p.runAsync call scope pc (.await target value site :: rest)) st
      (.done (.error e)) st' := (h.bind _).bind _

/-- An await of a new coroutine suspends with it. -/
theorem leads_await_spawn (hmode : scope.mode = .async) {name : String} {body : Body}
    {locals : Bindings Value}
    (h : Action.Leads (p.evalExpr call scope (some site) value) st
      (.spawn name body locals fun c => .done (.ok (.coroutine c))) st') :
    Action.Leads (p.runAsync call scope pc (.await target value site :: rest)) st
      (.spawn name body locals fun c =>
        .done (.ok (⟨pc, scope.locals⟩, .await (.coroutine c)))) st' := by
  refine ((h.bind _).bind _).trans ?_
  simp only [Action.bind, hmode]
  exact .refl _ _

/-- Where an await was, what it awaited is evaluated. -/
theorem leads_erased_await {b : Script Value} {stmts : List Stmt}
    (h : Action.Leads (p.evalExpr call scope (some site) value.erase) st b st') :
    Action.Leads (p.runBody call scope ((Stmt.await target value site).erase :: stmts)) st
      (b.bind fun v => p.runBody call (scope.awaited target v) stmts) st' := by
  cases target with
  | none =>
      refine ((h.bind _).bind _).trans ?_
      rw [Action.bind_assoc]
      exact .refl _ _
  | some x =>
      refine ((h.bind _).bind _).trans ?_
      rw [Action.bind_assoc]
      exact .refl _ _

end Program

end Coroutines
