import Coroutines.Proofs.Faults.Composed
import Coroutines.Proofs.Scopes.Effects

/-!
# What code leaves alone

Scripts share bindings and an output.  Expressions, statements, calls and resumed coroutines change the
output at most, and each coroutine that they make begins with the arguments of a call
(`Program.heeds_callValue`, `Program.heeds_bodies`), by induction on expressions, on statements, and on
how deep calls nest.  So while an expression is evaluated or a statement executed, all that runs on the way
finds the global bindings that it began with (`Program.SparesGlobals.visits`); to bind a global is left to
the module (`Program.runStatements`).
-/

namespace Coroutines

variable {S : Globals → Prop} {P : Body → Bindings Value → Prop}

/-- What the code of scripts does is allowed: it writes to the output, and it makes coroutines that wait
for a group and coroutines of async functions, with the arguments of a call. -/
structure CodeAllowed (S : Globals → Prop) (P : Body → Bindings Value → Prop) : Prop where
  output : ∀ g text, S g → S { g with output := g.output ++ text }
  joined : ∀ group, P (.joined group) []
  function : ∀ {fn : FunctionDecl} {args : List Value} {kwargs locals : Bindings Value},
    fn.isAsync = true → fn.bindParams args kwargs = .ok locals → P (.function fn) locals

/-- Calls do what is allowed. -/
def Calls.Heed (S : Globals → Prop) (P : Body → Bindings Value → Prop) (call : Calls) : Prop :=
  ∀ fn args kwargs, (call fn args kwargs).Heeds S P

section

variable {p : Program} {call : Calls}

/-- Evaluation does what is allowed. -/
theorem heeds_composable (hcode : CodeAllowed S P) : Composable fun a => a.Heeds S P where
  usual _ := .done _
  bind h hk := .bind h hk
  catchScript h hh := .catchScript h hh
  read h := fun g _ => h g
  print text _ h := ⟨fun g => hcode.output g text, h⟩
  identity h := h
  joined _ group _ h := ⟨hcode.joined group, h⟩
  joinAll h := ⟨fun g => h (.ok g), fun r _ => h (.error r)⟩
  run h := ⟨fun v _ => h (.ok v), fun r _ => h (.error r)⟩

namespace Program

theorem heeds_evalExpr (hcode : CodeAllowed S P) (hcall : call.Heed S P) (scope : Scope)
    (enclosing : Option Site) (e : Expr) : (p.evalExpr call scope enclosing e).Heeds S P :=
  (heeds_composable hcode).evalExpr hcall enclosing e

/-! ### Statements and calls -/

/-- A statement keeps what scripts share; what it binds is left to the scope's owner. -/
theorem heeds_execStmt (hcode : CodeAllowed S P) (hcall : call.Heed S P) (scope : Scope) (stmt : Stmt) :
    (p.execStmt call scope stmt).Heeds S P := by
  cases stmt with
  | assign name value site => exact .bind (heeds_evalExpr hcode hcall scope site value) fun _ => trivial
  | expr value site => exact .bind (heeds_evalExpr hcode hcall scope site value) fun _ => trivial
  | ret value site =>
      simp only [execStmt]
      split
      · trivial
      · cases value with
        | none => trivial
        | some e => exact .bind (heeds_evalExpr hcode hcall scope site e) fun _ => trivial
  | assert test message site =>
      refine .bind (heeds_evalExpr hcode hcall scope (some site) test) fun v => ?_
      split
      · trivial
      · cases message with
        | none => trivial
        | some e =>
            refine .bind (heeds_evalExpr hcode hcall scope (some site) e) fun m => ?_
            rcases assertion_eq m with he | he <;> rw [he] <;> trivial
  | await target value site =>
      refine .bind (heeds_evalExpr hcode hcall scope (some site) value) fun v => ?_
      simp only
      split
      · trivial
      · split <;> trivial

theorem heeds_runBody (hcode : CodeAllowed S P) (hcall : call.Heed S P) (scope : Scope)
    (stmts : List Stmt) : (p.runBody call scope stmts).Heeds S P := by
  induction stmts generalizing scope with
  | nil => trivial
  | cons stmt rest ih =>
      refine .bind (heeds_execStmt hcode hcall scope stmt) fun completion => ?_
      cases completion with
      | ret v => trivial
      | await target => trivial
      | next v => exact ih _
      | bind name v => exact ih _

/-- The call of an async function makes a coroutine that begins with the arguments. -/
theorem heeds_callFunction (hcode : CodeAllowed S P) (hcall : call.Heed S P) (fn : FunctionDecl)
    (args : List Value) (kwargs : Bindings Value) : (p.callFunction call fn args kwargs).Heeds S P := by
  unfold callFunction
  split
  · trivial
  · next hbind =>
      split
      · next hasync => exact ⟨hcode.function hasync hbind, fun _ => trivial⟩
      · exact heeds_runBody hcode hcall _ _

/-- **Calls do what is allowed**, by induction on how deep they nest. -/
theorem heeds_callValue (hcode : CodeAllowed S P) (p : Program) (depth : Nat) :
    (p.callValue depth).Heed S P := by
  induction depth with
  | zero => exact fun _ _ _ => trivial
  | succ depth ih =>
      intro fn args kwargs
      cases fn with
      | builtin b => exact (heeds_composable hcode).invoke ih b args kwargs
      | function i decl => exact heeds_callFunction hcode ih decl args kwargs
      | _ => trivial

/-! ### Coroutines -/

theorem heeds_runAsync (hcode : CodeAllowed S P) (hcall : call.Heed S P) (scope : Scope) (pc : Nat)
    (stmts : List Stmt) : (p.runAsync call scope pc stmts).Heeds S P := by
  induction stmts generalizing scope pc with
  | nil => trivial
  | cons stmt rest ih =>
      refine .bind (heeds_execStmt hcode hcall scope stmt) fun completion => ?_
      cases completion with
      | ret v => trivial
      | await target => trivial
      | next v => exact ih ..
      | bind name v => exact ih ..

theorem heeds_resumeFunction (hcode : CodeAllowed S P) (hcall : call.Heed S P) (fn : FunctionDecl)
    (frame : Frame) (input : Input) : (p.resumeFunction call fn frame input).Heeds S P := by
  unfold resumeFunction
  split
  · exact heeds_runAsync hcode hcall ..
  · trivial
  · exact heeds_runAsync hcode hcall ..
  · trivial

/-- **Resumed coroutines do what is allowed.** -/
theorem heeds_bodies (hcode : CodeAllowed S P) (p : Program) (depth : Nat) (body : Body) (frame : Frame)
    (input : Input) : ((p.bodies depth).resume body frame input).Heeds S P := by
  cases body with
  | function decl => exact heeds_resumeFunction hcode (heeds_callValue hcode p depth) decl frame input
  | joined group => cases input <;> trivial

/-! ### The global bindings -/

variable {α γ : Type} {depth fuel : Nat} {a : Script γ} {w w' : World Body Globals}

/-- The code of a script binds no global. -/
def SparesGlobals (a : Script γ) : Prop := ∀ b, a.Heeds (fun g : Globals => g.bindings = b) fun _ _ => True

theorem allowed_of_bindings (b : Bindings Value) :
    CodeAllowed (fun g : Globals => g.bindings = b) fun _ _ => True :=
  ⟨fun _ _ h => h, fun _ => trivial, fun _ _ => trivial⟩

theorem sparesGlobals_evalExpr (p : Program) (depth : Nat) (scope : Scope) (enclosing : Option Site)
    (e : Expr) : SparesGlobals (p.evalExpr (p.callValue depth) scope enclosing e) :=
  fun b => heeds_evalExpr (allowed_of_bindings b) (heeds_callValue (allowed_of_bindings b) p depth) scope
    enclosing e

theorem sparesGlobals_execStmt (p : Program) (depth : Nat) (scope : Scope) (stmt : Stmt) :
    SparesGlobals (p.execStmt (p.callValue depth) scope stmt) :=
  fun b => heeds_execStmt (allowed_of_bindings b) (heeds_callValue (allowed_of_bindings b) p depth) scope
    stmt

theorem upholds_effects_bodies (p : Program) (depth : Nat) (b : Bindings Value) :
    (p.bodies depth).Upholds (.effects (fun g : Globals => g.bindings = b) fun _ _ => True) :=
  fun body frame input _ _ => (heeds_bodies (allowed_of_bindings b) p depth body frame input).mono
    (fun r _ => ⟨trivial, Law.effects_step r.2⟩) fun _ _ => trivial

/-- **At every moment of such code the global bindings are those that it began with**, in whatever body it
is and however tasks take turns. -/
theorem SparesGlobals.visits {rest : Rest Body Globals γ α} {a' : Script α} {level : Nat}
    (ha : SparesGlobals a) (h : World.Visits (p.bodies depth) a fuel w rest a' level w') :
    w'.shared.bindings = w.shared.bindings :=
  h.shared (S := fun g : Globals => g.bindings = w.shared.bindings) (upholds_effects_bodies p depth _)
    (ha _) rfl

/-- They still are when the code has ended. -/
theorem SparesGlobals.perform (ha : SparesGlobals a) (p : Program) (depth fuel : Nat)
    (w : World Body Globals) :
    (a.perform (World.runner (p.bodies depth) fuel) w).2.shared.bindings = w.shared.bindings :=
  World.shared_perform (S := fun g : Globals => g.bindings = w.shared.bindings)
    (upholds_effects_bodies p depth _) (ha _) rfl

/-! ### New coroutines -/

/-- A coroutine begins with the arguments of a call of its async function, or with nothing to wait for its
group. -/
def BeginsBound : Body → Bindings Value → Prop
  | .function fn, locals => fn.isAsync = true ∧ ∃ args kwargs, fn.bindParams args kwargs = .ok locals
  | .joined _, locals => locals = []

theorem allowed_beginsBound : CodeAllowed (fun _ => True) BeginsBound :=
  ⟨fun _ _ _ => trivial, fun _ => rfl, fun hasync hbind => ⟨hasync, _, _, hbind⟩⟩

/-- Whatever coroutine the module or what it runs asks for begins bound. -/
theorem beginsBound_of_visits {rest : Rest Body Globals γ α} {name : String} {body : Body}
    {locals : Bindings Value} {next : CoroutineRef → Script α} {level : Nat}
    (ha : a.Heeds (fun _ : Globals => True) BeginsBound)
    (h : World.Visits (p.bodies depth) a fuel w rest (.spawn name body locals next) level w') :
    BeginsBound body locals :=
  (h.heeds (heeds_bodies allowed_beginsBound p depth) ha).1

theorem heeds_runModule (hcode : CodeAllowed S P) (hmodule : ∀ g b, S g → S { g with bindings := b })
    (p : Program) (depth : Nat) : (p.runModule depth).Heeds S P := by
  have hcall := heeds_callValue hcode p depth
  suffices h : ∀ (stmts : List Stmt) (last : Value),
      (p.runStatements (p.callValue depth) last stmts).Heeds S P from h p.unit.module .none
  intro stmts
  induction stmts with
  | nil => exact fun _ => trivial
  | cons stmt rest ih =>
      intro last
      refine .bind (heeds_execStmt hcode hcall _ stmt) fun completion => ?_
      cases completion with
      | next v => exact ih v
      | bind name v => exact ⟨fun g => hmodule g _, ih .none⟩
      | ret v => trivial
      | await target => trivial

end Program

end

end Coroutines
