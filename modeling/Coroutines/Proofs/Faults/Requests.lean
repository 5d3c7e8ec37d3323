import Coroutines.Proofs.Faults.Composed

/-!
# What the code of a program asks for

Code touches coroutines by running and grouping them, and what it ends with depends on where it runs: a
statement returns inside of functions and awaits inside of async ones only, and an async function is left
at an await.  So code ends with values, with exceptions of the script and at the bounds of the host, and
the errors that the host keeps for broken programs stay out of reach (`Program.asks_callValue`), by
induction on expressions, on statements, and on how deep calls nest.  The one place to which they are
left is a coroutine that stands at no await (`Program.asks_resumeFunction`).
-/

namespace Coroutines

/-! ### Actions -/

namespace Action

variable {β σ α γ : Type}

/-- The action touches coroutines by running and grouping them only; it ends with values of which `post`
holds or with errors of which `err` holds, whatever its requests come back with. -/
def Asks (err : Abort → Prop) (post : α → Prop) : Action β σ α → Prop
  | .done (.ok a) => post a
  | .done (.error e) => err e
  | .read next => ∀ s, (next s).Asks err post
  | .modify _ next => next.Asks err post
  | .identity next => ∀ n, (next n).Asks err post
  | .spawn _ _ _ next => ∀ c, (next c).Asks err post
  | .joinAll _ _ _ next => ∀ r, (next r).Asks err post
  | .run _ _ next => ∀ r, (next r).Asks err post
  | .resume _ _ _ => False
  | .claim _ _ _ => False
  | .release _ _ => False

namespace Asks

variable {err : Abort → Prop} {post : α → Prop} {post' : γ → Prop}

theorem mono {a : Action β σ α} {err' : Abort → Prop} {post' : α → Prop} (h : a.Asks err post)
    (herr : ∀ e, err e → err' e) (hpost : ∀ x, post x → post' x) : a.Asks err' post' := by
  induction a with
  | done result =>
      cases result with
      | ok x => exact hpost x h
      | error e => exact herr e h
  | modify f next ih => exact ih h
  | resume c input next ih => exact h.elim
  | claim c task next ih => exact h.elim
  | release c next ih => exact h.elim
  | read next ih => exact fun x => ih x (h x)
  | identity next ih => exact fun x => ih x (h x)
  | spawn name body locals next ih => exact fun x => ih x (h x)
  | joinAll s members re next ih => exact fun x => ih x (h x)
  | run s c next ih => exact fun x => ih x (h x)

theorem bind {a : Action β σ α} {k : α → Action β σ γ} (h : a.Asks err post)
    (hk : ∀ x, post x → (k x).Asks err post') : (a.bind k).Asks err post' := by
  induction a with
  | done result =>
      cases result with
      | ok x => exact hk x h
      | error e => exact h
  | modify f next ih => exact ih h
  | resume c input next ih => exact h.elim
  | claim c task next ih => exact h.elim
  | release c next ih => exact h.elim
  | read next ih => exact fun x => ih x (h x)
  | identity next ih => exact fun x => ih x (h x)
  | spawn name body locals next ih => exact fun x => ih x (h x)
  | joinAll s members re next ih => exact fun x => ih x (h x)
  | run s c next ih => exact fun x => ih x (h x)

theorem catchScript {a : Action β σ α} {handler : Record → Action β σ α} (h : a.Asks err post)
    (hh : ∀ r, (handler r).Asks err post) : (a.catchScript handler).Asks err post := by
  induction a with
  | done result =>
      rcases result with (r | _ | _ | _ | _) | x
      · exact hh r
      all_goals exact h
  | modify f next ih => exact ih h
  | resume c input next ih => exact h.elim
  | claim c task next ih => exact h.elim
  | release c next ih => exact h.elim
  | read next ih => exact fun x => ih x (h x)
  | identity next ih => exact fun x => ih x (h x)
  | spawn name body locals next ih => exact fun x => ih x (h x)
  | joinAll s members re next ih => exact fun x => ih x (h x)
  | run s c next ih => exact fun x => ih x (h x)

/-- An action that asks for nothing else is orderly but for errors of the host. -/
theorem orderly {a : Action β σ α} (h : a.Asks err post) : a.masked.Orderly := by
  induction a with
  | done result => rcases result with (_ | _ | _ | _ | _) | _ <;> trivial
  | modify f next ih => exact ih h
  | resume c input next ih => exact h.elim
  | claim c task next ih => exact h.elim
  | release c next ih => exact h.elim
  | read next ih => exact fun x => ih x (h x)
  | identity next ih => exact fun x => ih x (h x)
  | spawn name body locals next ih => exact fun x => ih x (h x)
  | joinAll s members re next ih => exact fun x => ih x (h x)
  | run s c next ih => exact fun x => ih x (h x)

/-- What an action ends with in any world. -/
theorem value {a : Action β σ α} (h : a.Asks err post) {runner : Runner β σ} {w w' : World β σ}
    {x : α} (he : a.perform runner w = (.ok x, w')) : post x := by
  induction a generalizing w with
  | done result =>
      cases he
      exact h
  | read next ih => exact ih _ (h _) he
  | modify f next ih => exact ih h he
  | identity next ih => exact ih _ (h _) he
  | spawn name body locals next ih => exact ih _ (h _) he
  | joinAll s members re next ih =>
      simp only [perform] at he
      split at he <;> exact ih _ (h _) he
  | run s c next ih =>
      simp only [perform] at he
      split at he
      · exact ih _ (h _) he
      · cases he
  | resume c input next ih => exact h.elim
  | claim c task next ih => exact h.elim
  | release c next ih => exact h.elim

end Asks

/-- Any action that is orderly but for errors of the host asks for nothing else. -/
theorem Asks.of_orderly {a : Action β σ α} (h : a.masked.Orderly) :
    a.Asks (fun _ => True) fun _ => True := by
  induction a with
  | done result => cases result <;> trivial
  | modify f next ih => exact ih h
  | resume c input next ih => exact h.elim
  | claim c task next ih => exact h.elim
  | release c next ih => exact h.elim
  | read next ih => exact fun x => ih x (h x)
  | identity next ih => exact fun x => ih x (h x)
  | spawn name body locals next ih => exact fun x => ih x (h x)
  | joinAll s members re next ih => exact fun x => ih x (h x)
  | run s c next ih => exact fun x => ih x (h x)

end Action

open Coroutines.Action

/-- Calls ask for runs and groups only, and end with errors of which `err` holds if without a value. -/
def Calls.Asks (err : Abort → Prop) (call : Calls) : Prop :=
  ∀ fn args kwargs, (call fn args kwargs).Asks err fun _ => True

section

variable {p : Program} {call : Calls} {scope : Scope} {err : Abort → Prop}

/-- Evaluation asks for runs and groups only. -/
theorem asks_composable (herr : ∀ e : Abort, e.isHost = false → err e) :
    Composable fun a => a.Asks err fun _ => True where
  usual {_ result} h := by
    cases result with
    | ok a => trivial
    | error e => exact herr e h
  bind h hk := h.bind fun x _ => hk x
  catchScript h hh := h.catchScript hh
  read h := h
  print _ _ h := h
  identity h := h
  joined _ _ _ h := h
  joinAll h := h
  run h := h

namespace Program

theorem asks_evalExpr (herr : ∀ e : Abort, e.isHost = false → err e) (hcall : call.Asks err)
    (enclosing : Option Site) (e : Expr) : (p.evalExpr call scope enclosing e).Asks err fun _ => True :=
  (asks_composable herr).evalExpr hcall enclosing e

/-! ### Statements -/

/-- Statements return inside of functions and await inside of async ones only, and what awaits is an
await. -/
def Fits (mode : Mode) (stmt : Stmt) : Completion → Prop
  | .next _ => True
  | .bind _ _ => True
  | .ret _ => mode ≠ .module
  | .await _ => mode = .async ∧ ∃ target value site, stmt = .await target value site

theorem asks_execStmt (herr : ∀ e : Abort, e.isHost = false → err e) (hcall : call.Asks err)
    (scope : Scope) (stmt : Stmt) :
    (p.execStmt call scope stmt).Asks err (Fits scope.mode stmt) := by
  cases stmt with
  | assign name value site => exact (asks_evalExpr herr hcall site value).bind fun _ _ => trivial
  | expr value site => exact (asks_evalExpr herr hcall site value).bind fun _ _ => trivial
  | ret value site =>
      simp only [execStmt]
      split
      · exact herr _ rfl
      · next hmode =>
          cases value with
          | none => exact hmode
          | some e => exact (asks_evalExpr herr hcall site e).bind fun _ _ => hmode
  | assert test message site =>
      refine (asks_evalExpr herr hcall (some site) test).bind fun v _ => ?_
      simp only
      split
      · trivial
      · cases message with
        | none => exact herr _ rfl
        | some e =>
            refine (asks_evalExpr herr hcall (some site) e).bind fun m _ => ?_
            rcases assertion_eq m with he | he <;> rw [he] <;> exact herr _ rfl
  | await target value site =>
      refine (asks_evalExpr herr hcall (some site) value).bind fun v _ => ?_
      simp only
      split
      · exact herr _ rfl
      · next hmode =>
          have hasync : scope.mode = .async := Decidable.of_not_not hmode
          split
          · exact ⟨hasync, _, _, _, rfl⟩
          · exact ⟨hasync, _, _, _, rfl⟩
          · exact herr _ rfl

/-- No statement of a plain function awaits. -/
theorem asks_runBody (herr : ∀ e : Abort, e.isHost = false → err e) (hcall : call.Asks err)
    (scope : Scope) (hmode : scope.mode = .sync) (stmts : List Stmt) :
    (p.runBody call scope stmts).Asks err fun _ => True := by
  induction stmts generalizing scope with
  | nil => trivial
  | cons stmt rest ih =>
      refine (asks_execStmt herr hcall scope stmt).bind fun completion hfits => ?_
      cases completion with
      | ret v => trivial
      | await target =>
          rw [Fits, hmode] at hfits
          cases hfits.1
      | next v => exact ih _ hmode
      | bind name v => exact ih _ hmode

/-- **Calls do not run into errors of the host**, by induction on how deep they nest. -/
theorem asks_callValue (herr : ∀ e : Abort, e.isHost = false → err e) (p : Program) (depth : Nat) :
    (p.callValue depth).Asks err := by
  induction depth with
  | zero => exact fun _ _ _ => herr _ rfl
  | succ depth ih =>
      intro fn args kwargs
      cases fn with
      | builtin b => exact (asks_composable herr).invoke ih b args kwargs
      | function i decl =>
          simp only [callValue, callFunction]
          split
          · exact herr _ rfl
          · split
            · exact fun _ => trivial
            · exact asks_runBody herr ih _ rfl _
      | _ => exact herr _ rfl

/-- No module statement returns or awaits. -/
theorem asks_runStatements (herr : ∀ e : Abort, e.isHost = false → err e) (hcall : call.Asks err)
    (last : Value) (stmts : List Stmt) :
    (p.runStatements call last stmts).Asks err fun _ => True := by
  induction stmts generalizing last with
  | nil => trivial
  | cons stmt rest ih =>
      refine (asks_execStmt herr hcall _ stmt).bind fun completion hfits => ?_
      cases completion with
      | next v => exact ih v
      | bind name v => exact ih .none
      | ret v => exact absurd rfl hfits
      | await target => cases hfits.1

/-! ### Coroutines -/

/-- A coroutine is left at an await of its function. -/
def AtAwait (fn : FunctionDecl) (r : Frame × Step) : Prop :=
  ∀ target, r.2 = .await target → (awaitAt? fn r.1.pc).isSome = true

/-- An async function that goes on with the statements from some place on awaits at one of them. -/
theorem asks_runAsync (herr : ∀ e : Abort, e.isHost = false → err e) (hcall : call.Asks err)
    {fn : FunctionDecl} (scope : Scope) {pc : Nat} {stmts : List Stmt}
    (hstmts : stmts = fn.body.drop pc) :
    (p.runAsync call scope pc stmts).Asks err (AtAwait fn) := by
  induction stmts generalizing scope pc with
  | nil => exact nofun
  | cons stmt rest ih =>
      refine (asks_execStmt herr hcall scope stmt).bind fun completion hfits => ?_
      have hrest : rest = fn.body.drop (pc + 1) := by
        rw [← List.tail_drop, ← hstmts, List.tail_cons]
      cases completion with
      | ret v => exact nofun
      | next v => exact ih _ hrest
      | bind name v => exact ih _ hrest
      | await target =>
          obtain ⟨-, target, value, site, rfl⟩ := hfits
          have hat : fn.body[pc]? = some (.await target value site) := by
            rw [← List.head?_drop, ← hstmts, List.head?_cons]
          intro _ _
          simp only [awaitAt?, hat, Option.isSome_some]

/-- An async function goes on from its first statement or from an await of its own; one that stood
anywhere else would be an error of the host. -/
theorem asks_resumeFunction (herr : ∀ e : Abort, e.isHost = false → err e) (hcall : call.Asks err)
    (fn : FunctionDecl) (frame : Frame) (input : Input)
    (hat : input.isStart = false → (awaitAt? fn frame.pc).isSome = true ∨ ∀ e, err e) :
    (p.resumeFunction call fn frame input).Asks err (AtAwait fn) := by
  cases ha : awaitAt? fn frame.pc with
  | some await =>
      cases input with
      | start => exact asks_runAsync herr hcall _ rfl
      | throw r => simpa only [resumeFunction, ha] using nofun
      | value v => simpa only [resumeFunction, ha] using asks_runAsync herr hcall _ rfl
  | none =>
      have stray (h : input.isStart = false) : ∀ e, err e := by
        refine (hat h).resolve_left ?_
        rw [ha]
        exact nofun
      cases input with
      | start => exact asks_runAsync herr hcall _ rfl
      | throw r =>
          simp only [resumeFunction, ha]
          exact stray rfl _
      | value v =>
          simp only [resumeFunction, ha]
          exact stray rfl _

end Program

end

end Coroutines
