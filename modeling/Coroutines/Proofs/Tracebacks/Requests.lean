import Coroutines.Proofs.Faults.Requests

/-!
# Orderly scripts

Scripts touch coroutines by running and grouping them, and by awaiting them at the end of a resume; an
error of the host may break them off.  So the bodies of a program are orderly but for such errors.
-/

namespace Coroutines

theorem Action.orderly_done {β σ α : Type} (result : Except Abort α) :
    (Action.done result : Action β σ α).masked.Orderly := by
  rcases result with (_ | _ | _ | _ | _) | _ <;> exact trivial

/-- Calls are orderly but for errors of the host. -/
def Calls.Orderly (call : Calls) : Prop :=
  ∀ fn args kwargs, (call fn args kwargs).masked.Orderly

variable {p : Program} {call : Calls} {scope : Scope}

theorem Calls.Orderly.asks (h : call.Orderly) : call.Asks fun _ => True :=
  fun fn args kwargs => .of_orderly (h fn args kwargs)

/-- Whatever the errors, evaluation asks for runs and groups only. -/
theorem asks_evaluation : Composable fun a => a.Asks (fun _ => True) fun _ => True :=
  asks_composable fun _ _ => trivial

theorem Builtin.orderly_members (args : List Value) : (members args).masked.Orderly :=
  (asks_evaluation.members args).orderly

namespace Program

theorem orderly_lookup (scope : Scope) (name : String) : (p.lookup scope name).masked.Orderly :=
  (asks_evaluation.lookup scope name).orderly

theorem orderly_evalExpr (hcall : call.Orderly) (enclosing : Option Site) (e : Expr) :
    (p.evalExpr call scope enclosing e).masked.Orderly :=
  (asks_evaluation.evalExpr hcall.asks enclosing e).orderly

theorem orderly_evalExprs (hcall : call.Orderly) (enclosing : Option Site) (es : List Expr) :
    (p.evalExprs call scope enclosing es).masked.Orderly :=
  (asks_evaluation.evalExprs hcall.asks enclosing es).orderly

theorem orderly_evalKeywords (hcall : call.Orderly) (site : Site) (bound : Bindings Value)
    (ks : List (String × Expr)) : (p.evalKeywords call scope site bound ks).masked.Orderly :=
  (asks_evaluation.evalKeywords hcall.asks site bound ks).orderly

theorem orderly_execStmt (hcall : call.Orderly) (scope : Scope) (stmt : Stmt) :
    (p.execStmt call scope stmt).masked.Orderly :=
  (asks_execStmt (fun _ _ => trivial) hcall.asks scope stmt).orderly

/-- Calls are orderly. -/
theorem orderly_callValue (p : Program) (depth : Nat) : Calls.Orderly (p.callValue depth) :=
  have h : (p.callValue depth).Asks fun _ => True := asks_callValue (fun _ _ => trivial) p depth
  fun fn args kwargs => (h fn args kwargs).orderly

/-- **The coroutines of a program are orderly**, but for errors of the host. -/
theorem orderly_bodies (p : Program) (depth : Nat) : (p.bodies depth).masked.Orderly := by
  intro body frame input
  cases body with
  | function decl =>
      have h : (p.callValue depth).Asks fun _ => True := asks_callValue (fun _ _ => trivial) p depth
      exact (asks_resumeFunction (fun _ _ => trivial) h decl frame input
        fun _ => .inr fun _ => trivial).orderly
  | joined group => cases input <;> trivial

end Program

end Coroutines
