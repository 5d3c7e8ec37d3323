import Coroutines.Proofs.Crashes
import Coroutines.Script.Host

/-!
# What evaluation is put together from

Expressions and builtins are evaluated by a few steps: they come to results, go on from values and from
exceptions, read what scripts share, write to the output, and ask for identities, groups, runs and calls.
What holds of these steps and of whatever they put together (`Composable`) holds of all evaluation, by
induction on expressions (`Composable.evalExpr`).  The results themselves are no errors that the host keeps
for broken programs (`Usual`).
-/

namespace Coroutines

/-! ### Errors of the host -/

namespace Abort

/-- Whether an error is one that the host keeps for broken programs. -/
def isHost : Abort → Bool
  | .host _ => true
  | _ => false

end Abort

/-- A result that is no error of the host. -/
def Usual {α : Type} : Except Abort α → Prop
  | .ok _ => True
  | .error e => e.isHost = false

namespace Usual

theorem ofOption (o : Option Value) : Usual (Value.ofOption o) := by
  cases o <;> trivial

theorem concat (left right : Value) : Usual (left.concat right) := by
  unfold Value.concat
  split
  · exact ofOption _
  all_goals trivial

theorem repeatItems (items : List Value) (n : Number) : Usual ((Value.repeatItems items n).map Value.list) := by
  rcases Value.repeatItems_cases items n with h | ⟨k, h⟩ <;> rw [h] <;> trivial

theorem replicate (left right : Value) : Usual (left.replicate right) := by
  unfold Value.replicate
  split
  split
  · trivial
  · exact ofOption _
  · exact repeatItems _ _
  · trivial

theorem less (left right : Value) : Usual (left.less right) := by
  unfold Value.less
  split <;> trivial

theorem apply (op : BinaryOp) (left right : Value) : Usual (op.apply left right) := by
  cases op with
  | eq => trivial
  | ne => trivial
  | add =>
      simp only [BinaryOp.apply]
      split
      · trivial
      · exact concat left right
  | sub =>
      simp only [BinaryOp.apply]
      split <;> trivial
  | mul =>
      simp only [BinaryOp.apply]
      split
      · trivial
      · exact replicate left right
  | lt =>
      simp only [BinaryOp.apply]
      split
      · trivial
      · exact less left right

theorem length (v : Value) : Usual (Builtin.length v) := by
  unfold Builtin.length
  split <;> trivial

theorem absolute (v : Value) : Usual (Builtin.absolute v) := by
  unfold Builtin.absolute
  split <;> trivial

theorem indices (args : List Value) : Usual (args.mapM Builtin.index) := by
  induction args with
  | nil => trivial
  | cons v rest ih =>
      have hv : Usual (Builtin.index v) := by
        unfold Builtin.index
        split <;> trivial
      rw [List.mapM_cons]
      cases hi : Builtin.index v with
      | error e =>
          rw [hi] at hv
          exact hv
      | ok n =>
          cases hr : rest.mapM Builtin.index with
          | error e =>
              rw [hr] at ih
              exact ih
          | ok ns => trivial

theorem sumItems (acc : Value) (items : List Value) : Usual (Builtin.sumItems acc items) := by
  induction items generalizing acc with
  | nil => trivial
  | cons v rest ih =>
      have happ := apply .add acc v
      simp only [Builtin.sumItems]
      split
      · exact ih _
      · next e =>
          rw [e] at happ
          exact happ

end Usual

open Coroutines.Action

/-- A property of script work that the steps of evaluation have, and all that is put together from work
that has it. -/
structure Composable (Q : {α : Type} → Script α → Prop) : Prop where
  usual {α : Type} {result : Except Abort α} : Usual result → Q (.done result : Script α)
  bind {α γ : Type} {a : Script α} {k : α → Script γ} : Q a → (∀ x, Q (k x)) → Q (a.bind k)
  catchScript {α : Type} {a : Script α} {handler : Record → Script α} :
    Q a → (∀ r, Q (handler r)) → Q (a.catchScript handler)
  read {α : Type} {next : Globals → Script α} : (∀ g, Q (next g)) → Q (.read next)
  print {α : Type} (text : String) {next : Script α} :
    Q next → Q (.modify (fun g => { g with output := g.output ++ text }) next)
  identity {α : Type} {next : Nat → Script α} : (∀ n, Q (next n)) → Q (.identity next)
  /-- A group among the members of another is awaited by a coroutine of its own. -/
  joined {α : Type} (name : String) (group : GroupRef) {next : CoroutineRef → Script α} :
    (∀ c, Q (next c)) → Q (.spawn name (.joined group) [] next)
  joinAll {α : Type} {s : Nat} {members : List CoroutineRef} {re : Bool}
    {next : Except Record GroupRef → Script α} : (∀ r, Q (next r)) → Q (.joinAll s members re next)
  run {α : Type} {s : Nat} {c : CoroutineRef} {next : Except Record Value → Script α} :
    (∀ r, Q (next r)) → Q (.run s c next)

namespace Composable

variable {Q : {α : Type} → Script α → Prop} {p : Program} {call : Calls} {scope : Scope}

theorem value (hQ : Composable Q) {α : Type} (a : α) : Q (.done (.ok a) : Script α) :=
  by
  have h : Usual (.ok a : Except Abort α) := trivial
  exact hQ.usual h

theorem error (hQ : Composable Q) {α : Type} {e : Abort} (he : e.isHost = false) :
    Q (.done (.error e) : Script α) := by
  have h : Usual (.error e : Except Abort α) := he
  exact hQ.usual h

/-! ### Builtins -/

theorem members (hQ : Composable Q) (args : List Value) : Q (Builtin.members args) := by
  induction args with
  | nil => exact hQ.value _
  | cons v rest ih =>
      cases v with
      | coroutine c => exact hQ.bind ih fun _ => hQ.value _
      | joinGroup g => exact hQ.joined _ g fun c => hQ.bind ih fun _ => hQ.value _
      | _ => exact ih

theorem mapRows (hQ : Composable Q) (hcall : ∀ fn args kwargs, Q (call fn args kwargs)) (fn : Value)
    (table : List (List Value)) : Q (Builtin.mapRows call fn table) := by
  induction table with
  | nil => exact hQ.value _
  | cons row rest ih => exact hQ.bind (hcall fn row []) fun _ => hQ.bind ih fun _ => hQ.value _

theorem filterItems (hQ : Composable Q) (hcall : ∀ fn args kwargs, Q (call fn args kwargs))
    (predicate : Value) (items : List Value) : Q (Builtin.filterItems call predicate items) := by
  induction items with
  | nil => exact hQ.value _
  | cons v rest ih =>
      simp only [Builtin.filterItems]
      split
      · exact hQ.bind (hQ.value v) fun _ => hQ.bind ih fun _ => hQ.value _
      · exact hQ.bind (hcall predicate [v] []) fun _ => hQ.bind ih fun _ => hQ.value _

theorem compute (hQ : Composable Q) (hcall : ∀ fn args kwargs, Q (call fn args kwargs))
    (kwargs : Bindings Value) (b : Builtin) (args : List Value) : Q (b.compute call kwargs args) := by
  cases b with
  | abs => exact hQ.usual (.absolute _)
  | len => exact hQ.usual (.length _)
  | range =>
      refine hQ.bind (hQ.usual (.indices args)) fun bounds => ?_
      simp only
      split
      · exact hQ.error rfl
      · exact hQ.identity fun _ => hQ.value _
  | map => exact hQ.bind (hQ.mapRows hcall _ _) fun _ => hQ.value _
  | filter =>
      simp only [Builtin.compute]
      split
      · exact hQ.bind (hQ.filterItems hcall _ _) fun _ => hQ.value _
      · exact hQ.bind (hQ.filterItems hcall _ _) fun _ => hQ.value _
      · exact hQ.error rfl
  | sum =>
      simp only [Builtin.compute]
      split
      · exact hQ.error rfl
      · exact hQ.usual (.sumItems _ _)
  | print =>
      refine hQ.print _ ?_
      rcases Builtin.printed_snd args with h | h <;> rw [h]
      · exact hQ.value _
      · exact hQ.error rfl
  | run =>
      simp only [Builtin.compute]
      split
      · refine hQ.run fun r => ?_
        cases r with
        | ok v => exact hQ.value v
        | error r => exact hQ.error rfl
      · exact hQ.error rfl
  | gather =>
      refine hQ.bind (hQ.members args) fun cs => hQ.joinAll fun r => ?_
      cases r with
      | ok g => exact hQ.value _
      | error r => exact hQ.error rfl
  | _ => exact hQ.value _

theorem execute (hQ : Composable Q) (hcall : ∀ fn args kwargs, Q (call fn args kwargs))
    (kwargs : Bindings Value) (b : Builtin) (args : List Value) : Q (b.execute call kwargs args) := by
  unfold Builtin.execute
  split
  · exact hQ.error rfl
  · exact hQ.compute hcall kwargs b args

theorem invoke (hQ : Composable Q) (hcall : ∀ fn args kwargs, Q (call fn args kwargs)) (b : Builtin)
    (args : List Value) (kwargs : Bindings Value) : Q (b.invoke call args kwargs) := by
  unfold Builtin.invoke Signature.guard
  split
  · exact hQ.error rfl
  · exact hQ.execute hcall kwargs b args

/-! ### Expressions -/

theorem lookup (hQ : Composable Q) (scope : Scope) (name : String) : Q (p.lookup scope name) := by
  unfold Program.lookup
  split
  · exact hQ.value _
  · exact hQ.read fun _ => hQ.value _

mutual

/-- **What is put together from calls that have the property has it**, by induction on expressions. -/
theorem evalExpr (hQ : Composable Q) (hcall : ∀ fn args kwargs, Q (call fn args kwargs)) :
    ∀ (enclosing : Option Site) (e : Expr), Q (p.evalExpr call scope enclosing e)
  | _, .const _ _ => hQ.value _
  | _, .name name _ => hQ.bind (hQ.lookup scope name) fun v => by
      cases v with
      | some v => exact hQ.value v
      | none => exact hQ.error rfl
  | enclosing, .list elements => hQ.bind (evalExprs hQ hcall enclosing elements) fun _ => hQ.value _
  | enclosing, .tuple elements => hQ.bind (evalExprs hQ hcall enclosing elements) fun _ => hQ.value _
  | _, .binary op left right site =>
      hQ.bind (evalExpr hQ hcall (some site) left) fun a =>
        hQ.bind (evalExpr hQ hcall (some site) right) fun b => by
          have happ := Usual.apply op a b
          split
          · exact hQ.error rfl
          · exact hQ.usual happ
  | _, .call callee args none site =>
      hQ.bind (evalExpr hQ hcall (some site) callee) fun fn =>
        hQ.bind (evalExprs hQ hcall (some site) args) fun vs =>
          hQ.catchScript (hcall fn vs []) fun _ => hQ.error rfl
  | _, .call callee args (some ks) site =>
      hQ.bind (evalExpr hQ hcall (some site) callee) fun fn =>
        hQ.bind (evalExprs hQ hcall (some site) args) fun vs =>
          hQ.bind (evalKeywords hQ hcall site [] ks) fun kwargs =>
            hQ.catchScript (hcall fn vs kwargs) fun _ => hQ.error rfl

theorem evalExprs (hQ : Composable Q) (hcall : ∀ fn args kwargs, Q (call fn args kwargs)) :
    ∀ (enclosing : Option Site) (es : List Expr), Q (p.evalExprs call scope enclosing es)
  | _, [] => hQ.value _
  | enclosing, e :: rest =>
      hQ.bind (evalExpr hQ hcall enclosing e) fun _ =>
        hQ.bind (evalExprs hQ hcall enclosing rest) fun _ => hQ.value _

theorem evalKeywords (hQ : Composable Q) (hcall : ∀ fn args kwargs, Q (call fn args kwargs)) :
    ∀ (site : Site) (bound : Bindings Value) (ks : List (String × Expr)),
      Q (p.evalKeywords call scope site bound ks)
  | _, _, [] => hQ.value _
  | site, bound, (k, e) :: rest => by
      simp only [Program.evalKeywords]
      split
      · exact hQ.error rfl
      · exact hQ.bind (evalExpr hQ hcall (some site) e) fun v =>
          evalKeywords hQ hcall site (bound.set k v) rest

end

end Composable

end Coroutines
