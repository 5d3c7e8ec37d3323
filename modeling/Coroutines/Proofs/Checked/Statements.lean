import Coroutines.Proofs.Checked.Evaluation

/-!
# Statements, calls and coroutines of a checked unit

Statements uphold the law of their unit in the scopes that the checks saw them in.  So do the bodies
of plain functions, by induction on how deep calls nest, and the bodies of coroutines between two
awaits.
-/

namespace Coroutines

/-! ### Binding arguments -/

namespace FunctionDecl

theorem bindKeywords_all {fn : FunctionDecl} {P : Value → Prop} {locals locals' : Bindings Value}
    {kwargs : Bindings Value} (hl : locals.All P) (hk : kwargs.All P)
    (h : fn.bindKeywords locals kwargs = .ok locals') : locals'.All P := by
  induction kwargs generalizing locals with
  | nil =>
      cases h
      exact hl
  | cons e rest ih =>
      obtain ⟨he, hrest⟩ := List.forall_mem_cons.mp hk
      simp only [bindKeywords] at h
      split at h
      · cases h
      · split at h
        · cases h
        · exact ih (hl.set _ he) hrest h

theorem isDynamic_of_bindKeywords {fn : FunctionDecl} {locals kwargs : Bindings Value} {f : Failure}
    (h : fn.bindKeywords locals kwargs = .error f) : f.IsDynamic := by
  induction kwargs generalizing locals with
  | nil => cases h
  | cons e rest ih =>
      simp only [bindKeywords] at h
      split at h
      · cases h
        trivial
      · split at h
        · cases h
          trivial
        · exact ih h

/-- Arguments are refused with failures that the static checks leave to the run. -/
theorem isDynamic_of_bindParams {fn : FunctionDecl} {args : List Value} {kwargs : Bindings Value}
    {f : Failure} (h : fn.bindParams args kwargs = .error f) : f.IsDynamic := by
  simp only [bindParams] at h
  split at h
  · cases h
    trivial
  · split at h
    · next e =>
        cases h
        exact isDynamic_of_bindKeywords e
    · split at h
      · cases h
      · cases h
        trivial

/-- A call binds every parameter, to one of its arguments. -/
theorem bindParams_all {fn : FunctionDecl} {P : Value → Prop} {args : List Value}
    {kwargs locals : Bindings Value} (ha : ∀ v ∈ args, P v) (hk : kwargs.All P)
    (h : fn.bindParams args kwargs = .ok locals) :
    locals.All P ∧ ∀ x ∈ fn.params, locals.has x = true := by
  simp only [bindParams] at h
  split at h
  · cases h
  · split at h
    · cases h
    · next locals' e =>
        split at h
        · next hmissing =>
            cases h
            refine ⟨bindKeywords_all (.ofList fun x hx => ?_) hk e, fun x hx => ?_⟩
            · exact ha _ (List.of_mem_zip hx).2
            · simpa using List.filter_eq_nil_iff.mp hmissing x hx
        · cases h

end FunctionDecl

/-- A scope stays as the checks see it when a statement completes in it. -/
theorem Scope.Checked.after {unit : CompiledUnit} {fn : FunctionDecl} {scope : Scope}
    (h : scope.Checked unit (some fn)) {c : Completion} (hc : c.Known unit.Owns) :
    (scope.after c).Checked unit (some fn) := by
  cases c with
  | bind name v =>
      cases h with
      | function hfn hmode hvalues hparams =>
          exact .function hfn hmode (hvalues.set name hc) fun x hx =>
            Bindings.has_set_of_has v (hparams x hx)
  | _ => exact h

namespace Program

variable {unit : CompiledUnit} {owner : Option FunctionDecl} {scope : Scope} {call : Calls}
  {fn : FunctionDecl}

/-! ### Statements -/

/-- What the check of a return establishes: it stands in a function. -/
theorem of_ret_eq_nil (hs : scope.Checked unit owner) {value : Option Expr} {own : Option Site}
    (h : unit.context.stmt owner (CompiledUnit.ownNames owner) (.ret value own) = []) :
    scope.mode ≠ .module ∧ unit.context.site? own = [] ∧
      unit.context.expr? (CompiledUnit.ownNames owner) own value = [] := by
  simp only [CheckContext.stmt, List.append_eq_nil_iff] at h
  obtain ⟨⟨howner, hown⟩, hvalue⟩ := h
  refine ⟨?_, hown, hvalue⟩
  cases hs with
  | module => cases howner
  | function hfn hmode hvalues hparams =>
      intro e
      have hmode := hmode.symm.trans e
      split at hmode <;> cases hmode

/-- What the check of an await establishes: it stands in an async function. -/
theorem of_await_eq_nil (hs : scope.Checked unit owner) {target : Option String} {value : Expr}
    {own : Site}
    (h : unit.context.stmt owner (CompiledUnit.ownNames owner) (.await target value own) = []) :
    scope.mode = .async ∧ unit.context.site own = [] ∧
      unit.context.expr (CompiledUnit.ownNames owner) (some own) value = [] := by
  simp only [CheckContext.stmt, List.append_eq_nil_iff] at h
  obtain ⟨⟨hown, howner⟩, hvalue⟩ := h
  refine ⟨?_, hown, hvalue⟩
  cases hs with
  | module => cases howner
  | function hfn hmode hvalues hparams =>
      simp only at howner
      split at howner
      · next hasync => exact hmode.trans (if_pos hasync)
      · cases howner

/-- **Statements uphold the law of their unit**, in the scopes in which the checks saw them. -/
theorem upholds_execStmt (hu : unit.Checked) (hcall : unit.CallsUphold call)
    (hs : scope.Checked unit owner) {s : Stmt}
    (h : unit.context.stmt owner (CompiledUnit.ownNames owner) s = []) :
    ((Program.ofUnit unit).execStmt call scope s).Upholds unit.law (Completion.Known unit.Owns)
      (Record.Framed unit) := by
  cases s with
  | assign name value own =>
      simp only [CheckContext.stmt, List.append_eq_nil_iff] at h
      exact (upholds_evalExpr hu hcall hs value h.1 h.2).bind fun v hv => hv
  | expr value own =>
      simp only [CheckContext.stmt, List.append_eq_nil_iff] at h
      exact (upholds_evalExpr hu hcall hs value h.1 h.2).bind fun v hv => hv
  | ret value own =>
      obtain ⟨hmode, hown, hvalue⟩ := of_ret_eq_nil hs h
      simp only [execStmt, if_neg hmode]
      cases value with
      | none => exact trivial
      | some e => exact (upholds_evalExpr hu hcall hs e hown hvalue).bind fun v hv => hv
  | assert test message own =>
      simp only [CheckContext.stmt, List.append_eq_nil_iff] at h
      obtain ⟨⟨hown, htest⟩, hmessage⟩ := h
      have hhere : unit.context.site? (some own) = [] := hown
      simp only [execStmt]
      refine (upholds_evalExpr hu hcall hs test hhere htest).bind fun v hv => ?_
      -- an assertion fails in the frame of its statement
      have hfails : ∀ text, (⟨.assertion text, [(Program.ofUnit unit).frame scope.name "assert" [v]
          own]⟩ : Record).Framed unit := fun text =>
        framed_within hu hown (Record.checked_ofFailure (f := .assertion text) trivial) ..
      split
      · exact trivial
      · cases message with
        | none => exact hfails none
        | some e =>
            refine (upholds_evalExpr hu hcall hs e hhere hmessage).bind fun m _ => ?_
            rcases assertion_eq m with he | he <;> rw [he]
            · exact trivial
            · exact hfails _
  | await target value own =>
      obtain ⟨hasync, hown, hvalue⟩ := of_await_eq_nil hs h
      have hhere : unit.context.site? (some own) = [] := hown
      simp only [execStmt]
      refine (upholds_evalExpr hu hcall hs value hhere hvalue).bind fun v hv => ?_
      rw [if_neg (not_not.mpr hasync)]
      split
      · exact trivial
      · exact trivial
      · exact framed_within hu hown (Record.checked_ofFailure (f := .notAwaitable v.kindName) trivial) ..

/-- A plain function upholds the law of its unit. -/
theorem upholds_runBody (hu : unit.Checked) (hcall : unit.CallsUphold call)
    (hs : scope.Checked unit (some fn)) {stmts : List Stmt}
    (h : ∀ s ∈ stmts, unit.context.stmt (some fn) (CompiledUnit.ownNames (some fn)) s = []) :
    ((Program.ofUnit unit).runBody call scope stmts).Upholds unit.law (Value.Known unit.Owns)
      (Record.Framed unit) := by
  induction stmts generalizing scope with
  | nil => exact trivial
  | cons s rest ih =>
      obtain ⟨hstmt, hrest⟩ := List.forall_mem_cons.mp h
      refine (upholds_execStmt hu hcall hs hstmt).bind fun c hc => ?_
      cases c with
      | ret v => exact hc
      | await target => exact trivial
      | next v => exact ih (hs.after hc) hrest
      | bind name v => exact ih (hs.after hc) hrest

/-! ### Calls -/

theorem upholds_callFunction (hu : unit.Checked) (hcall : unit.CallsUphold call)
    (hfn : fn ∈ unit.functions) {args : List Value} {kwargs : Bindings Value}
    (ha : ∀ v ∈ args, v.Known unit.Owns) (hk : kwargs.All (Value.Known unit.Owns)) :
    ((Program.ofUnit unit).callFunction call fn args kwargs).Upholds unit.law
      (Value.Known unit.Owns) (Record.Checked unit) := by
  unfold callFunction
  split
  · next f e => exact Failure.IsDynamic.upholds (FunctionDecl.isDynamic_of_bindParams e)
  · next locals e =>
      obtain ⟨hvalues, hparams⟩ := FunctionDecl.bindParams_all ha hk e
      split
      · next hasync => exact ⟨⟨hfn, hasync, hvalues, hparams⟩, fun c => trivial⟩
      · next hsync =>
          exact (upholds_runBody hu hcall (.function hfn (if_neg hsync).symm hvalues hparams)
            (hu.function hfn)).mono (fun _ hv => hv) fun r hr => hr.1

/-- **Calls uphold the law of a checked unit**, by induction on how deep they nest. -/
theorem callsUphold (hu : unit.Checked) (depth : Nat) :
    unit.CallsUphold ((Program.ofUnit unit).callValue depth) := by
  induction depth with
  | zero => exact fun _ _ _ => trivial
  | succ depth ih =>
      intro fn args kwargs hfn ha hk
      cases fn with
      | builtin b => exact Builtin.upholds_invoke ih b ha kwargs
      | function i decl => exact upholds_callFunction hu ih hfn ha hk
      | _ => exact Failure.IsDynamic.upholds (f := .argumentShape ..) trivial

/-! ### Coroutines -/

/-- An async function upholds the law of its unit from one await to the next. -/
theorem upholds_runAsync (hu : unit.Checked) (hcall : unit.CallsUphold call)
    (hs : scope.Checked unit (some fn)) (hasync : fn.isAsync = true) (pc : Nat) {stmts : List Stmt}
    (h : ∀ s ∈ stmts, unit.context.stmt (some fn) (CompiledUnit.ownNames (some fn)) s = []) :
    ((Program.ofUnit unit).runAsync call scope pc stmts).Upholds unit.law
      (fun r => unit.law.body (.function fn) r.1.locals ∧ unit.law.step r.2) (Record.Framed unit) := by
  have hleaves : ∀ {scope : Scope}, scope.Checked unit (some fn) →
      unit.law.body (.function fn) scope.locals := fun hs => by
    cases hs with
    | function hfn hmode hvalues hparams => exact ⟨hfn, hasync, hvalues, hparams⟩
  induction stmts generalizing scope pc with
  | nil => exact ⟨hleaves hs, trivial⟩
  | cons s rest ih =>
      obtain ⟨hstmt, hrest⟩ := List.forall_mem_cons.mp h
      refine (upholds_execStmt hu hcall hs hstmt).bind fun c hc => ?_
      cases c with
      | ret v => exact ⟨hleaves hs, hc⟩
      | await target => exact ⟨hleaves hs, trivial⟩
      | next v => exact ih (hs.after hc) (pc + 1) hrest
      | bind name v => exact ih (hs.after hc) (pc + 1) hrest

theorem upholds_resumeFunction (hu : unit.Checked) (hcall : unit.CallsUphold call) {frame : Frame}
    {input : Input} (hbody : unit.law.body (.function fn) frame.locals)
    (hinput : unit.law.input input) :
    ((Program.ofUnit unit).resumeFunction call fn frame input).Upholds unit.law
      (fun r => unit.law.body (.function fn) r.1.locals ∧ unit.law.step r.2)
      (Record.Checked unit) := by
  obtain ⟨hfn, hasync, hvalues, hparams⟩ := hbody
  have hs : Scope.Checked unit (some fn) ⟨fn.name, frame.locals, .async⟩ :=
    .function hfn (if_pos hasync).symm hvalues hparams
  -- the statements from any one on
  have hfrom : ∀ {scope : Scope} (pc : Nat), scope.Checked unit (some fn) →
      ((Program.ofUnit unit).runAsync call scope pc (fn.body.drop pc)).Upholds unit.law
        (fun r => unit.law.body (.function fn) r.1.locals ∧ unit.law.step r.2)
        (Record.Checked unit) := fun pc hs =>
    (upholds_runAsync hu hcall hs hasync pc fun s hmem =>
      hu.function hfn s (List.mem_of_mem_drop hmem)).mono (fun _ hr => hr) fun _ hr => hr.1
  unfold resumeFunction
  simp only
  split
  · exact hfrom frame.pc hs
  · next r target site hat =>
      have hsite : unit.context.site site = [] := by
        unfold awaitAt? at hat
        split at hat
        · next name value own hstmt =>
            cases hat
            have hclean := hu.function hfn _ (List.mem_of_getElem? hstmt)
            simp only [CheckContext.stmt, List.append_eq_nil_iff] at hclean
            exact hclean.1.1
        · cases hat
      exact ⟨⟨hfn, hasync, hvalues, hparams⟩,
        (framed_within hu hsite (hinput : r.Checked unit) fn.name "await" []).1⟩
  · next v target site hat =>
      cases target with
      | none => exact hfrom (frame.pc + 1) hs
      | some x => exact hfrom (frame.pc + 1) (hs.after (c := .bind x v) hinput)
  · exact trivial

/-- **The coroutines of a checked unit uphold its law.** -/
theorem upholds_bodies (hu : unit.Checked) (depth : Nat) :
    ((Program.ofUnit unit).bodies depth).Upholds unit.law := by
  intro body frame input hbody hinput
  cases body with
  | function decl => exact upholds_resumeFunction hu (callsUphold hu depth) hbody hinput
  | joined group =>
      cases input with
      | start => exact ⟨trivial, trivial⟩
      | value v => exact ⟨trivial, hinput⟩
      | throw r => exact ⟨trivial, hinput⟩

/-! ### The module -/

theorem upholds_runStatements (hu : unit.Checked) (hcall : unit.CallsUphold call) {last : Value}
    (hlast : last.Known unit.Owns) {stmts : List Stmt}
    (h : ∀ s ∈ stmts, unit.context.stmt none (CompiledUnit.ownNames none) s = []) :
    ((Program.ofUnit unit).runStatements call last stmts).Upholds unit.law
      (Value.Known unit.Owns) (Record.Framed unit) := by
  induction stmts generalizing last with
  | nil => exact hlast
  | cons s rest ih =>
      obtain ⟨hstmt, hrest⟩ := List.forall_mem_cons.mp h
      refine (upholds_execStmt hu hcall .module hstmt).bind fun c hc => ?_
      cases c with
      | next v => exact ih hc hrest
      | bind name v =>
          exact ⟨fun g hg => ⟨hg.1.set name hc, fun x hx => Bindings.has_set_of_has v (hg.2 x hx)⟩,
            ih trivial hrest⟩
      | ret v => exact trivial
      | await target => exact trivial

/-- **Module statements uphold the law of a checked unit**, and every exception that escapes them has
passed a frame. -/
theorem upholds_runModule (hu : unit.Checked) (depth : Nat) :
    ((Program.ofUnit unit).runModule depth).Upholds unit.law (Value.Known unit.Owns)
      (Record.Framed unit) :=
  upholds_runStatements hu (callsUphold hu depth) (show Value.none.Known unit.Owns from trivial)
    hu.statement

end Program

end Coroutines
