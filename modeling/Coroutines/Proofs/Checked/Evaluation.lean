import Coroutines.Proofs.Checked.Builtins
import Coroutines.Validation

/-!
# Evaluation of a checked unit

The static checks walk the expressions and statements of a unit, and evaluation walks them again with
values.  Both agree on which names a scope binds, on which site encloses an expression and on where a
statement may stand, so evaluation upholds the law of the unit: by induction on expressions, then on
the statements of a body, then on how deep calls nest.
-/

namespace Coroutines

namespace CompiledUnit

/-- The context of the checks of a unit that runs with the standard builtins. -/
abbrev context (unit : CompiledUnit) : CheckContext := unit.checkContext (some Builtin.names)

/-- A unit without defects, whose source is a text. -/
structure Checked (unit : CompiledUnit) : Prop where
  valid : unit.validate (some Builtin.names) = []
  size : Text.length unit.source ≤ Text.maxLength

/-- The names that the checks take to be bound by a function, or by the module without an owner, beyond
the globals. -/
def ownNames : Option FunctionDecl → List String
  | none => []
  | some fn => fn.params ++ assignedNames fn.body

variable {unit : CompiledUnit}

theorem Checked.function (hu : unit.Checked) {fn : FunctionDecl} (hfn : fn ∈ unit.functions) :
    ∀ s ∈ fn.body, unit.context.stmt (some fn) (ownNames (some fn)) s = [] := by
  have h := hu.valid
  simp only [validate, List.append_eq_nil_iff, List.flatMap_eq_nil_iff] at h
  have hv := h.1.2 fn hfn
  simp only [validateFunction, List.append_eq_nil_iff, List.flatMap_eq_nil_iff] at hv
  exact hv.2

theorem Checked.statement (hu : unit.Checked) :
    ∀ s ∈ unit.module, unit.context.stmt none (ownNames none) s = [] := by
  have h := hu.valid
  simp only [validate, List.append_eq_nil_iff, List.flatMap_eq_nil_iff] at h
  exact h.2

end CompiledUnit

/-- A scope as the checks see it: that of the module, or that of a function whose parameters are all
bound. -/
inductive Scope.Checked (unit : CompiledUnit) : Option FunctionDecl → Scope → Prop
  | module : Checked unit none ⟨CompiledUnit.moduleFrame, [], .module⟩
  | function {fn : FunctionDecl} {locals : Bindings Value} {mode : Mode} (hfn : fn ∈ unit.functions)
      (hmode : mode = if fn.isAsync then .async else .sync)
      (hvalues : locals.All (Value.Known unit.Owns))
      (hparams : ∀ x ∈ fn.params, locals.has x = true) :
      Checked unit (some fn) ⟨fn.name, locals, mode⟩

/-- A checked exception that has passed at least one frame. -/
def Record.Framed (unit : CompiledUnit) (r : Record) : Prop := r.Checked unit ∧ r.frames ≠ []

/-- The value that a statement completes with is known. -/
def Completion.Known (P : Value → Prop) : Completion → Prop
  | .next v | .bind _ v | .ret v => v.Known P
  | .await _ => True

namespace Program

variable {unit : CompiledUnit} {owner : Option FunctionDecl} {scope : Scope} {call : Calls}

/-! ### Names -/

theorem functions_known (unit : CompiledUnit) :
    (Program.ofUnit unit).functions.All (Value.Known unit.Owns) := by
  refine .ofList fun e he => ?_
  obtain ⟨⟨decl, i⟩, hmem, rfl⟩ := List.mem_map.mp he
  exact List.fst_mem_of_mem_zipIdx hmem

theorem functions_has {fn : FunctionDecl} (h : fn ∈ unit.functions) :
    (Program.ofUnit unit).functions.has fn.name = true := by
  refine (Bindings.has_ofList ..).trans (decide_eq_true ?_)
  obtain ⟨i, hi⟩ := List.getElem?_of_mem h
  exact List.mem_map.mpr ⟨_, List.mem_map.mpr ⟨(fn, i), List.mem_zipIdx_iff_getElem?.mpr hi, rfl⟩, rfl⟩

/-- What the check of a name establishes: a site to fail at, and something that may bind it. -/
theorem of_name_eq_nil {ctx : CheckContext} {bound builtins : List String} {enclosing own : Option Site}
    {name : String} (hb : ctx.builtins = some builtins) (henclosing : ctx.site? enclosing = [])
    (h : ctx.name bound enclosing name own = []) :
    (∃ site, (own <|> enclosing) = some site ∧ ctx.site site = []) ∧
      (name ∈ bound ∨ name ∈ ctx.globals ∨ name ∈ builtins) := by
  simp only [CheckContext.name, hb, List.append_eq_nil_iff] at h
  obtain ⟨⟨hown, hsite⟩, hbound⟩ := h
  constructor
  · cases own with
    | some site => exact ⟨site, rfl, hown⟩
    | none =>
        cases enclosing with
        | some site => exact ⟨site, rfl, henclosing⟩
        | none => cases hsite
  · split at hbound
    · cases hbound
    · next hc =>
        simp only [Bool.and_eq_true, Bool.not_eq_true', List.contains_eq_mem,
          decide_eq_false_iff_not, not_and, not_not] at hc
        by_cases hname : name ∈ bound
        · exact .inl hname
        · by_cases hglobal : name ∈ ctx.globals
          · exact .inr (.inl hglobal)
          · exact .inr (.inr (hc ⟨hname, hglobal⟩))

/-- A frame at a site without defects. -/
theorem fits_frame (hu : unit.Checked) {site : Site} (h : unit.context.site site = [])
    (name operation : String) (args : List Value) :
    ((Program.ofUnit unit).frame name operation args site).site.Fits (Text.lines unit.source) :=
  fits_sourceSite hu.size h name

/-- A name without a value is none of the parameters, inputs, functions and builtins. -/
structure Missing (unit : CompiledUnit) (scope : Scope) (name : String) : Prop where
  locals : scope.locals.has name = false
  inputs : name ∉ unit.inputs.getD []
  functions : name ∉ unit.functions.map FunctionDecl.name
  builtins : name ∉ Builtin.names

theorem upholds_lookup {err : Record → Prop} (hs : scope.Checked unit owner) (name : String) :
    ((Program.ofUnit unit).lookup scope name).Upholds unit.law
      (fun v => (∀ x, v = some x → x.Known unit.Owns) ∧ (v = none → Missing unit scope name))
      err := by
  unfold lookup
  split
  · next v hl =>
      refine ⟨fun x e => ?_, nofun⟩
      cases e
      cases hs with
      | module => cases hl
      | function hfn hmode hvalues hparams => exact hvalues.get? hl
  · next hl =>
      intro g hg
      show _ ∧ _
      cases hglobal : g.bindings.get? name with
      | some v => exact ⟨fun x e => Option.some.inj e ▸ hg.1.get? hglobal, nofun⟩
      | none =>
          cases hfunction : (Program.ofUnit unit).functions.get? name with
          | some v => exact ⟨fun x e => Option.some.inj e ▸ (functions_known unit).get? hfunction, nofun⟩
          | none =>
              cases hbuiltin : Builtin.ofName? name with
              | some b => exact ⟨fun x e => Option.some.inj e ▸ trivial, nofun⟩
              | none =>
                  refine ⟨nofun, fun _ => ⟨?_, fun hin => ?_, fun hin => ?_, fun hin => ?_⟩⟩
                  · rw [Bindings.has, hl]
                    rfl
                  · have := hg.2 name hin
                    rw [Bindings.has, hglobal] at this
                    cases this
                  · obtain ⟨fn, hfn, rfl⟩ := List.mem_map.mp hin
                    have := functions_has hfn
                    rw [Bindings.has, hfunction] at this
                    cases this
                  · obtain ⟨b, -, rfl⟩ := List.mem_map.mp hin
                    rw [Builtin.ofName?_name] at hbuiltin
                    cases hbuiltin

/-- A checked name without a value is bound somewhere in its scope. -/
theorem binds_of_missing {name : String} (hs : scope.Checked unit owner)
    (hmissing : Missing unit scope name) (h : name ∈ CompiledUnit.ownNames owner ∨
      name ∈ unit.context.globals ∨ name ∈ Builtin.names) : unit.Binds scope.name name := by
  rcases h with h | h | h
  · cases hs with
    | module => cases h
    | function hfn hmode hvalues hparams =>
        rcases List.mem_append.mp h with h | h
        · have := hmissing.locals
          rw [show _ = true from hparams name h] at this
          cases this
        · exact .inr ⟨_, hfn, rfl, h⟩
  · rcases List.mem_append.mp h with h | h
    · rcases List.mem_append.mp h with h | h
      · exact .inl h
      · exact absurd h hmissing.inputs
    · exact absurd h hmissing.functions
  · exact absurd h hmissing.builtins

/-- **A checked name has a value, or its scope binds it elsewhere.** -/
theorem upholds_name (hu : unit.Checked) (hs : scope.Checked unit owner)
    {enclosing own : Option Site} {name : String} (henclosing : unit.context.site? enclosing = [])
    (h : unit.context.name (CompiledUnit.ownNames owner) enclosing name own = []) :
    ((Program.ofUnit unit).evalExpr call scope enclosing (.name name own)).Upholds unit.law
      (Value.Known unit.Owns) (Record.Framed unit) := by
  obtain ⟨⟨site, hat, hclean⟩, hbound⟩ := of_name_eq_nil rfl henclosing h
  simp only [evalExpr]
  refine (upholds_lookup hs name).bind fun v hv => ?_
  cases v with
  | some v => exact hv.1 v rfl
  | none =>
      have hfits := fits_frame hu hclean scope.name name []
      rw [hat]
      refine ⟨⟨nofun, fun e => ?_, List.forall_mem_singleton.mpr hfits⟩, nofun⟩
      cases e
      exact ⟨_, rfl, binds_of_missing hs (hv.2 rfl) hbound⟩

/-! ### Expressions -/

theorem known_constant (P : Value → Prop) (float : Option Bool) (value : Literal) :
    (constant float value).Known P := by
  cases value with
  | number n =>
      simp only [constant]
      split <;> trivial
  | _ => trivial

/-- An exception of an operator or a call gets the frame of the expression. -/
theorem framed_within (hu : unit.Checked) {site : Site} (hsite : unit.context.site site = [])
    {r : Record} (hr : r.Checked unit) (name operation : String) (args : List Value) :
    (r.within ((Program.ofUnit unit).frame name operation args site)).Framed unit :=
  ⟨hr.within (fits_frame hu hsite name operation args), nofun⟩

/-- What the check of a call establishes. -/
theorem of_call_eq_nil {ctx : CheckContext} {bound : List String} {enclosing : Option Site}
    {callee : Expr} {args : List Expr} {keywords : Option (List (String × Expr))} {site : Site}
    (h : ctx.expr bound enclosing (.call callee args keywords site) = []) :
    ctx.site site = [] ∧ ctx.expr bound (some site) callee = [] ∧
      ctx.exprs bound (some site) args = [] ∧
      ∀ ks, keywords = some ks → ctx.keywordArgs bound site [] ks = [] := by
  cases keywords with
  | none =>
      simp only [CheckContext.expr, List.append_eq_nil_iff] at h
      exact ⟨h.1.1.1, h.1.1.2, h.1.2, nofun⟩
  | some ks =>
      simp only [CheckContext.expr, List.append_eq_nil_iff] at h
      exact ⟨h.1.1.1, h.1.1.2, h.1.2, fun ks' e => Option.some.inj e ▸ h.2⟩

mutual

theorem upholds_evalExpr (hu : unit.Checked) (hcall : unit.CallsUphold call)
    (hs : scope.Checked unit owner) : ∀ {enclosing : Option Site} (e : Expr),
    unit.context.site? enclosing = [] →
    unit.context.expr (CompiledUnit.ownNames owner) enclosing e = [] →
    ((Program.ofUnit unit).evalExpr call scope enclosing e).Upholds unit.law
      (Value.Known unit.Owns) (Record.Framed unit)
  | _, .const value float, _, _ => known_constant _ float value
  | _, .name _ _, henclosing, h => upholds_name hu hs henclosing h
  | _, .list elements, henclosing, h =>
      (upholds_evalExprs hu hcall hs elements henclosing h).bind fun _ hvs =>
        Value.allKnown_iff.mpr hvs
  | _, .tuple elements, henclosing, h =>
      (upholds_evalExprs hu hcall hs elements henclosing h).bind fun _ hvs =>
        Value.allKnown_iff.mpr hvs
  | _, .binary op left right site, _, h => by
      simp only [CheckContext.expr, List.append_eq_nil_iff] at h
      obtain ⟨⟨hsite, hleft⟩, hright⟩ := h
      have hhere : unit.context.site? (some site) = [] := hsite
      simp only [evalExpr]
      refine (upholds_evalExpr hu hcall hs left hhere hleft).bind fun a ha =>
        (upholds_evalExpr hu hcall hs right hhere hright).bind fun b hb => ?_
      have happly := Dynamic.apply op ha hb
      rcases hr : op.apply a b with (r | _ | _ | _ | _) | v <;> rw [hr] at happly
      · obtain ⟨f, hf, rfl⟩ := happly
        exact framed_within hu hsite (Record.checked_ofFailure hf) scope.name op.symbol [a, b]
      · trivial
      · trivial
      · trivial
      · trivial
      · exact happly
  | _, .call callee args keywords site, _, h => by
      obtain ⟨hsite, hcallee, hargs, hkeywords⟩ := of_call_eq_nil h
      have hhere : unit.context.site? (some site) = [] := hsite
      have hcalled : ∀ {fn : Value} {vs : List Value} {kwargs : Bindings Value},
          fn.Known unit.Owns → (∀ v ∈ vs, v.Known unit.Owns) →
          kwargs.All (Value.Known unit.Owns) →
          ((call fn vs kwargs).catchScript fun r => .raise (r.within
            ((Program.ofUnit unit).frame scope.name (operation fn) vs site))).Upholds unit.law
              (Value.Known unit.Owns) (Record.Framed unit) := fun {fn vs _} hfn hvs hk =>
        (hcall hfn hvs hk).catchScript fun r hr =>
          framed_within hu hsite hr scope.name (operation fn) vs
      cases keywords with
      | none =>
          exact (upholds_evalExpr hu hcall hs callee hhere hcallee).bind fun fn hfn =>
            (upholds_evalExprs hu hcall hs args hhere hargs).bind fun vs hvs =>
              hcalled hfn hvs .nil
      | some ks =>
          exact (upholds_evalExpr hu hcall hs callee hhere hcallee).bind fun fn hfn =>
            (upholds_evalExprs hu hcall hs args hhere hargs).bind fun vs hvs =>
              (upholds_evalKeywords hu hcall hs ks hsite .nil (fun _ => nofun) (hkeywords ks rfl)).bind
                fun _ hk => hcalled hfn hvs hk

theorem upholds_evalExprs (hu : unit.Checked) (hcall : unit.CallsUphold call)
    (hs : scope.Checked unit owner) : ∀ {enclosing : Option Site} (es : List Expr),
    unit.context.site? enclosing = [] →
    unit.context.exprs (CompiledUnit.ownNames owner) enclosing es = [] →
    ((Program.ofUnit unit).evalExprs call scope enclosing es).Upholds unit.law
      (fun vs => ∀ v ∈ vs, v.Known unit.Owns) (Record.Framed unit)
  | _, [], _, _ => fun _ => nofun
  | _, e :: rest, henclosing, h => by
      simp only [CheckContext.exprs, List.append_eq_nil_iff] at h
      exact (upholds_evalExpr hu hcall hs e henclosing h.1).bind fun v hv =>
        (upholds_evalExprs hu hcall hs rest henclosing h.2).bind fun vs hvs =>
          List.forall_mem_cons.mpr ⟨hv, hvs⟩

/-- The keywords bound so far are among those that the check has seen. -/
theorem upholds_evalKeywords (hu : unit.Checked) (hcall : unit.CallsUphold call)
    (hs : scope.Checked unit owner) : ∀ {site : Site} {bound : Bindings Value} {seen : List String}
    (ks : List (String × Expr)), unit.context.site site = [] →
    bound.All (Value.Known unit.Owns) → (∀ k, bound.has k = true → k ∈ seen) →
    unit.context.keywordArgs (CompiledUnit.ownNames owner) site seen ks = [] →
    ((Program.ofUnit unit).evalKeywords call scope site bound ks).Upholds unit.law
      (Bindings.All (Value.Known unit.Owns)) (Record.Framed unit)
  | _, _, _, [], _, hb, _, _ => hb
  | site, bound, seen, (k, e) :: rest, hsite, hb, hseen, h => by
      simp only [CheckContext.keywordArgs, List.append_eq_nil_iff] at h
      obtain ⟨⟨hnew, he⟩, hrest⟩ := h
      simp only [evalKeywords]
      split
      · next hk =>
          rw [if_pos (List.contains_iff_mem.mpr (hseen k hk))] at hnew
          cases hnew
      · have hhere : unit.context.site? (some site) = [] := hsite
        refine (upholds_evalExpr hu hcall hs e hhere he).bind fun v hv =>
          upholds_evalKeywords hu hcall hs rest hsite (hb.set k hv) (fun k' hk' => ?_) hrest
        rw [Bindings.has_set, Bool.or_eq_true, decide_eq_true_eq] at hk'
        rcases hk' with rfl | hk'
        · exact List.mem_cons_self
        · exact List.mem_cons_of_mem k (hseen k' hk')

end

end Program

end Coroutines
