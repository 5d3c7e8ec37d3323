import Coroutines.Proofs.Defects.OneEach
import Coroutines.Proofs.Checked.Evaluation

/-!
# Static checks are exact

The checks of a unit report its defects and nothing else, each of them once (`CompiledUnit.validate_exact`).
The diagnostics of an expression are, up to their order, those of the expression itself and those of its parts;
so are those of statements and units, and each of these has one diagnostic for each of its defects.
-/

namespace Coroutines

namespace CheckContext

variable {ctx : CheckContext} {bound : List String} {enclosing : Option Site} {Known : String → Prop}
  {owner : Option FunctionDecl}

/-! ### Sites -/

theorem site_cases (ctx : CheckContext) (s : Site) :
    ctx.site s = [] ∨ ∃ d, ctx.site s = [d] ∧ d.code = DefectKind.site.code := by
  unfold site
  split
  · split
    · exact .inr ⟨_, rfl, rfl⟩
    · exact .inl rfl
  · exact .inr ⟨_, rfl, rfl⟩

theorem oneEach_site? {ι : Type} (ctx : CheckContext) (own : Option Site) (p : ι) :
    OneEach (ctx.site? own) fun k q => (∃ s, own = some s ∧ ctx.site s ≠ []) ∧ k = .site ∧ q = p := by
  cases own with
  | none =>
      refine .none ?_
      rintro k q ⟨⟨s, hs, -⟩, -⟩
      cases hs
  | some s =>
      rcases ctx.site_cases s with hnil | ⟨d, hd, hcode⟩
      · have hsite : ctx.site? (some s) = [] := hnil
        rw [hsite]
        refine .none ?_
        rintro k q ⟨⟨s', hs', hne⟩, -⟩
        cases hs'
        exact hne hnil
      · have hsite : ctx.site? (some s) = [d] := hd
        rw [hsite]
        refine .single hcode fun k q => and_iff_right ⟨s, rfl, ?_⟩
        rw [hd]
        exact List.cons_ne_nil d []

/-! ### Expressions -/

/-- The diagnostic of a keyword argument that repeats an earlier one. -/
def keywordRepeated (ctx : CheckContext) (here : Site) (k : String) : Diagnostic :=
  ⟨"E_DUP_KEYWORD", s!"Keyword argument '{k}' repeated.", some ⟨ctx.file, here⟩, none⟩

/-- The diagnostics of an expression itself. -/
def own (ctx : CheckContext) (bound : List String) (enclosing : Option Site) : Expr → List Diagnostic
  | .name n own => ctx.name bound enclosing n own
  | .binary _ _ _ here => ctx.site? (some here)
  | .call _ _ keywords here => ctx.site? (some here) ++
      repeated (ctx.keywordRepeated here) [] ((keywords.getD []).map Prod.fst)
  | _ => []

theorem exprs_eq_flatMap (es : List Expr) :
    ctx.exprs bound enclosing es = es.flatMap (ctx.expr bound enclosing) := by
  induction es with
  | nil => rfl
  | cons e rest ih => rw [exprs, ih, List.flatMap_cons]

theorem keywordArgs_perm (here : Site) (seen : List String) (ks : List (String × Expr)) :
    (ctx.keywordArgs bound here seen ks).Perm
      (repeated (ctx.keywordRepeated here) seen (ks.map Prod.fst) ++
        (ks.map Prod.snd).flatMap (ctx.expr bound (some here))) := by
  induction ks generalizing seen with
  | nil => exact .refl _
  | cons e rest ih =>
      obtain ⟨k, e⟩ := e
      rw [keywordArgs, List.map_cons, List.map_cons, repeated, List.flatMap_cons]
      simp only [List.append_assoc]
      exact ((ih (k :: seen)).append_left _ |>.trans (List.perm_append_comm_assoc ..)).append_left _

theorem expr_call (callee : Expr) (args : List Expr) (keywords : Option (List (String × Expr))) (here : Site) :
    ctx.expr bound enclosing (.call callee args keywords here) =
      ctx.site here ++ ctx.expr bound (some here) callee ++ ctx.exprs bound (some here) args ++
        ctx.keywordArgs bound here [] (keywords.getD []) := by
  cases keywords with
  | none => simp only [expr, Option.getD_none, keywordArgs]
  | some ks => simp only [expr, Option.getD_some]

/-- The diagnostics of an expression are its own and those of its parts. -/
theorem expr_perm (e : Expr) : (ctx.expr bound enclosing e).Perm
    (ctx.own bound enclosing e ++ e.parts.flatMap (ctx.expr bound (e.site?.or enclosing))) := by
  cases e with
  | const value float => exact .refl _
  | name n site => rw [Expr.parts, List.flatMap_nil, List.append_nil]; exact .refl _
  | list elements => rw [expr, exprs_eq_flatMap]; exact .refl _
  | tuple elements => rw [expr, exprs_eq_flatMap]; exact .refl _
  | binary op left right here =>
      simp only [expr, own, Expr.parts, List.flatMap_cons, List.flatMap_nil, List.append_nil, List.append_assoc]
      exact .refl _
  | call callee args keywords here =>
      rw [expr_call, exprs_eq_flatMap]
      simp only [own, Expr.parts, List.flatMap_append, List.flatMap_cons, List.append_assoc, List.cons_append]
      refine List.Perm.append_left _ (.trans ?_ (List.perm_append_comm_assoc ..))
      refine List.Perm.append_left _ (.trans ?_ (List.perm_append_comm_assoc ..))
      exact List.Perm.append_left _ (ctx.keywordArgs_perm here [] _)

/-! ### One diagnostic for each defect -/

/-- What it means for a name to be known, by what the checks look up. -/
def Knows (ctx : CheckContext) (bound : List String) (Known : String → Prop) : Prop :=
  ∀ n, Known n ↔ ∀ names, ctx.builtins = some names → (n ∈ bound ∨ n ∈ ctx.globals) ∨ n ∈ names

/-- The diagnostics of a name that has no site and is not in anything that has one. -/
def siteless (n : String) (own enclosing : Option Site) : List Diagnostic :=
  if own.isNone && enclosing.isNone then
    [⟨"E_NO_SITE", s!"Name '{n}' has no source site.", none,
      some "Give the name, or the statement that holds it, an 'at' site."⟩]
  else []

/-- The diagnostics of a name that is not known. -/
def unknown (ctx : CheckContext) (bound : List String) (n : String) (own : Option Site) : List Diagnostic :=
  match ctx.builtins with
  | some builtins =>
    if !bound.contains n && !ctx.globals.contains n && !builtins.contains n then
      [⟨"E_UNBOUND", s!"Unbound name '{n}'.", own.map (⟨ctx.file, ·⟩), none⟩]
    else []
  | none => []

theorem name_eq (n : String) (own : Option Site) :
    ctx.name bound enclosing n own = ctx.site? own ++ siteless n own enclosing ++ ctx.unknown bound n own := rfl

theorem oneEach_siteless {ι : Type} (n : String) (own enclosing : Option Site) (p : ι) :
    OneEach (siteless n own enclosing) fun k q => (own = none ∧ enclosing = none) ∧ k = .noSite ∧ q = p :=
  .ite rfl fun k q => by rw [Bool.and_eq_true, Option.isNone_iff_eq_none, Option.isNone_iff_eq_none]

theorem oneEach_unknown {ι : Type} (hknown : ctx.Knows bound Known) (n : String) (own : Option Site) (p : ι) :
    OneEach (ctx.unknown bound n own) fun k q => ¬ Known n ∧ k = .unbound ∧ q = p := by
  rw [hknown, unknown]
  cases ctx.builtins with
  | none => exact .none fun k q h => h.1 fun names hnames => by cases hnames
  | some names => exact .ite rfl fun k q => and_congr_left fun _ => by simp [not_or, and_assoc]

/-- The diagnostics of an expression itself are those of the defects at its root. -/
theorem oneEach_own (hknown : ctx.Knows bound Known) (e : Expr) (enclosing : Option Site) :
    OneEach (ctx.own bound enclosing e)
      fun k keyword => e.Defective (ctx.site · = []) Known enclosing k ⟨[], keyword⟩ := by
  simp only [Expr.defective_root_iff]
  cases e with
  | const | list | tuple => exact .none (by simp [Expr.site?, Expr.keywordNames, Repeats])
  | name n own =>
      rw [CheckContext.own, name_eq]
      have hsite := ctx.oneEach_site? own (none : Option Nat)
      have hsiteless := oneEach_siteless n own enclosing (none : Option Nat)
      have hunknown := oneEach_unknown hknown n own (none : Option Nat)
      refine ((hsite.append hsiteless ?_).append hunknown ?_).congr fun k keyword => ?_
      · rintro k q ⟨-, rfl, -⟩ ⟨-, h, -⟩
        cases h
      · rintro k q (⟨-, rfl, -⟩ | ⟨-, rfl, -⟩) ⟨-, h, -⟩ <;> cases h
      · simp [Expr.site?, Expr.keywordNames, Repeats, or_assoc]
  | binary op left right here =>
      refine (ctx.oneEach_site? (some here) (none : Option Nat)).congr fun k keyword => ?_
      simp [Expr.site?, Expr.keywordNames, Repeats]
  | call callee args keywords here =>
      have hcode : ∀ k, (ctx.keywordRepeated here k).code = DefectKind.repeatedKeyword.code := fun _ => rfl
      have hrepeated := (OneEach.repeats hcode ((keywords.getD []).map Prod.fst)).embed some
        fun _ _ => Option.some.inj
      refine ((ctx.oneEach_site? (some here) (none : Option Nat)).append hrepeated ?_).congr fun k keyword => ?_
      · rintro k q ⟨-, rfl, -⟩ ⟨i, -, h, -⟩
        cases h
      · simp [Expr.site?, Expr.keywordNames]

/-- **Expressions have one diagnostic for each defect**, by induction on the expression. -/
theorem oneEach_expr (hknown : ctx.Knows bound Known) (e : Expr) (enclosing : Option Site) :
    OneEach (ctx.expr bound enclosing e) (e.Defective (ctx.site · = []) Known enclosing) := by
  induction e using Expr.partsInduction generalizing enclosing with
  | _ e ih =>
  have hown := (oneEach_own hknown e enclosing).embed (fun keyword => (⟨[], keyword⟩ : ExprPlace))
    fun _ _ h => congrArg ExprPlace.keyword h
  have hparts : OneEach (e.parts.flatMap (ctx.expr bound (e.site?.or enclosing))) fun k spot =>
      ∃ i a, e.parts[i]? = some a ∧ ∃ q : ExprPlace, q.inPart i = spot ∧
        a.Defective (ctx.site · = []) Known (e.site?.or enclosing) k q := by
    refine .flatMap (fun i a ha => (ih a (List.mem_of_getElem? ha) _).embed _ fun q q' h => ?_) ?_
    · exact (ExprPlace.inPart_inj.mp h).2
    · rintro i j a b k _ ⟨q, rfl, -⟩ ⟨q', h, -⟩
      exact (ExprPlace.inPart_inj.mp h).1.symm
  refine ((hown.append hparts ?_).congr fun k spot => ?_).perm (expr_perm e)
  · rintro k _ ⟨keyword, rfl, -⟩ ⟨i, a, -, q, hq, -⟩
    cases hq
  · rcases spot with ⟨_ | ⟨i, path⟩, keyword⟩
    · refine ⟨?_, fun h => .inl ⟨keyword, rfl, h⟩⟩
      rintro (⟨_, hroot, h⟩ | ⟨i, a, -, q, hq, -⟩)
      · cases hroot; exact h
      · cases hq
    · change _ ↔ e.Defective _ _ _ _ (ExprPlace.inPart i ⟨path, keyword⟩)
      rw [Expr.defective_inPart_iff]
      constructor
      · rintro (⟨_, hroot, -⟩ | ⟨j, a, ha, q, hq, h⟩)
        · cases hroot
        · cases hq
          exact ⟨a, ha, h⟩
      · exact fun ⟨a, ha, h⟩ => .inr ⟨i, a, ha, _, rfl, h⟩

/-! ### Statements -/

/-- The diagnostics of a statement that may not stand where it does. -/
def outside (ctx : CheckContext) (owner : Option FunctionDecl) : Stmt → List Diagnostic
  | .ret _ _ =>
    if owner.isNone then
      [⟨"E_RETURN_OUTSIDE", "'return' outside function.", none, some "Move the return into a function body."⟩]
    else []
  | .await _ _ own =>
    match owner with
    | none =>
      [⟨"E_AWAIT_OUTSIDE", "'await' outside function.", some ⟨ctx.file, own⟩,
        some "Only async functions may await."⟩]
    | some fn =>
      if fn.isAsync then []
      else
        [⟨"E_AWAIT_OUTSIDE", s!"'await' inside non-async function '{fn.name}'.", some ⟨ctx.file, own⟩,
          some "Only async functions may await."⟩]
  | _ => []

theorem expr?_eq_flatMap (e : Option Expr) :
    ctx.expr? bound enclosing e = e.toList.flatMap (ctx.expr bound enclosing) := by
  cases e with
  | none => rfl
  | some e => rw [Option.toList_some, List.flatMap_singleton]; rfl

/-- The diagnostics of a statement are those of its site, of where it stands and of its expressions. -/
theorem stmt_perm (s : Stmt) : (ctx.stmt owner bound s).Perm
    (ctx.site? s.site? ++ ctx.outside owner s ++ s.exprs.flatMap (ctx.expr bound s.site?)) := by
  cases s with
  | assign _ value own | expr value own =>
      simp only [outside, Stmt.exprs, Stmt.site?, List.append_nil, List.flatMap_singleton]
      exact .refl _
  | await target value own =>
      rw [Stmt.exprs, Stmt.site?, List.flatMap_singleton]
      exact .refl _
  | ret value own =>
      rw [stmt, expr?_eq_flatMap]
      exact List.perm_append_comm.append_right _
  | assert test message own =>
      simp only [stmt, expr?_eq_flatMap, outside, Stmt.exprs, Stmt.site?, List.append_nil,
        List.flatMap_cons, List.append_assoc]
      exact .refl _

theorem oneEach_outside (ctx : CheckContext) (owner : Option FunctionDecl) (s : Stmt) :
    OneEach (ctx.outside owner s) fun k (place : StmtPlace) =>
      (((∃ target value site, s = .await target value site) ∧ ∀ fn, owner = some fn → fn.isAsync = false) ∧
        k = .awaitOutside ∧ place = .itself) ∨
      (((∃ value site, s = .ret value site) ∧ owner = none) ∧ k = .returnOutside ∧ place = .itself) := by
  cases s with
  | assign | expr | assert => exact .none (by simp)
  | ret value own => exact OneEach.ite (k := .returnOutside) (p := .itself) rfl fun k place => by simp
  | await target value own =>
      cases owner with
      | none => exact OneEach.single (k := .awaitOutside) (p := .itself) rfl fun k place => by simp
      | some fn =>
          cases hasync : fn.isAsync with
          | true => simp only [outside, hasync, if_true]; exact .none (by simp [hasync])
          | false =>
              simp only [outside, hasync]
              exact OneEach.single (k := .awaitOutside) (p := .itself) rfl fun k place => by simp [hasync]

/-- **Statements have one diagnostic for each defect.** -/
theorem oneEach_stmt (hknown : ctx.Knows bound Known) (s : Stmt) :
    OneEach (ctx.stmt owner bound s) (s.Defective (ctx.site · = []) Known owner) := by
  have hexprs : OneEach (s.exprs.flatMap (ctx.expr bound s.site?)) fun k place =>
      ∃ i e, s.exprs[i]? = some e ∧ ∃ spot, StmtPlace.within i spot = place ∧
        e.Defective (ctx.site · = []) Known s.site? k spot := by
    refine .flatMap (fun i e _ => (oneEach_expr hknown e _).embed _ fun _ _ h => (StmtPlace.within.inj h).2) ?_
    rintro i j a b k _ ⟨q, rfl, -⟩ ⟨q', h, -⟩
    exact (StmtPlace.within.inj h).1.symm
  have hitself := (ctx.oneEach_site? s.site? StmtPlace.itself).append (ctx.oneEach_outside owner s)
    (by rintro k q ⟨-, rfl, -⟩ (⟨-, h, -⟩ | ⟨-, h, -⟩) <;> cases h)
  refine ((hitself.append hexprs ?_).congr fun k place => ?_).perm (stmt_perm s)
  · rintro k _ (⟨-, -, rfl⟩ | ⟨-, -, rfl⟩ | ⟨-, -, rfl⟩) ⟨i, e, -, spot, h, -⟩ <;> cases h
  · cases place with
    | itself => simp [Stmt.defective_itself_iff]
    | within i spot =>
        rw [Stmt.defective_within_iff]
        constructor
        · rintro ((⟨-, -, h⟩ | ⟨-, -, h⟩ | ⟨-, -, h⟩) | ⟨j, e, he, q, hq, h⟩)
          · cases h
          · cases h
          · cases h
          · cases hq
            exact ⟨e, he, h⟩
        · exact fun ⟨e, he, h⟩ => .inr ⟨i, e, he, spot, rfl, h⟩

end CheckContext

/-! ### Units -/

theorem mem_assignedNames {body : List Stmt} {n : String} :
    n ∈ assignedNames body ↔ ∃ s ∈ body, s.Assigns n := by
  have hbinds : ∀ s : Stmt, s.binds? = some n ↔ s.Assigns n := by
    intro s
    constructor
    · intro h
      cases s with
      | assign name value site => cases h; exact .assign value site
      | await target value site => cases h; exact .await value site
      | expr | ret | assert => cases h
    · rintro (⟨value, site⟩ | ⟨value, site⟩) <;> rfl
  simp only [assignedNames, List.mem_filterMap, hbinds]

namespace CompiledUnit

variable {unit : CompiledUnit} {builtins : Option (List String)}

/-- The names in scope are those that the checks look up. -/
theorem inScope_iff {owner : Option FunctionDecl} {n : String} : unit.InScope owner n ↔
    n ∈ ownNames owner ∨ n ∈ (unit.checkContext builtins).globals := by
  have hglobals : n ∈ (unit.checkContext builtins).globals ↔
      ((∃ s ∈ unit.module, s.Assigns n) ∨ n ∈ unit.inputs.getD []) ∨ ∃ fn ∈ unit.functions, fn.name = n := by
    simp only [checkContext, List.mem_append, mem_assignedNames, List.mem_map]
  have hown : n ∈ ownNames owner ↔
      ∃ fn, owner = some fn ∧ (n ∈ fn.params ∨ ∃ s ∈ fn.body, s.Assigns n) := by
    cases owner with
    | none => exact iff_of_false nofun nofun
    | some fn => simp only [ownNames, List.mem_append, mem_assignedNames, Option.some.injEq, exists_eq_left']
  rw [hglobals, hown]
  constructor
  · rintro (⟨rfl, h⟩ | ⟨rfl, hs, h⟩ | ⟨hs, h⟩ | ⟨hinputs, h⟩ | ⟨hfn, h⟩)
    · exact .inl ⟨_, rfl, .inl h⟩
    · exact .inl ⟨_, rfl, .inr ⟨_, hs, h⟩⟩
    · exact .inr (.inl (.inl ⟨_, hs, h⟩))
    · rw [hinputs]
      exact .inr (.inl (.inr h))
    · exact .inr (.inr ⟨_, hfn, h⟩)
  · rintro (⟨fn, rfl, h | ⟨s, hs, h⟩⟩ | ((⟨s, hs, h⟩ | h) | ⟨fn, hfn, h⟩))
    · exact .param rfl h
    · exact .local rfl hs h
    · exact .global hs h
    · cases hinputs : unit.inputs with
      | none => rw [hinputs] at h; cases h
      | some inputs => rw [hinputs] at h; exact .input hinputs h
    · exact .function hfn h

theorem knows_ownNames (owner : Option FunctionDecl) :
    (unit.checkContext builtins).Knows (ownNames owner) (unit.Known builtins owner) :=
  fun _ => forall_congr' fun _ => imp_congr_right fun _ => or_congr_left inScope_iff

/-- The statements of a body have one diagnostic for each defect. -/
theorem oneEach_body (owner : Option FunctionDecl) (body : List Stmt) {inUnit : Nat → StmtPlace → UnitPlace}
    (hplaces : ∀ i j p q, inUnit i p = inUnit j q → i = j ∧ p = q) :
    OneEach (body.flatMap ((unit.checkContext builtins).stmt owner (ownNames owner))) fun k place =>
      ∃ i s, body[i]? = some s ∧ ∃ q, inUnit i q = place ∧
        s.Defective ((unit.checkContext builtins).site · = []) (unit.Known builtins owner) owner k q := by
  refine .flatMap (fun i s _ => ?_) ?_
  · exact (CheckContext.oneEach_stmt (knows_ownNames owner) s).embed _ fun p q h => (hplaces i i p q h).2
  · rintro i j a b k _ ⟨q, rfl, -⟩ ⟨q', h, -⟩
    exact (hplaces j i q' q h).1.symm

/-- Functions have one diagnostic for each defect. -/
theorem oneEach_functions : OneEach (unit.functions.flatMap (validateFunction (unit.checkContext builtins)))
    fun k place => ∃ f fn, unit.functions[f]? = some fn ∧
      ((∃ i, UnitPlace.param f i = place ∧ k = .repeatedParam ∧ Repeats fn.params i) ∨
        ∃ i s, fn.body[i]? = some s ∧ ∃ q, UnitPlace.functionStmt f i q = place ∧
          s.Defective ((unit.checkContext builtins).site · = []) (unit.Known builtins (some fn)) (some fn)
            k q) := by
  refine .flatMap (fun f fn _ => ?_) ?_
  · have hcode : ∀ p : String, (Diagnostic.plain "E_DUP_PARAM"
        s!"Duplicate parameter '{p}' in function '{fn.name}'.").code = DefectKind.repeatedParam.code :=
      fun _ => rfl
    have hparams := (OneEach.repeats hcode fn.params).embed (UnitPlace.param f)
      fun _ _ h => (UnitPlace.param.inj h).2
    refine hparams.append (oneEach_body (some fn) fn.body fun _ _ _ _ h => (UnitPlace.functionStmt.inj h).2) ?_
    rintro k _ ⟨i, rfl, -⟩ ⟨j, s, -, q, h, -⟩
    cases h
  · rintro f g fn fn' k _ (⟨i, rfl, -⟩ | ⟨i, s, -, q, rfl, -⟩) (⟨j, h, -⟩ | ⟨j, s', -, q', h, -⟩) <;>
      cases h <;> rfl

/-- **The diagnostics of a unit are one for each defect**, as far as sites fit that the checks let pass. -/
theorem oneEach_validate (unit : CompiledUnit) (builtins : Option (List String)) :
    OneEach (unit.validate builtins)
      (unit.DefectiveBy ((unit.checkContext builtins).site · = []) builtins) := by
  have hinput : ∀ n : String, (Diagnostic.plain "E_DUP_INPUT" s!"Duplicate input '{n}'.").code =
      DefectKind.repeatedInput.code := fun _ => rfl
  have hfunction : ∀ n : String, (Diagnostic.mk "E_DUP_FN" s!"Duplicate function '{n}'." none
      (some "Give each function a unique name.")).code = DefectKind.repeatedFunction.code := fun _ => rfl
  have hinputs := (OneEach.repeats hinput (unit.inputs.getD [])).embed UnitPlace.input
    fun _ _ h => UnitPlace.input.inj h
  have hnames := (OneEach.repeats hfunction (unit.functions.map FunctionDecl.name)).embed UnitPlace.function
    fun _ _ h => UnitPlace.function.inj h
  have hmodule : OneEach (unit.module.flatMap ((unit.checkContext builtins).stmt none (ownNames none))) _ :=
    oneEach_body none unit.module fun _ _ _ _ h => UnitPlace.moduleStmt.inj h
  refine (((hinputs.append hnames ?_).append oneEach_functions ?_).append hmodule ?_).congr fun k place => ?_
  · rintro k _ ⟨i, rfl, -⟩ ⟨j, h, -⟩
    cases h
  · rintro k _ (⟨i, rfl, -⟩ | ⟨i, rfl, -⟩) ⟨f, fn, -, ⟨j, h, -⟩ | ⟨j, s, -, q, h, -⟩⟩ <;> cases h
  · rintro k _ ((⟨i, rfl, -⟩ | ⟨i, rfl, -⟩) | ⟨f, fn, -, ⟨j, rfl, -⟩ | ⟨j, s, -, q, rfl, -⟩⟩)
      ⟨j, s, -, q, h, -⟩ <;> cases h
  · constructor
    · rintro (((⟨i, rfl, rfl, h⟩ | ⟨i, rfl, rfl, h⟩) | ⟨f, fn, hfn, ⟨j, rfl, rfl, h⟩ | ⟨j, s, hs, q, rfl, h⟩⟩) |
        ⟨j, s, hs, q, rfl, h⟩)
      · cases hnone : unit.inputs with
        | none => rw [hnone] at h; obtain ⟨n, j, hn, -⟩ := h; cases hn
        | some inputs => rw [hnone] at h; exact .repeatedInput hnone h
      · exact .repeatedFunction h
      · exact .repeatedParam hfn h
      · exact .inFunction hfn hs h
      · exact .inModule hs h
    · intro h
      cases h with
      | repeatedInput hinputs h => exact .inl (.inl (.inl ⟨_, rfl, rfl, by rwa [hinputs]⟩))
      | repeatedFunction h => exact .inl (.inl (.inr ⟨_, rfl, rfl, h⟩))
      | repeatedParam hfn h => exact .inl (.inr ⟨_, _, hfn, .inl ⟨_, rfl, rfl, h⟩⟩)
      | inFunction hfn hs h => exact .inl (.inr ⟨_, _, hfn, .inr ⟨_, _, hs, _, rfl, h⟩⟩)
      | inModule hs h => exact .inr ⟨_, _, hs, _, rfl, h⟩

/-- The checks let a site pass exactly if it lies in the source. -/
theorem site_eq_nil_iff (hsize : Text.length unit.source ≤ Text.maxLength) {site : Site}
    (hsite : site.Defined) :
    (unit.checkContext builtins).site site = [] ↔ site.LiesIn unit.source := by
  have hline : ∀ text,
      Text.lineAt? (Text.lines unit.source) site.line = some text ∧ site.line.isInteger = true ↔ _ :=
    fun _ => Text.lineAt?_eq_some_iff (Text.length_lines_le hsize)
  have hzero : Number.zero ≠ .nan := Number.ofInt_ne_nan 0
  have hcolumns : ∀ text, (site.column.lt .zero || site.endColumn.lt site.column ||
        (Number.ofNat (Text.length text)).lt site.column) = false ↔
      Number.zero.le site.column = true ∧ site.column.le site.endColumn = true ∧
        site.column.le (.ofNat (Text.length text)) = true := by
    intro text
    have hlength : Number.ofNat (Text.length text) ≠ .nan := Number.ofInt_ne_nan _
    rw [Bool.or_eq_false_iff, Bool.or_eq_false_iff, Number.lt_eq_false_iff hsite.column hzero,
      Number.lt_eq_false_iff hsite.endColumn hsite.column,
      Number.lt_eq_false_iff hlength hsite.column, and_assoc]
  have hpasses : (unit.checkContext builtins).site site = [] ↔ ∃ text,
      (Text.lineAt? (Text.lines unit.source) site.line = some text ∧ site.line.isInteger = true) ∧
      (site.column.lt .zero || site.endColumn.lt site.column ||
        (Number.ofNat (Text.length text)).lt site.column) = false := by
    unfold CheckContext.site checkContext
    cases Text.lineAt? (Text.lines unit.source) site.line with
    | none => simp
    | some text => cases site.line.isInteger <;> simp
  rw [hpasses]
  simp only [hline, hcolumns]
  constructor
  · rintro ⟨text, ⟨n, hone, hn, hat⟩, hzero, horder, hend⟩
    exact ⟨⟨n, text, hone, hn, hat, hzero, hend⟩, horder⟩
  · rintro ⟨⟨n, text, hone, hn, hat, hzero, hend⟩, horder⟩
    exact ⟨text, ⟨n, hone, hn, hat⟩, hzero, horder, hend⟩

/-- **The checks of a unit are exact.**  For any unit whose site numbers are numbers, as long as its source is not
longer than a text can be, and with or without the names of builtins:

* there are no diagnostics exactly if no place of the unit has a defect;
* of every kind there are as many diagnostics as places with a defect of that kind;
* every diagnostic has the code of a kind. -/
theorem validate_exact (unit : CompiledUnit) (builtins : Option (List String))
    (hsize : Text.length unit.source ≤ Text.maxLength) (hsites : ∀ site, unit.HasSite site → site.Defined) :
    (unit.validate builtins = [] ↔ ∀ k place, ¬ unit.Defective builtins k place) ∧
    (∀ k : DefectKind, {place | unit.Defective builtins k place}.encard =
      (unit.validate builtins).countP (·.code = k.code)) ∧
    ∀ d ∈ unit.validate builtins, ∃ k : DefectKind, d.code = k.code := by
  have hdefective : ∀ k place, unit.DefectiveBy ((unit.checkContext builtins).site · = []) builtins k place ↔
      unit.Defective builtins k place := fun k place =>
    ⟨.mono fun site hsite => (site_eq_nil_iff hsize (hsites site hsite)).mpr,
      .mono fun site hsite => (site_eq_nil_iff hsize (hsites site hsite)).mp⟩
  have h := (oneEach_validate unit builtins).congr hdefective
  refine ⟨h.eq_nil_iff, h.encard_eq, fun d hd => ?_⟩
  obtain ⟨k, _, -, hk⟩ := h.exists_kind hd
  exact ⟨k, hk⟩

/-- A unit with one defect of each kind.

```
def f(a, a):
    return b
def f():
    return 1
y = f
f(k=1, k=2)
await f()
return
```
-/
def flawed : CompiledUnit where
  file := "flawed.py"
  source := "\n".intercalate ["def f(a, a):", "    return b", "def f():", "    return 1", "y = f",
    "f(k=1, k=2)", "await f()", "return"]
  inputs := some ["i", "i"]
  functions := [⟨"f", false, ["a", "a"], [.ret (some (.name "b" none)) (some ⟨.ofNat 2, .ofNat 4, .ofNat 12⟩)]⟩,
    ⟨"f", false, [], [.ret (some (.const (.number (.ofNat 1)) none)) none]⟩]
  module := [
    .assign "y" (.name "f" none) none,
    .expr (.call (.name "f" none) [] (some [("k", .const (.number (.ofNat 1)) none),
      ("k", .const (.number (.ofNat 2)) none)]) ⟨.ofNat 6, .ofNat 0, .ofNat 11⟩) none,
    .await none (.call (.name "f" none) [] none ⟨.ofNat 9, .ofNat 6, .ofNat 9⟩) ⟨.ofNat 7, .ofNat 0, .ofNat 9⟩,
    .ret none none]

theorem flawed_defects : (fun k => {place | flawed.Defective (some []) k place}.encard) = fun _ => 1 := by
  have hdefined : ∀ line column endColumn : Nat,
      (⟨.ofNat line, .ofNat column, .ofNat endColumn⟩ : Site).Defined := fun _ _ _ =>
    ⟨Number.ofInt_ne_nan _, Number.ofInt_ne_nan _, Number.ofInt_ne_nan _⟩
  have hsites : ∀ site, flawed.HasSite site → site.Defined := by
    simp [HasSite, flawed, Stmt.HasSite, Stmt.site?, Stmt.exprs, or_imp, forall_and, hdefined]
  have hcodes : (flawed.validate (some [])).map (·.code) = ["E_DUP_INPUT", "E_DUP_FN", "E_DUP_PARAM", "E_UNBOUND",
      "E_NO_SITE", "E_DUP_KEYWORD", "E_AWAIT_OUTSIDE", "E_SITE", "E_RETURN_OUTSIDE"] := by decide +kernel
  obtain ⟨-, hcount, -⟩ := validate_exact flawed (some []) (by decide +kernel) hsites
  funext k
  have hone : ((flawed.validate (some [])).map (·.code)).countP (· = k.code) = 1 := by
    rw [hcodes]
    cases k <;> decide
  rw [List.countP_map] at hone
  rw [hcount k, ← Nat.cast_one, ← hone]
  rfl

end CompiledUnit

end Coroutines
