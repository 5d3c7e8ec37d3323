import Coroutines.Proofs.Erasure.Agreement
import Mathlib.Data.List.Nodup

/-!
# Statements and calls of an erased unit

Statements without awaits are simulated by what is left of them, and so are calls of plain functions,
by induction on how deep they nest.
-/

namespace Coroutines

/-! ### Binding arguments -/

namespace FunctionDecl

theorem has_of_bindKeywords {fn : FunctionDecl} {locals locals' kwargs : Bindings Value}
    (h : fn.bindKeywords locals kwargs = .ok locals') {n : String} (hn : locals'.has n = true) :
    locals.has n = true ∨ n ∈ fn.params := by
  induction kwargs generalizing locals with
  | nil =>
      cases h
      exact .inl hn
  | cons e rest ih =>
      simp only [bindKeywords] at h
      split at h
      · cases h
      · next hparam =>
          split at h
          · cases h
          · rcases ih h with h' | h'
            · rw [Bindings.has_set, Bool.or_eq_true, decide_eq_true_eq] at h'
              rcases h' with rfl | h'
              · exact .inr (by simpa using hparam)
              · exact .inl h'
            · exact .inr h'

/-- A call binds nothing but parameters. -/
theorem mem_params_of_bindParams {fn : FunctionDecl} {args : List Value}
    {kwargs locals : Bindings Value} (h : fn.bindParams args kwargs = .ok locals) {n : String}
    (hn : locals.has n = true) : n ∈ fn.params := by
  simp only [bindParams] at h
  split at h
  · cases h
  · split at h
    · cases h
    · next e =>
        split at h
        · cases h
          rcases has_of_bindKeywords e hn with h | h
          · rw [Bindings.has_ofList, decide_eq_true_eq] at h
            obtain ⟨x, hx, rfl⟩ := List.mem_map.mp h
            exact (List.of_mem_zip hx).1
          · exact h
        · cases h

theorem erase_bindKeywords (fn : FunctionDecl) (locals kwargs : Bindings Value) :
    fn.erase.bindKeywords locals kwargs = fn.bindKeywords locals kwargs := by
  induction kwargs generalizing locals with
  | nil => rfl
  | cons e rest ih => simp only [bindKeywords, ih]; rfl

/-- Erasure leaves the parameters alone. -/
theorem erase_bindParams (fn : FunctionDecl) (args : List Value) (kwargs : Bindings Value) :
    fn.erase.bindParams args kwargs = fn.bindParams args kwargs := by
  simp only [bindParams, erase_bindKeywords]
  rfl

end FunctionDecl

namespace CompiledUnit

variable {unit : CompiledUnit}

theorem Transparent.not_reserved (ht : unit.Transparent) {n : String} (hn : n ∈ unit.boundNames) :
    ¬unit.Reserved n := fun h => h.elim (ht.bound n hn).1 (ht.bound n hn).2

theorem Transparent.param (ht : unit.Transparent) {fn : FunctionDecl} (hfn : fn ∈ unit.functions)
    {n : String} (hn : n ∈ fn.params) : ¬unit.Reserved n :=
  ht.not_reserved (List.mem_append_right _
    (List.mem_flatMap.mpr ⟨fn, hfn, List.mem_append_left _ hn⟩))

theorem Transparent.local (ht : unit.Transparent) {fn : FunctionDecl} (hfn : fn ∈ unit.functions)
    {s : Stmt} (hs : s ∈ fn.body) {n : String} (hn : s.binds? = some n) : ¬unit.Reserved n :=
  ht.not_reserved (List.mem_append_right _ (List.mem_flatMap.mpr ⟨fn, hfn,
    List.mem_append_right _ (List.mem_filterMap.mpr ⟨s, hs, hn⟩)⟩))

theorem Transparent.global (ht : unit.Transparent) {s : Stmt} (hs : s ∈ unit.module) {n : String}
    (hn : s.binds? = some n) : ¬unit.Reserved n :=
  ht.not_reserved (List.mem_append_left _ (List.mem_append_left _
    (List.mem_filterMap.mpr ⟨s, hs, hn⟩)))

theorem Transparent.run_notMem (ht : unit.Transparent) : Builtin.run.name ∉ unit.asyncNames := by
  intro h
  obtain ⟨fn, hfn, hname⟩ := List.mem_map.mp h
  exact ht.named fn (List.mem_filter.mp hfn).1 hname

/-- A plain function awaits nothing. -/
theorem Transparent.sync (ht : unit.Transparent) {fn : FunctionDecl} (hfn : fn ∈ unit.functions)
    (hsync : fn.isAsync = false) {target : Option String} {value : Expr} {site : Site} :
    Stmt.await target value site ∉ fn.body := by
  intro hs
  have h := ht.valid
  simp only [validate, List.append_eq_nil_iff, List.flatMap_eq_nil_iff] at h
  have hv := h.1.2 fn hfn
  simp only [validateFunction, List.append_eq_nil_iff, List.flatMap_eq_nil_iff] at hv
  have hstmt := hv.2 _ hs
  simp [CheckContext.stmt, hsync] at hstmt

/-- The module awaits nothing. -/
theorem Transparent.module_await (ht : unit.Transparent) {target : Option String} {value : Expr}
    {site : Site} : Stmt.await target value site ∉ unit.module := by
  intro hs
  have h := ht.valid
  simp only [validate, List.append_eq_nil_iff, List.flatMap_eq_nil_iff] at h
  have hstmt := h.2 _ hs
  simp [CheckContext.stmt] at hstmt

theorem Transparent.tame_bindParams (ht : unit.Transparent) {fn : FunctionDecl}
    (hfn : fn ∈ unit.functions) {args : List Value} {kwargs locals : Bindings Value}
    (ha : ∀ v ∈ args, v.Known unit.Keeps) (hk : kwargs.All (Value.Known unit.Keeps))
    (h : fn.bindParams args kwargs = .ok locals) : unit.Tame locals where
  values := (FunctionDecl.bindParams_all ha hk h).1
  unbound n hn := by
    cases hget : locals.get? n with
    | none => rfl
    | some v =>
        have hhas : locals.has n = true := by rw [Bindings.has, hget]; rfl
        exact (ht.param hfn (FunctionDecl.mem_params_of_bindParams h hhas) hn).elim

end CompiledUnit

/-- A statement other than an await, and the names that it binds, are no matter of erasure. -/
structure Stmt.Kept (unit : CompiledUnit) (launches : Bool) (s : Stmt) : Prop where
  erasable : s.erasable unit.asyncNames launches = true
  binds : ∀ n, s.binds? = some n → ¬unit.Reserved n
  noAwait : ∀ target value site, s ≠ .await target value site

theorem CompiledUnit.Transparent.kept_of_sync {unit : CompiledUnit} (ht : unit.Transparent)
    {fn : FunctionDecl} (hfn : fn ∈ unit.functions) (hsync : fn.isAsync = false) :
    ∀ s ∈ fn.body, s.Kept unit false := fun s hs =>
  ⟨ht.functions fn hfn s hs, fun _ hn => ht.local hfn hs hn,
    fun _ _ _ e => ht.sync hfn hsync (e ▸ hs)⟩

theorem CompiledUnit.Transparent.kept_of_module {unit : CompiledUnit} (ht : unit.Transparent) :
    ∀ s ∈ unit.module, s.Kept unit true := fun s hs =>
  ⟨ht.module s hs, fun _ hn => ht.global hs hn, fun _ _ _ e => ht.module_await (e ▸ hs)⟩

/-- Nothing is erased in a plain function. -/
theorem CompiledUnit.Transparent.erase_body_of_sync {unit : CompiledUnit} (ht : unit.Transparent)
    {fn : FunctionDecl} (hfn : fn ∈ unit.functions) (hsync : fn.isAsync = false) :
    fn.body.map Stmt.erase = fn.body :=
  (List.map_congr_left fun s hs => Stmt.erase_eq (ht.kept_of_sync hfn hsync s hs).erasable
    (ht.kept_of_sync hfn hsync s hs).noAwait).trans (List.map_id' _)

/-- A completion that erasure keeps. -/
def Completion.Kept (unit : CompiledUnit) : Completion → Prop
  | .next v | .ret v => v.Known unit.Keeps
  | .bind n v => v.Known unit.Keeps ∧ ¬unit.Reserved n
  | .await _ => False

theorem Scope.Alike.after {unit : CompiledUnit} {scope scope' : Scope}
    (h : scope.Alike unit scope') {c : Completion} (hc : c.Kept unit) :
    (scope.after c).Alike unit (scope'.after c) := by
  cases c with
  | bind n v =>
      exact ⟨h.name, congrArg (Bindings.set · n v) h.locals, h.mode, h.tame.set hc.2 hc.1⟩
  | _ => exact h

namespace Program

variable {unit : CompiledUnit} {rel : ScriptRelation} {launches : Bool} {p p' : Program}
  {call call' : Calls} {scope scope' : Scope}

theorem Evaluates.within (h : Evaluates unit rel launches p p' call call' scope scope')
    (hl : launches = false) {scope₁ scope₁' : Scope} (hs : scope₁.Alike unit scope₁') :
    Evaluates unit rel launches p p' call call' scope₁ scope₁' :=
  ⟨h.program, h.named, h.calls, hs, fun e => by rw [hl] at e; cases e⟩

/-! ### Statements -/

/-- **Statements are simulated by what is left of them.** -/
theorem agree_execStmt (sim : Simulation unit.TameGlobals rel)
    (h : Evaluates unit rel launches p p' call call' scope scope') {s : Stmt}
    (hs : s.Kept unit launches) :
    rel Completion (Completion.Kept unit) (p.execStmt call scope s)
      (p'.execStmt call' scope' s.erase) := by
  have he := hs.erasable
  cases s with
  | assign name value site =>
      exact sim.bind (agree_evalExpr sim h value he) fun v hv => sim.value ⟨hv, hs.binds name rfl⟩
  | expr value site => exact sim.bind (agree_evalExpr sim h value he) fun v hv => sim.value hv
  | ret value site =>
      simp only [execStmt, Stmt.erase, h.scopes.mode]
      split
      · exact sim.abort _
      · cases value with
        | none => exact sim.value trivial
        | some e => exact sim.bind (agree_evalExpr sim h e he) fun v hv => sim.value hv
  | assert test message site =>
      simp only [Stmt.erasable, Bool.and_eq_true] at he
      simp only [execStmt, Stmt.erase]
      refine sim.bind (agree_evalExpr sim h test he.1) fun v hv => ?_
      -- an assertion fails in the frame of its statement
      have hfails : ∀ text, (⟨.assertion text, [p.frame scope.name "assert" [v] site]⟩ : Record).Same
          ⟨.assertion text, [p'.frame scope'.name "assert" [v] site]⟩ := fun text =>
        ⟨rfl, by simp [frame, sourceSite, h.scopes.name]⟩
      split
      · exact sim.value trivial
      · cases message with
        | none => exact sim.error (.script (hfails none))
        | some e =>
            refine sim.bind (agree_evalExpr sim h e he.2) fun m _ => ?_
            rcases assertion_eq m with hm | hm <;> rw [hm, hm]
            · exact sim.abort _
            · exact sim.error (.script (hfails _))
  | await target value site => exact (hs.noAwait target value site rfl).elim

/-- A function without awaits. -/
theorem agree_runBody (sim : Simulation unit.TameGlobals rel) {stmts : List Stmt}
    (h : Evaluates unit rel false p p' call call' scope scope')
    (hs : ∀ s ∈ stmts, s.Kept unit false) :
    rel Value (Value.Known unit.Keeps) (p.runBody call scope stmts)
      (p'.runBody call' scope' (stmts.map Stmt.erase)) := by
  induction stmts generalizing scope scope' with
  | nil => exact sim.value trivial
  | cons s rest ih =>
      obtain ⟨hstmt, hrest⟩ := List.forall_mem_cons.mp hs
      refine sim.bind (agree_execStmt sim h hstmt) fun c hc => ?_
      cases c with
      | ret v => exact sim.value hc
      | await target => exact hc.elim
      | next v => exact ih (h.within rfl (h.scopes.after hc)) hrest
      | bind n v => exact ih (h.within rfl (h.scopes.after hc)) hrest

/-- The scope of module statements. -/
theorem alike_module (unit : CompiledUnit) :
    Scope.Alike unit ⟨CompiledUnit.moduleFrame, [], .module⟩ ⟨CompiledUnit.moduleFrame, [], .module⟩ :=
  ⟨rfl, rfl, .rfl, .nil⟩

/-- **Module statements are simulated by what is left of them**, if launches of coroutines are. -/
theorem agree_runStatements (sim : Simulation unit.TameGlobals rel)
    (h : Evaluates unit rel true p p' call call' ⟨CompiledUnit.moduleFrame, [], .module⟩
      ⟨CompiledUnit.moduleFrame, [], .module⟩)
    {last : Value} (hlast : last.Known unit.Keeps) {stmts : List Stmt}
    (hs : ∀ s ∈ stmts, s.Kept unit true) :
    rel Value (Value.Known unit.Keeps) (p.runStatements call last stmts)
      (p'.runStatements call' last (stmts.map Stmt.erase)) := by
  induction stmts generalizing last with
  | nil => exact sim.value hlast
  | cons s rest ih =>
      obtain ⟨hstmt, hrest⟩ := List.forall_mem_cons.mp hs
      refine sim.bind (agree_execStmt sim h hstmt) fun c hc => ?_
      cases c with
      | next v => exact ih hc hrest
      | bind n v => exact sim.modify (fun g hg => hg.set hc.2 hc.1) (ih trivial hrest)
      | ret v => exact sim.abort _
      | await target => exact hc.elim

/-! ### Calls of plain functions -/

theorem Mirrored.outOfFuel {ok : Globals → Prop} {α : Type} {post : α → Prop} (a : Script α) :
    Mirrored ok α post (.abort .outOfFuel) a := fun st hst =>
  ⟨.error .outOfFuel, st, rfl, hst, nofun, fun h => (h rfl).elim⟩

/-- **Calls of plain functions are simulated** in a program with the same functions under open names, by
calls that may nest as deep, by induction on how deep they nest. -/
theorem callsAgree (ht : unit.Transparent) (hp : Alike unit p p') {depth depth' : Nat}
    (hd : depth ≤ depth') :
    CallsAgree unit (Mirrored unit.TameGlobals) (p.callValue depth) (p'.callValue depth') := by
  have sim := Mirrored.simulation unit.TameGlobals
  induction depth generalizing depth' with
  | zero =>
      intro fn args kwargs _ _ _
      exact Mirrored.outOfFuel _
  | succ depth ih =>
      obtain ⟨depth', rfl⟩ := Nat.exists_eq_add_one.mpr (Nat.lt_of_lt_of_le (Nat.succ_pos _) hd)
      have hcall := ih (Nat.le_of_succ_le_succ hd)
      intro fn args kwargs hfn ha hk
      cases fn with
      | builtin b => exact Builtin.agree_invoke sim hcall hfn.1 hfn.2 ha kwargs
      | function i decl =>
          have hsync := hfn.2
          simp only [callValue, callFunction]
          cases hb : decl.bindParams args kwargs with
          | error f => exact sim.abort _
          | ok locals =>
              have hevaluates : Evaluates unit (Mirrored unit.TameGlobals) false p p' _ _
                  ⟨decl.name, locals, .sync⟩ ⟨decl.name, locals, .sync⟩ :=
                ⟨hp, ht.run_notMem, hcall, ⟨rfl, rfl, .rfl, ht.tame_bindParams hfn.1 ha hk hb⟩,
                  fun h => by cases h⟩
              have hbody := agree_runBody sim hevaluates (ht.kept_of_sync hfn.1 hsync)
              rw [ht.erase_body_of_sync hfn.1 hsync] at hbody
              simpa only [hsync, Bool.false_eq_true, if_false] using hbody
      | _ => exact sim.abort _

end Program

/-! ### The functions of an erased unit -/

theorem nodup_of_repeated {report : String → Diagnostic} {l seen : List String}
    (h : repeated report seen l = []) : l.Nodup ∧ ∀ n ∈ l, n ∉ seen := by
  induction l generalizing seen with
  | nil => exact ⟨.nil, nofun⟩
  | cons n rest ih =>
      simp only [repeated, List.append_eq_nil_iff] at h
      obtain ⟨hnew, hrest⟩ := h
      obtain ⟨hnodup, hdisjoint⟩ := ih hrest
      have hn : n ∉ seen := fun hmem => by
        rw [if_pos (List.contains_iff_mem.mpr hmem)] at hnew
        cases hnew
      exact ⟨List.nodup_cons.mpr ⟨fun hmem => hdisjoint n hmem List.mem_cons_self, hnodup⟩,
        List.forall_mem_cons.mpr ⟨hn, fun m hm hs => hdisjoint m hm (List.mem_cons_of_mem n hs)⟩⟩

/-- A function as a plain one; any other value as it is. -/
def Value.eraseFunction : Value → Value
  | .function i decl => .function i decl.erase
  | v => v

namespace Program

variable {unit : CompiledUnit}

theorem mem_functions {n : String} {v : Value}
    (h : (Program.ofUnit unit).functions.get? n = some v) :
    ∃ i decl, v = .function i decl ∧ decl ∈ unit.functions ∧ decl.name = n := by
  obtain ⟨⟨decl, i⟩, hmem, heq⟩ := List.mem_map.mp (Bindings.mem_of_get?_ofList h)
  cases heq
  exact ⟨i, decl, rfl, List.fst_mem_of_mem_zipIdx hmem, rfl⟩

/-- The erased unit has the same functions as plain ones. -/
theorem functions_erase (unit : CompiledUnit) (n : String) :
    (Program.ofUnit unit.erase).functions.get? n =
      ((Program.ofUnit unit).functions.get? n).map Value.eraseFunction := by
  have h := Bindings.get?_ofList_map
    (unit.functions.zipIdx.map fun x => (x.1.name, Value.function x.2 x.1)) Value.eraseFunction n
  simp only [List.map_map] at h
  simp only [ofUnit, CompiledUnit.erase, List.zipIdx_map, List.map_map]
  exact h

/-- The function under the name of an async one is that one: names of functions are unique. -/
theorem functions_async (ht : unit.Transparent) {f : String} (hf : f ∈ unit.asyncNames) :
    ∃ i decl, (Program.ofUnit unit).functions.get? f = some (.function i decl) ∧
      decl ∈ unit.functions ∧ decl.isAsync = true ∧ decl.name = f := by
  obtain ⟨fn, hfn, rfl⟩ := List.mem_map.mp hf
  obtain ⟨hmem, hasync⟩ := List.mem_filter.mp hfn
  have hhas := functions_has hmem
  obtain ⟨v, hv⟩ := Option.isSome_iff_exists.mp hhas
  obtain ⟨i, decl, rfl, hdecl, hname⟩ := mem_functions hv
  have h := ht.valid
  simp only [CompiledUnit.validate, List.append_eq_nil_iff] at h
  have hunique := (nodup_of_repeated h.1.1.2).1
  obtain rfl := List.inj_on_of_nodup_map hunique hdecl hmem hname
  exact ⟨i, decl, hv, hdecl, hasync, rfl⟩

/-- Open names stand for plain functions, which erasure leaves alone. -/
theorem functions_open (ht : unit.Transparent) {n : String}
    (hn : isOpen unit.asyncNames n = true) {v : Value}
    (h : (Program.ofUnit unit).functions.get? n = some v) :
    v.Known unit.Keeps ∧ v.eraseFunction = v := by
  obtain ⟨i, decl, rfl, hdecl, rfl⟩ := mem_functions h
  have hsync : decl.isAsync = false := by
    cases hasync : decl.isAsync with
    | false => rfl
    | true =>
        have hmem : decl.name ∈ unit.asyncNames :=
          List.mem_map.mpr ⟨decl, List.mem_filter.mpr ⟨hdecl, hasync⟩, rfl⟩
        simp [isOpen, hmem] at hn
  refine ⟨⟨hdecl, hsync⟩, congrArg (Value.function i) ?_⟩
  simp only [FunctionDecl.erase, ht.erase_body_of_sync hdecl hsync, ← hsync]

/-- **A unit and the erased one have the same functions under open names.** -/
theorem alike_erase (ht : unit.Transparent) :
    Alike unit (Program.ofUnit unit) (Program.ofUnit unit.erase) := by
  intro n hn
  rw [functions_erase]
  cases h : (Program.ofUnit unit).functions.get? n with
  | none => exact ⟨rfl, nofun⟩
  | some v =>
      obtain ⟨hkept, herase⟩ := functions_open ht hn h
      exact ⟨congrArg some herase.symm, fun v' e => Option.some.inj e ▸ hkept⟩

theorem Alike.symm {p p' : Program} (h : Alike unit p p') : Alike unit p' p := fun n hn =>
  ⟨(h n hn).1.symm, fun v hv => (h n hn).2 v ((h n hn).1.trans hv)⟩

end Program

end Coroutines
