import Coroutines.Proofs.Scopes.Frames
import Coroutines.Proofs.Scopes.Globals
import Coroutines.Proofs.Suspension.Resumed

/-!
# The history of a scope

The bindings of a scope, from those that it begins with on, change from one of its own statements to the
next only, and by the one name that the statement binds, if it binds any (`ScopeHistory`).  This holds of
a call of a plain function (`Program.runBody_history`), of a coroutine across all its resumes
(`Lived.history`), and of the module, whose scope is the globals (`Program.recordModule_history`).
-/

namespace Coroutines

/-! ### What a statement binds -/

namespace Stmt

/-- The name that a statement binds in the scope that carries it out: at once, or when it has awaited. -/
def target? : Stmt → Option String
  | .assign name _ _ => some name
  | .await target _ _ => target
  | _ => none

/-- A statement makes the bindings after it of those before it: it binds its name and nothing else. -/
def Binds (stmt : Stmt) (before after : Bindings Value) : Prop :=
  match stmt.target? with
  | some name => ∃ v, after = before.set name v
  | none => after = before

/-- A statement that completes and lets the next one follow binds its name. -/
theorem Completes.binds {stmt : Stmt} {completion : Completion} (h : stmt.Completes completion)
    (hawait : ∀ target, completion ≠ .await target) (scope : Scope) :
    stmt.Binds scope.locals (scope.after completion).locals := by
  cases stmt with
  | assign name value site =>
      obtain ⟨v, rfl⟩ := h
      exact ⟨v, rfl⟩
  | expr value site =>
      obtain ⟨v, rfl⟩ := h
      rfl
  | await target value site =>
      obtain ⟨t, rfl⟩ := h
      exact absurd rfl (hawait t)
  | ret value site =>
      obtain ⟨v, rfl⟩ := h
      rfl
  | assert test message site =>
      cases h
      rfl

/-- An await has bound its target when it has brought a value. -/
theorem binds_delivered (target : Option String) (operand : Expr) (site : Site) (locals : Bindings Value)
    (v : Value) : (Stmt.await target operand site).Binds locals (locals.delivered target v) := by
  cases target with
  | none => rfl
  | some x => exact ⟨v, rfl⟩

end Stmt

/-- The statements that a scope carried out, from one on that has number `pc`, each with the bindings that
it found. -/
structure ScopeHistory (stmts : List Stmt) (pc : Nat) (locals : Bindings Value) (log : List Execution) :
    Prop where
  /-- They are what the statements begin with. -/
  inOrder : log.map Execution.placed <+: stmts.zipIdx pc
  /-- The first one finds the bindings that the scope begins with. -/
  first : ∀ e ∈ log.head?, e.locals = locals
  /-- Every other one finds what the one before it has bound, and no other change. -/
  writes : log.IsChain fun e e' => e.stmt.Binds e.locals e'.locals

namespace ScopeHistory

variable {stmt : Stmt} {rest : List Stmt} {pc : Nat} {locals between : Bindings Value}
  {log : List Execution}

theorem nil (pc : Nat) (locals : Bindings Value) : ScopeHistory [] pc locals [] :=
  ⟨List.nil_prefix, by simp, .nil⟩

theorem single (stmt : Stmt) (rest : List Stmt) (pc : Nat) (locals : Bindings Value) :
    ScopeHistory (stmt :: rest) pc locals [⟨stmt, pc, locals⟩] where
  inOrder := List.cons_prefix_cons.mpr ⟨rfl, List.nil_prefix⟩
  first e he := by
    cases he
    rfl
  writes := .singleton _

/-- A statement that completes binds its name before the next one begins. -/
theorem cons (h : ScopeHistory rest (pc + 1) between log) (hbinds : stmt.Binds locals between) :
    ScopeHistory (stmt :: rest) pc locals (⟨stmt, pc, locals⟩ :: log) where
  inOrder := List.cons_prefix_cons.mpr ⟨rfl, h.inOrder⟩
  first e he := by
    cases he
    rfl
  writes := List.isChain_cons.mpr ⟨fun e he => by rwa [h.first e he], h.writes⟩

end ScopeHistory

namespace Program

variable {p : Program} {call : Calls} {runner : Runner Body Globals} {w w' : World Body Globals}

/-- A stretch of statements is a history of its scope. -/
theorem runRecorded_history (p : Program) (call : Calls) (runner : Runner Body Globals) (scope : Scope)
    (pc : Nat) (stmts : List Stmt) (w : World Body Globals) :
    ScopeHistory stmts pc scope.locals (p.runRecorded call runner scope pc stmts w).1 := by
  induction stmts generalizing scope pc w with
  | nil => exact .nil pc scope.locals
  | cons stmt rest ih =>
      rcases hx : (p.execStmt call scope stmt).perform runner w with
        ⟨e | (v | ⟨name, v⟩ | v | target), w'⟩ <;> simp only [runRecorded, hx]
      case error => exact .single ..
      case ok.ret => exact .single ..
      case ok.await => exact .single ..
      all_goals
        have hbinds := (completes_of_execStmt hx).binds (fun _ h => by cases h) scope
        exact (ih (scope.after _) (pc + 1) w').cons hbinds

/-! ### Calls of plain functions -/

/-- The value of a call whose statements ended with a step. -/
def returned (name : String) : Step → Script Value
  | .ret v => pure v
  | .await _ => .abort (.host s!"Function '{name}' is not async but reached an await.")
  | .raise r => .raise r

/-- A plain function runs as an async one does that never awaits. -/
theorem runBody_eq (p : Program) (call : Calls) (scope : Scope) (pc : Nat) (stmts : List Stmt) :
    p.runBody call scope stmts =
      (p.runAsync call scope pc stmts).bind fun r => returned scope.name r.2 := by
  induction stmts generalizing scope pc with
  | nil => rfl
  | cons stmt rest ih =>
      refine Eq.trans ?_ (Action.bind_assoc (p.execStmt call scope stmt) _ _).symm
      refine congrArg (Action.bind (p.execStmt call scope stmt)) (funext fun completion => ?_)
      cases completion with
      | next v => exact ih (scope.after (.next v)) (pc + 1)
      | bind name v => exact ih (scope.after (.bind name v)) (pc + 1)
      | ret v => rfl
      | await target => rfl

/-- **A call of a plain function has a scope of its own**, which begins with the arguments. -/
theorem runBody_history (p : Program) (call : Calls) (runner : Runner Body Globals) (scope : Scope)
    (stmts : List Stmt) (w : World Body Globals) : ∃ log ended w',
      p.runRecorded call runner scope 0 stmts w = (log, ended, w') ∧
      (p.runBody call scope stmts).perform runner w =
        World.andThen (fun r w => (returned scope.name r.2).perform runner w) (ended, w') ∧
      ScopeHistory stmts 0 scope.locals log := by
  have hhistory := p.runRecorded_history call runner scope 0 stmts w
  rcases h : p.runRecorded call runner scope 0 stmts w with ⟨log, ended, w'⟩
  rw [h] at hhistory
  refine ⟨log, ended, w', rfl, ?_, hhistory⟩
  have hrun : (p.runAsync call scope 0 stmts).perform runner w = (ended, w') :=
    (runRecorded_snd ..).symm.trans (congrArg Prod.snd h)
  rw [runBody_eq p call scope 0 stmts, Action.perform_bind, hrun]

end Program

/-! ### Coroutines -/

section

variable {p : Program} {depth : Nat} {fn : FunctionDecl} {locals : Bindings Value}
  {life : List (Resumption Body Globals × List Execution)}

/-- Within a resume the bindings are those of the frame, with what an await has brought, until a
statement binds. -/
theorem Resumes.writes {r : Resumption Body Globals} {log : List Execution}
    (h : Resumes p depth fn r log) :
    log.IsChain (fun e e' => e.stmt.Binds e.locals e'.locals) ∧ ∀ e' ∈ log.head?,
      r.input = .start ∧ e'.locals = r.frame.locals ∨
        ∃ target operand site v, fn.body[r.frame.pc]? = some (.await target operand site) ∧
          r.input = .value v ∧ e'.locals = r.frame.locals.delivered target v := by
  cases h with
  | start hin hpc h =>
      have hhistory := p.runRecorded_history (p.callValue depth) (World.runner (p.bodies depth) r.fuel)
        ⟨fn.name, r.frame.locals, .async⟩ 0 fn.body r.entered
      rw [h] at hhistory
      exact ⟨hhistory.writes, fun e he => .inl ⟨hin, hhistory.first e he⟩⟩
  | @value target operand site v _ hat hin h =>
      have hhistory := p.runRecorded_history (p.callValue depth) (World.runner (p.bodies depth) r.fuel)
        ⟨fn.name, r.frame.locals.delivered target v, .async⟩ (r.frame.pc + 1)
        (fn.body.drop (r.frame.pc + 1)) r.entered
      rw [h] at hhistory
      exact ⟨hhistory.writes, fun e he => .inr ⟨target, operand, site, v, hat, hin, hhistory.first e he⟩⟩
  | throw => exact ⟨.nil, by simp⟩

/-- A resume that goes on where the one before it left the coroutine finds what that await has bound. -/
theorem Resumes.links {t : Resumption Body Globals × List Execution} {r : Resumption Body Globals}
    {log : List Execution} (h : Resumes p depth fn r log) (ht : Restores t r)
    (horder : ∀ e ∈ t.2, fn.body[e.index]? = some e.stmt) {e e' : Execution}
    (he : t.2.getLast? = some e) (he' : log.head? = some e') : e.stmt.Binds e.locals e'.locals := by
  obtain ⟨e₀, he₀, -, hframe⟩ := ht.frame
  cases he.symm.trans he₀
  rcases h.writes.2 e' he' with ⟨hin, -⟩ | ⟨target, operand, site, v, hat, -, hlocals⟩
  · have hlater := ht.input
    rw [hin] at hlater
    cases hlater
  · rw [hframe] at hat hlocals
    have hstmt : e.stmt = .await target operand site :=
      Option.some.inj ((horder e (List.mem_of_getLast? he)).symm.trans hat)
    rw [hlocals, hstmt]
    exact Stmt.binds_delivered ..

/-- **A coroutine has a scope of its own across all its resumes**, which begins with the arguments of the
call that made it. -/
theorem Lived.history (h : Lived p depth fn locals life) :
    ScopeHistory fn.body 0 locals (executions life) := by
  have hplaced (e : Execution) (he : e ∈ executions life) : fn.body[e.index]? = some e.stmt := by
    have hmem := h.inOrder.subset (List.mem_map_of_mem he)
    exact List.mem_zipIdx_iff_getElem?.mp hmem
  have hmain : (∀ e ∈ (executions life).head?, e.locals = locals) ∧
      (executions life).IsChain fun e e' => e.stmt.Binds e.locals e'.locals := by
    obtain ⟨hresumes, hfirst, hrestored, -, -⟩ := h
    -- one resume after the other, from the first on
    induction life using List.reverseRecOn with
    | nil => exact ⟨by simp [executions], .nil⟩
    | append_singleton life t ih =>
        obtain ⟨r, log⟩ := t
        have hr : Resumes p depth fn r log := hresumes (r, log) (by simp)
        obtain ⟨hbefore, -, hlink⟩ := List.isChain_append.mp hrestored
        rw [executions_concat] at hplaced ⊢
        rcases hlast : life.getLast? with - | t
        · obtain rfl := List.getLast?_eq_none_iff.mp hlast
          obtain ⟨hstart, hframe⟩ := hfirst (r, log) rfl
          refine ⟨fun e he => ?_, hr.writes.1⟩
          rcases hr.writes.2 e he with ⟨-, hlocals⟩ | ⟨_, _, _, v, -, hin, -⟩
          · rw [hlocals, hframe]
          · cases hstart.symm.trans hin
        · have hrestores := hlink t hlast (r, log) rfl
          obtain ⟨e, he, -, -⟩ := hrestores.frame
          have hend := getLast?_executions hlast he
          have hne : executions life ≠ [] := List.ne_nil_of_mem (List.mem_of_getLast? hend)
          have hin (t : Resumption Body Globals × List Execution) (ht : t ∈ life) (e : Execution)
              (he : e ∈ t.2) : fn.body[e.index]? = some e.stmt :=
            hplaced e (List.mem_append_left _ (List.mem_flatMap.mpr ⟨t, ht, he⟩))
          obtain ⟨ihfirst, ihchain⟩ := ih (fun e he => hplaced e (List.mem_append_left _ he))
            (fun t ht => hresumes t (List.mem_append_left _ ht))
            (fun t' ht' => hfirst t' (by
              rwa [List.head?_append_of_ne_nil _ (List.ne_nil_of_mem (List.mem_of_getLast? hlast))]))
            hbefore
          rw [List.head?_append_of_ne_nil _ hne]
          refine ⟨ihfirst, List.isChain_append.mpr ⟨ihchain, hr.writes.1, fun e₀ he₀ e' he' => ?_⟩⟩
          cases he₀.symm.trans hend
          exact hr.links hrestores (hin t (List.mem_of_getLast? hlast)) he he'
  exact ⟨h.inOrder, hmain.1, hmain.2⟩

end

/-! ### The module -/

/-- The history of the globals, as those of a scope, up to the bindings after it. -/
structure ModuleHistory (stmts : List Stmt) (pc : Nat) (before : Bindings Value) (log : List Execution)
    (after : Bindings Value) : Prop extends ScopeHistory stmts pc before log where
  /-- The last statement has bound its name, too, or was broken off. -/
  last : ∀ e ∈ log.getLast?, e.stmt.Binds e.locals after ∨ after = e.locals
  empty : log = [] → after = before

namespace ModuleHistory

variable {stmt : Stmt} {rest : List Stmt} {pc : Nat} {before between after : Bindings Value}
  {log : List Execution}

/-- A statement that is broken off binds nothing. -/
theorem single (stmt : Stmt) (rest : List Stmt) (pc : Nat) (before : Bindings Value) :
    ModuleHistory (stmt :: rest) pc before [⟨stmt, pc, before⟩] before where
  toScopeHistory := .single ..
  last e he := by
    cases he
    exact .inr rfl
  empty h := nomatch h

theorem cons (h : ModuleHistory rest (pc + 1) between log after) (hbinds : stmt.Binds before between) :
    ModuleHistory (stmt :: rest) pc before (⟨stmt, pc, before⟩ :: log) after where
  toScopeHistory := h.toScopeHistory.cons hbinds
  last e he := by
    rw [List.getLast?_cons] at he
    cases hlast : log.getLast? with
    | none =>
        rw [hlast] at he
        cases he
        rw [h.empty (List.getLast?_eq_none_iff.mp hlast)]
        exact .inl hbinds
    | some e' =>
        rw [hlast] at he
        cases he
        exact h.last _ hlast
  empty h := nomatch h

end ModuleHistory

namespace Program

variable {p : Program} {call : Calls} {runner : Runner Body Globals} {w w' : World Body Globals}

/-- Runs module statements as `runStatements` does and records those that are carried out, each with the
globals before it; the first is statement number `pc`. -/
def recordModule (p : Program) (call : Calls) (runner : Runner Body Globals) (pc : Nat) (last : Value) :
    List Stmt → World Body Globals → List Execution × Except Abort Value × World Body Globals
  | [], w => ([], .ok last, w)
  | stmt :: rest, w =>
    let e : Execution := ⟨stmt, pc, w.shared.bindings⟩
    match (p.execStmt call ⟨CompiledUnit.moduleFrame, [], .module⟩ stmt).perform runner w with
    | (.error a, w) => ([e], .error a, w)
    | (.ok (.next v), w) =>
      let later := p.recordModule call runner (pc + 1) v rest w
      (e :: later.1, later.2)
    | (.ok (.bind name v), w) =>
      let later := p.recordModule call runner (pc + 1) .none rest
        { w with shared := { w.shared with bindings := w.shared.bindings.set name v } }
      (e :: later.1, later.2)
    | (.ok (.ret _), w) => ([e], .error (.host "Module statement 'Return' cannot return."), w)
    | (.ok (.await _), w) => ([e], .error (.host "Module statement 'Await' cannot await."), w)

/-- The record changes nothing. -/
theorem recordModule_snd (p : Program) (call : Calls) (runner : Runner Body Globals) (pc : Nat)
    (last : Value) (stmts : List Stmt) (w : World Body Globals) :
    (p.recordModule call runner pc last stmts w).2 =
      (p.runStatements call last stmts).perform runner w := by
  induction stmts generalizing pc last w with
  | nil => rfl
  | cons stmt rest ih =>
      refine Eq.trans ?_ (Action.perform_bind runner (p.execStmt call _ stmt) _ w).symm
      rw [recordModule]
      rcases (p.execStmt call ⟨CompiledUnit.moduleFrame, [], .module⟩ stmt).perform runner w with
        ⟨e | (_ | _ | _ | _), w'⟩
      · rfl
      · exact ih ..
      · exact ih ..
      · rfl
      · rfl

/-- **The module's own statements write the globals, and nothing that they evaluate does.** -/
theorem recordModule_history (p : Program) (depth level fuel pc : Nat) (last : Value)
    (stmts : List Stmt) (w : World Body Globals) :
    ModuleHistory stmts pc w.shared.bindings
      (p.recordModule (p.callValue depth) (World.runner (p.bodies level) fuel) pc last stmts w).1
      (p.recordModule (p.callValue depth) (World.runner (p.bodies level) fuel) pc last stmts
        w).2.2.shared.bindings := by
  induction stmts generalizing pc last w with
  | nil => exact ⟨.nil .., by simp [recordModule], fun _ => rfl⟩
  | cons stmt rest ih =>
      have hkept := (sparesGlobals_execStmt p depth ⟨CompiledUnit.moduleFrame, [], .module⟩ stmt).perform
        p level fuel w
      let globals : Scope := ⟨CompiledUnit.moduleFrame, w.shared.bindings, .module⟩
      rcases hx : (p.execStmt (p.callValue depth) ⟨CompiledUnit.moduleFrame, [], .module⟩ stmt).perform
        (World.runner (p.bodies level) fuel) w with ⟨e | (v | ⟨name, v⟩ | v | target), w'⟩ <;>
        simp only [recordModule, hx] at hkept ⊢
      case error => exact hkept ▸ .single ..
      case ok.ret => exact hkept ▸ .single ..
      case ok.await => exact hkept ▸ .single ..
      all_goals
        refine (ih ..).cons ?_
        rw [hkept]
        exact (completes_of_execStmt hx).binds (fun _ h => by cases h) globals

end Program

end Coroutines
