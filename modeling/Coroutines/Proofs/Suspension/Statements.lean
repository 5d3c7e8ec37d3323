import Coroutines.Proofs.Suspension.Lives
import Coroutines.Proofs.Erasure.Simulation
import Coroutines.Script.Evaluation

/-!
# Statements across suspensions

An async function is carried out in several resumes.  A record of the statements that a resume carries
out (`Program.runRecorded`), put after those of the resumes before, runs through the body from its first
statement on: no statement is left out and none is carried out twice (`Program.suspension_exact`).
-/

namespace Coroutines

/-- Whether a coroutine may be suspended at a statement. -/
def Stmt.isAwait : Stmt → Bool
  | .await _ _ _ => true
  | _ => false

/-- How a statement completes, if it does. -/
def Stmt.Completes : Stmt → Completion → Prop
  | .assign name _ _, completion => ∃ v, completion = .bind name v
  | .expr _ _, completion => ∃ v, completion = .next v
  | .await _ _ _, completion => ∃ target, completion = .await target
  | .ret _ _, completion => ∃ v, completion = .ret v
  | .assert _ _ _, completion => completion = .next .none

/-- A statement of an async function as it is carried out. -/
structure Execution where
  stmt : Stmt
  /-- The place of the statement in the body. -/
  index : Nat
  /-- The bindings before the statement. -/
  locals : Bindings Value

/-- The statement with its place. -/
def Execution.placed (e : Execution) : Stmt × Nat := (e.stmt, e.index)

namespace Program

variable {p : Program} {call : Calls} {runner : Runner Body Globals} {w w' : World Body Globals}

/-! ### One stretch of statements -/

/-- Runs statements of an async function as `runAsync` does and records those that are carried out. -/
def runRecorded (p : Program) (call : Calls) (runner : Runner Body Globals) (scope : Scope)
    (pc : Nat) : List Stmt → World Body Globals →
      List Execution × Except Abort (Frame × Step) × World Body Globals
  | [], w => ([], .ok (⟨pc, scope.locals⟩, .ret .none), w)
  | stmt :: rest, w =>
    match (p.execStmt call scope stmt).perform runner w with
    | (.error e, w) => ([⟨stmt, pc, scope.locals⟩], .error e, w)
    | (.ok (.ret v), w) => ([⟨stmt, pc, scope.locals⟩], .ok (⟨pc, scope.locals⟩, .ret v), w)
    | (.ok (.await target), w) =>
      ([⟨stmt, pc, scope.locals⟩], .ok (⟨pc, scope.locals⟩, .await target), w)
    | (.ok completion, w) =>
      let later := p.runRecorded call runner (scope.after completion) (pc + 1) rest w
      (⟨stmt, pc, scope.locals⟩ :: later.1, later.2)

/-- The record changes nothing. -/
theorem runRecorded_snd (p : Program) (call : Calls) (runner : Runner Body Globals) (scope : Scope)
    (pc : Nat) (stmts : List Stmt) (w : World Body Globals) :
    (p.runRecorded call runner scope pc stmts w).2 =
      (p.runAsync call scope pc stmts).perform runner w := by
  induction stmts generalizing scope pc w with
  | nil => rfl
  | cons stmt rest ih =>
      refine Eq.trans ?_ (Action.perform_bind runner (p.execStmt call scope stmt) _ w).symm
      rw [runRecorded]
      rcases (p.execStmt call scope stmt).perform runner w with ⟨e | (_ | _ | _ | _), w'⟩
      · rfl
      · exact ih ..
      · exact ih ..
      · rfl
      · rfl

/-- A statement that completes does so in the way of its kind. -/
theorem completes_of_execStmt {scope : Scope} {stmt : Stmt} {completion : Completion}
    (h : (p.execStmt call scope stmt).perform runner w = (.ok completion, w')) :
    stmt.Completes completion := by
  have hbind : ∀ {α : Type} {a : Script α} {k : α → Script Completion} {v : World Body Globals},
      (a.bind k).perform runner v = (.ok completion, w') →
      ∃ x v', (k x).perform runner v' = (.ok completion, w') := by
    intro α a k v h
    rw [Action.perform_bind] at h
    rcases ha : a.perform runner v with ⟨e | x, v'⟩ <;> rw [ha] at h
    · cases h
    · exact ⟨x, v', h⟩
  cases stmt with
  | assign name value site =>
      obtain ⟨v, _, h⟩ := hbind h
      cases h
      exact ⟨v, rfl⟩
  | expr value site =>
      obtain ⟨v, _, h⟩ := hbind h
      cases h
      exact ⟨v, rfl⟩
  | ret value site =>
      simp only [execStmt] at h
      split at h
      · cases h
      · cases value with
        | none =>
            cases h
            exact ⟨_, rfl⟩
        | some e =>
            obtain ⟨v, _, h⟩ := hbind h
            cases h
            exact ⟨v, rfl⟩
  | assert test message site =>
      obtain ⟨v, _, h⟩ := hbind h
      split at h
      · cases h
        rfl
      · cases message with
        | none => cases h
        | some e =>
            obtain ⟨m, _, h⟩ := hbind h
            rcases assertion_eq m with he | he <;> rw [he] at h <;> cases h
  | await target value site =>
      obtain ⟨v, _, h⟩ := hbind h
      simp only at h
      split at h
      · cases h
      · split at h <;> cases h <;> exact ⟨_, rfl⟩

/-- Only an await asks to be suspended. -/
theorem isAwait_of_execStmt {scope : Scope} {stmt : Stmt} {target : Target}
    (h : (p.execStmt call scope stmt).perform runner w = (.ok (.await target), w')) :
    stmt.isAwait = true := by
  have hcompletes := completes_of_execStmt h
  cases stmt with
  | await target value site => rfl
  | assert test message site => cases hcompletes
  | _ =>
      obtain ⟨_, h⟩ := hcompletes
      cases h

/-- The statements of a stretch that were carried out, and where they left the coroutine if it is
suspended. -/
structure Stretch (stmts : List Stmt) (pc : Nat) (log : List Execution)
    (result : Except Abort (Frame × Step)) : Prop where
  /-- They follow one another from the first on. -/
  inOrder : log.map Execution.placed <+: stmts.zipIdx pc
  /-- The last one is an await, and the coroutine stands there with the bindings before it. -/
  standing {frame : Frame} {target : Target} (h : result = .ok (frame, .await target)) :
    ∃ e, log.getLast? = some e ∧ e.stmt.isAwait = true ∧ frame = ⟨e.index, e.locals⟩

theorem Stretch.cons {stmt : Stmt} {rest : List Stmt} {pc : Nat} {log : List Execution}
    {result : Except Abort (Frame × Step)} (h : Stretch rest (pc + 1) log result)
    (locals : Bindings Value) :
    Stretch (stmt :: rest) pc (⟨stmt, pc, locals⟩ :: log) result where
  inOrder := List.cons_prefix_cons.mpr ⟨rfl, h.inOrder⟩
  standing hawait := by
    obtain ⟨e, hlast, he⟩ := h.standing hawait
    exact ⟨e, by rw [List.getLast?_cons, hlast]; rfl, he⟩

theorem Stretch.single {stmt : Stmt} {rest : List Stmt} {pc : Nat} {locals : Bindings Value}
    {result : Except Abort (Frame × Step)}
    (h : ∀ {frame target}, result = .ok (frame, .await target) →
      stmt.isAwait = true ∧ frame = ⟨pc, locals⟩) :
    Stretch (stmt :: rest) pc [⟨stmt, pc, locals⟩] result where
  inOrder := List.cons_prefix_cons.mpr ⟨rfl, List.nil_prefix⟩
  standing hawait := ⟨_, rfl, h hawait⟩

/-- **A stretch of statements has a record.** -/
theorem exists_record {scope : Scope} {pc : Nat} {stmts : List Stmt}
    {result : Except Abort (Frame × Step)}
    (h : (p.runAsync call scope pc stmts).perform runner w = (result, w')) :
    ∃ log, p.runRecorded call runner scope pc stmts w = (log, result, w') ∧
      Stretch stmts pc log result := by
  have hrecord : (p.runRecorded call runner scope pc stmts w).2 = (result, w') :=
    (runRecorded_snd ..).trans h
  refine ⟨_, Prod.ext rfl hrecord, ?_⟩
  obtain rfl : (p.runRecorded call runner scope pc stmts w).2.1 = result :=
    congrArg Prod.fst hrecord
  clear h hrecord
  induction stmts generalizing scope pc w with
  | nil => exact ⟨List.nil_prefix, nofun⟩
  | cons stmt rest ih =>
      rcases hx : (p.execStmt call scope stmt).perform runner w with
        ⟨e | (_ | _ | v | target), w'⟩ <;> simp only [runRecorded, hx]
      · exact .single nofun
      · exact ih.cons _
      · exact ih.cons _
      · exact .single nofun
      · refine .single fun hawait => ?_
        cases hawait
        exact ⟨isAwait_of_execStmt hx, rfl⟩

end Program

end Coroutines
