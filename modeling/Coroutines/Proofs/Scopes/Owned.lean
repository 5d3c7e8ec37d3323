import Coroutines.Proofs.Scopes.Histories

/-!
# Scopes belong to their own code

Whatever runs in a unit, each scope is written by its own statements only, one name at a time
(`CompiledUnit.scopes_owned`): the globals by the statements of the module, the scope of a call by the
statements of its function, and that of a coroutine by its own resumes.
-/

namespace Coroutines

namespace Program

variable {p : Program} {depth : Nat} {w w' : World Body Globals}

/-- The scopes of coroutines on the way from one world to another, with the resumes that were over by
then. -/
structure ScopesApart (p : Program) (depth : Nat) (w : World Body Globals)
    (log : List (Resumption Body Globals)) (w' : World Body Globals) : Prop where
  biography : w.Biography (p.bodies depth) log w'
  /-- A coroutine stands in the frame that its own last resume left, or still in its first. -/
  stands : ∀ ⦃i y⦄, w'.handles.get? i = some y → ∃ x, w.Origin i x ∧ y.body = x.body ∧
    y.frame = x.frame.after (log.filter (·.coroutine.id = i))
  /-- The resumes of a coroutine that was made on the way are the history of one scope. -/
  histories : ∀ ⦃i y fn⦄, w.handles.get? i = none → w'.handles.get? i = some y → y.body = .function fn →
    ∃ locals life, y.frame = Frame.after ⟨0, locals⟩ (log.filter (·.coroutine.id = i)) ∧
      life.map Prod.fst = log.filter (·.coroutine.id = i) ∧ Lived p depth fn locals life ∧
      ScopeHistory fn.body 0 locals (executions life)

theorem scopesApart_of_biography {log : List (Resumption Body Globals)}
    (h : w.Biography (p.bodies depth) log w') : p.ScopesApart depth w log w' where
  biography := h
  stands i y hy := by
    obtain ⟨x, z, horigin, hlife, rfl | ⟨_, rfl⟩⟩ := h.lives hy
    · exact ⟨x, horigin, hlife.body, hlife.frame⟩
    · exact ⟨x, horigin, hlife.body, hlife.frame⟩
  histories i y fn hnone hy hbody := by
    obtain ⟨x, z, horigin, hlife, hz⟩ := h.lives hy
    have hsame : y.body = z.body ∧ y.frame = z.frame := by
      rcases hz with rfl | ⟨_, rfl⟩ <;> exact ⟨rfl, rfl⟩
    cases horigin with
    | old hx => cases hnone.symm.trans hx
    | new _ name body locals =>
        obtain rfl : body = .function fn := hlife.body.symm.trans (hsame.1.symm.trans hbody)
        obtain ⟨life, hlog, hlived, -⟩ := hlife.lived
        exact ⟨locals, life, hsame.2.trans hlife.frame, hlog, hlived, hlived.history⟩

/-- A run of the module has a record, which is the history of the globals. -/
theorem exists_moduleHistory {ended : Except Abort Value}
    (h : p.perform (p.runModule bound) w = (ended, w')) : ∃ log,
      p.recordModule (p.callValue bound) (World.runner (p.bodies bound) bound) 0 .none p.unit.module w =
        (log, ended, w') ∧
      ModuleHistory p.unit.module 0 w.shared.bindings log w'.shared.bindings := by
  have hsnd : (p.recordModule (p.callValue bound) (World.runner (p.bodies bound) bound) 0 .none
      p.unit.module w).2 = (ended, w') := (recordModule_snd ..).trans h
  have hhistory := p.recordModule_history bound bound bound 0 .none p.unit.module w
  rw [hsnd] at hhistory
  exact ⟨_, Prod.ext rfl hsnd, hhistory⟩

/-- Code leaves the global bindings as they were, at each of its moments and when it ends. -/
def KeepsGlobals {γ : Type} (p : Program) (depth fuel : Nat) (a : Script γ) (w : World Body Globals) :
    Prop :=
  (a.perform (World.runner (p.bodies depth) fuel) w).2.shared.bindings = w.shared.bindings ∧
    ∀ (α : Type) (rest : Rest Body Globals γ α) (a' : Script α) (level : Nat) (v : World Body Globals),
      World.Visits (p.bodies depth) a fuel w rest a' level v → v.shared.bindings = w.shared.bindings

theorem SparesGlobals.keeps {γ : Type} {a : Script γ} (ha : SparesGlobals a) (p : Program)
    (depth fuel : Nat) (w : World Body Globals) : p.KeepsGlobals depth fuel a w :=
  ⟨ha.perform p depth fuel w, fun _ _ _ _ _ h => ha.visits h⟩

end Program

namespace CompiledUnit

/-- The module's part of a run: it begins with the inputs as globals, and the world that it leaves is that
of the unit. -/
theorem perform_of_runIn {unit : CompiledUnit} {inputs : Bindings Value} {w w' : World Body Globals}
    {result : Except Abort UnitResult} (h : unit.runIn inputs w = .ok (result, w')) :
    ∃ globals ended, unit.bindInputs inputs = .ok globals ∧
      (Program.ofUnit unit).perform ((Program.ofUnit unit).runModule Program.bound)
        { w with shared := ⟨globals, w.shared.output⟩ } = (ended, w') := by
  simp only [runIn] at h
  split at h
  · cases h
  · next globals hglobals =>
      rcases hp : (Program.ofUnit unit).perform ((Program.ofUnit unit).runModule Program.bound)
        { w with shared := ⟨globals, w.shared.output⟩ } with ⟨ended, v⟩
      rw [hp] at h
      refine ⟨globals, ended, hglobals, hp.trans (congrArg (Prod.mk ended) ?_)⟩
      rcases ended with (_ | _ | _ | _ | _) | _ <;> cases h <;> rfl

/-- **Only module statements change globals, and each scope is written by its own statements.**  In every
run of a unit,

* the globals begin as the inputs, each statement of the module binds its one name among them, if any, and
  nothing else changes them;
* at every moment, and at the end, each coroutine stands in the frame that its own last resume left, and
  the resumes of each that the run has made are one history of its scope, in which only its own
  assignments and awaits bind, one name each; it begins with the arguments of a call;
* evaluating an expression or a statement in any scope leaves the globals as they were, and so does all
  that runs on the way, at each of its moments and in whatever order tasks take turns;
* the statements of a call of a plain function are one history of its scope, which begins with the
  arguments, whatever is called from there and whatever world it is in. -/
theorem scopes_owned {unit : CompiledUnit} {inputs : Bindings Value} {w w' : World Body Globals}
    {result : Except Abort UnitResult} (h : unit.runIn inputs w = .ok (result, w')) :
    let p := Program.ofUnit unit
    let bodies := p.bodies Program.bound
    ∃ globals, unit.bindInputs inputs = .ok globals ∧
      let begun : World Body Globals := { w with shared := ⟨globals, w.shared.output⟩ }
      (∃ log ended, p.perform (p.runModule Program.bound) begun = (ended, w') ∧
        p.recordModule (p.callValue Program.bound) (World.runner bodies Program.bound) 0 .none unit.module
          begun = (log, ended, w') ∧
        ModuleHistory unit.module 0 globals log w'.shared.bindings) ∧
      (∃ log, p.ScopesApart Program.bound begun log w') ∧
      (∀ (α : Type) (rest : Rest Body Globals Value α) (a : Script α) (level : Nat)
        (v : World Body Globals),
        World.Visits bodies (p.runModule Program.bound) Program.bound begun rest a level v →
          (∃ log, p.ScopesApart Program.bound begun log v) ∧
          ∀ name body locals next, a = .spawn name body locals next → Program.BeginsBound body locals) ∧
      (∀ (scope : Scope) (depth fuel : Nat) (v : World Body Globals),
        (∀ enclosing e, p.KeepsGlobals Program.bound fuel
          (p.evalExpr (p.callValue depth) scope enclosing e) v) ∧
        ∀ stmt, p.KeepsGlobals Program.bound fuel (p.execStmt (p.callValue depth) scope stmt) v) ∧
      ∀ (fn : FunctionDecl) (args : List Value) (kwargs locals : Bindings Value),
        fn.isAsync = false → fn.bindParams args kwargs = .ok locals →
        ∀ (call : Calls) (runner : Runner Body Globals) (v : World Body Globals), ∃ log ended v',
          p.runRecorded call runner ⟨fn.name, locals, .sync⟩ 0 fn.body v = (log, ended, v') ∧
          (p.callFunction call fn args kwargs).perform runner v =
            World.andThen (fun r w => (Program.returned fn.name r.2).perform runner w) (ended, v') ∧
          ScopeHistory fn.body 0 locals log := by
  intro p bodies
  obtain ⟨globals, ended, hglobals, hrun⟩ := perform_of_runIn h
  refine ⟨globals, hglobals, ?_⟩
  intro begun
  refine ⟨?module, ?scopes, ?moments, ?globals, ?calls⟩
  case module =>
    obtain ⟨log, hrecord, hhistory⟩ := Program.exists_moduleHistory hrun
    exact ⟨log, ended, hrun, hrecord, hhistory⟩
  case scopes =>
    obtain ⟨log, hlog⟩ := World.Biography.perform bodies Program.bound (p.runModule Program.bound) begun
    have hworld : ((p.runModule Program.bound).perform (World.runner bodies Program.bound) begun).2 = w' :=
      congrArg Prod.snd hrun
    exact ⟨log, Program.scopesApart_of_biography (hworld ▸ hlog)⟩
  case moments =>
    intro α rest a level v hv
    obtain ⟨log, hlog⟩ := hv.biography
    refine ⟨⟨log, Program.scopesApart_of_biography hlog⟩, ?_⟩
    rintro name body locals next rfl
    exact Program.beginsBound_of_visits
      (Program.heeds_runModule Program.allowed_beginsBound (fun _ _ _ => trivial) p Program.bound) hv
  case globals =>
    intro scope depth fuel v
    exact ⟨fun enclosing e => (Program.sparesGlobals_evalExpr p depth scope enclosing e).keeps p _ fuel v,
      fun stmt => (Program.sparesGlobals_execStmt p depth scope stmt).keeps p _ fuel v⟩
  case calls =>
    intro fn args kwargs locals hsync hbind call runner v
    obtain ⟨log, ended, v', hrecord, hbody, hhistory⟩ :=
      p.runBody_history call runner ⟨fn.name, locals, .sync⟩ fn.body v
    refine ⟨log, ended, v', hrecord, ?_, hhistory⟩
    simp only [Program.callFunction, hbind, hsync]
    exact hbody

/-- A unit in which every scope binds the name `k`:

```
def add(n):
    k = n + k
    return k
async def child(x):
    k = x + x
    return k
async def main(x):
    k = await child(x)
    return map(add, [k, x])
k = 5
z = asyncio.run(main(k))
```
-/
def shadowing : CompiledUnit where
  file := "shadowing.py"
  source := "\n".intercalate ["def add(n):", "    k = n + k", "    return k", "async def child(x):",
    "    k = x + x", "    return k", "async def main(x):", "    k = await child(x)",
    "    return map(add, [k, x])", "k = 5", "z = asyncio.run(main(k))"]
  inputs := none
  functions := [
    ⟨"add", false, ["n"], [
      .assign "k" (.binary .add (.name "n" none) (.name "k" none) ⟨.ofNat 2, .ofNat 8, .ofNat 13⟩) none,
      .ret (some (.name "k" none)) none]⟩,
    ⟨"child", true, ["x"], [
      .assign "k" (.binary .add (.name "x" none) (.name "x" none) ⟨.ofNat 5, .ofNat 8, .ofNat 13⟩) none,
      .ret (some (.name "k" none)) none]⟩,
    ⟨"main", true, ["x"], [
      .await (some "k") (.call (.name "child" none) [.name "x" none] none
        ⟨.ofNat 8, .ofNat 14, .ofNat 22⟩) ⟨.ofNat 8, .ofNat 8, .ofNat 22⟩,
      .ret (some (.call (.name "map" none) [.name "add" none, .list [.name "k" none, .name "x" none]] none
        ⟨.ofNat 9, .ofNat 11, .ofNat 27⟩)) none]⟩]
  module := [
    .assign "k" (.const (.number (.ofNat 5)) none) none,
    .assign "z" (.call (.name "asyncio.run" none) [.call (.name "main" none) [.name "k" none] none
      ⟨.ofNat 11, .ofNat 16, .ofNat 23⟩] none ⟨.ofNat 11, .ofNat 4, .ofNat 24⟩) none]

/-- The globals that a unit ends with, as they are displayed. -/
def shown : Except InputMismatch (Except Abort UnitResult × World Body Globals) → List (String × String)
  | .ok (_, w) => w.shared.bindings.map fun b => (b.1, b.2.display)
  | .error _ => []

theorem shadowing_scopes : ∃ result w', shadowing.run [] none = .ok (result, w') ∧
    w'.shared.bindings.map (fun b => (b.1, b.2.display)) = [("k", "5"), ("z", "[15, 10]")] ∧
    ∃ globals log, shadowing.bindInputs [] = .ok globals ∧
      ModuleHistory shadowing.module 0 globals log w'.shared.bindings := by
  have hshown : shown (shadowing.run [] none) = [("k", "5"), ("z", "[15, 10]")] := by decide +kernel
  rcases hrun : shadowing.run [] none with m | ⟨result, w'⟩
  · rw [hrun] at hshown
    cases hshown
  · rw [hrun] at hshown
    obtain ⟨globals, hglobals, ⟨log, _, -, -, hhistory⟩, -⟩ := scopes_owned hrun
    exact ⟨result, w', rfl, hshown, globals, log, hglobals, hhistory⟩

end CompiledUnit

end Coroutines
