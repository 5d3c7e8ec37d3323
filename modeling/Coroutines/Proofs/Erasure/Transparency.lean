import Coroutines.Proofs.Erasure.Launches
import Coroutines.Script.Host

/-!
# Transparency of await

A unit whose coroutines only ever await fresh calls of its async functions does what the same unit does
without coroutines: the one terminates if and only if the other does, with the same exit code, value,
output and failure, and with the same scopes in the traceback.
-/

namespace Coroutines

/-- Nothing tells two ends of units apart, but where in its scope each frame of an exception lies. -/
structure UnitResult.Same (r r' : UnitResult) : Prop where
  exitCode : r.exitCode = r'.exitCode
  value : ∀ v, r = .finished v → ∃ v', r' = .finished v' ∧ v.repr = v'.repr
  failure : ∀ e, r = .raised e → ∃ e', r' = .raised e' ∧ e.Same e'

namespace UnitResult.Same

variable {r r' r'' : UnitResult}

theorem finished (v : Value) : Same (.finished v) (.finished v) :=
  ⟨rfl, fun _ e => ⟨v, rfl, by cases e; rfl⟩, fun _ e => by cases e⟩

theorem raised {e e' : Record} (h : e.Same e') : Same (.raised e) (.raised e') :=
  ⟨rfl, fun _ e => (by cases e), fun _ he => ⟨e', rfl, by cases he; exact h⟩⟩

theorem symm (h : r.Same r') : r'.Same r := by
  cases r with
  | finished v =>
      obtain ⟨v', rfl, hv⟩ := h.value v rfl
      exact ⟨rfl, fun _ e => ⟨v, rfl, by cases e; exact hv.symm⟩, fun _ e => (by cases e)⟩
  | raised e =>
      obtain ⟨e', rfl, he⟩ := h.failure e rfl
      exact raised he.symm

theorem trans (h : r.Same r') (h' : r'.Same r'') : r.Same r'' := by
  refine ⟨h.exitCode.trans h'.exitCode, fun v e => ?_, fun e he => ?_⟩
  · obtain ⟨v', e', hv⟩ := h.value v e
    obtain ⟨v'', e'', hv'⟩ := h'.value v' e'
    exact ⟨v'', e'', hv.trans hv'⟩
  · obtain ⟨e', he', hs⟩ := h.failure e he
    obtain ⟨e'', he'', hs'⟩ := h'.failure e' he'
    exact ⟨e'', he'', hs.trans hs'⟩

end UnitResult.Same

/-- What the run of a unit comes to. -/
abbrev UnitRun := Except InputMismatch (Except Abort UnitResult × World Body Globals)

namespace UnitRun

/-- The run is not broken off at the bounds of the host. -/
def Terminates (x : UnitRun) : Prop := ∀ w, x ≠ .ok (.error .outOfFuel, w)

/-- Two runs of which the same is seen: inputs are refused for the same reason, or both end with the same
result or error of the host and have printed the same. -/
inductive Same : UnitRun → UnitRun → Prop
  | refused (m : InputMismatch) : Same (.error m) (.error m)
  | ended {r r' : UnitResult} {w w' : World Body Globals} (hr : r.Same r')
    (ho : w.shared.output = w'.shared.output) : Same (.ok (.ok r, w)) (.ok (.ok r', w'))
  | broken (e : Abort) {w w' : World Body Globals} (ho : w.shared.output = w'.shared.output) :
    Same (.ok (.error e, w)) (.ok (.error e, w'))

variable {x x' x'' : UnitRun}

theorem Same.symm (h : Same x x') : Same x' x := by
  cases h with
  | refused m => exact .refused m
  | ended hr ho => exact .ended hr.symm ho.symm
  | broken e ho => exact .broken e ho.symm

theorem Same.trans (h : Same x x') (h' : Same x' x'') : Same x x'' := by
  cases h with
  | refused m => exact h'
  | ended hr ho =>
      cases h' with
      | ended hr' ho' => exact .ended (hr.trans hr') (ho.trans ho')
  | broken e ho =>
      cases h' with
      | broken _ ho' => exact .broken e (ho.trans ho')

theorem Same.terminates (h : Same x x') (hx : Terminates x) : Terminates x' := by
  cases h with
  | refused m => exact hx
  | ended hr ho => exact fun w e => by cases e
  | broken e ho => exact fun w e => by cases e; exact hx _ rfl

end UnitRun

namespace CompiledUnit

/-- How a unit ends when its module does. -/
def conclude : Except Abort Value → Except Abort UnitResult
  | .ok v => .ok (.finished v)
  | .error (.script r) => .ok (.raised r)
  | .error e => .error e

/-- The world in which the module of a unit starts. -/
def started (unit : CompiledUnit) (globals : Bindings Value) : World Body Globals :=
  { unit.program.world none with shared := ⟨globals, ""⟩ }

/-- Carries out the module, with these bounds on nested calls and on resumes. -/
def runGlobals (unit : CompiledUnit) (depth fuel : Nat) (globals : Bindings Value) :
    Except Abort Value × World Body Globals :=
  (unit.program.runModule depth).perform (World.runner (unit.program.bodies depth) fuel)
    (unit.started globals)

/-- Runs a unit without a limit on its steps, with these bounds on nested calls and on resumes. -/
def runWithin (unit : CompiledUnit) (depth fuel : Nat) (inputs : Bindings Value) : UnitRun :=
  (unit.bindInputs inputs).map fun globals =>
    (conclude (unit.runGlobals depth fuel globals).1, (unit.runGlobals depth fuel globals).2)

/-- A unit that runs without a limit runs within the bounds of the host. -/
theorem run_eq_runWithin (unit : CompiledUnit) (inputs : Bindings Value) :
    unit.run inputs none = unit.runWithin Program.bound Program.bound inputs := by
  simp only [run, runIn, runWithin]
  cases unit.bindInputs inputs with
  | error m => rfl
  | ok globals =>
      simp only [Except.map]
      generalize hx : Program.perform _ _ _ = x
      rw [show unit.runGlobals Program.bound Program.bound globals = x from hx]
      rcases x with ⟨(r | _ | _ | _ | _) | v, w⟩ <;> rfl

variable {unit : CompiledUnit} {inputs globals : Bindings Value} {depth fuel d : Nat}

/-- Ends of a module that are the same make ends of its unit that are. -/
theorem same_conclude {x x' : Except Abort Value} {w w' : World Body Globals} (h : SameEnd x x')
    (ho : w.shared.output = w'.shared.output) :
    UnitRun.Same (.ok (conclude x, w)) (.ok (conclude x', w')) := by
  cases h with
  | ok v => exact .ended (.finished v) ho
  | @error e _ h =>
      cases h with
      | script h => exact .ended (.raised h) ho
      | refl =>
          cases e with
          | script r => exact .ended (.raised (.refl r)) ho
          | _ => exact .broken _ ho

/-- The inputs of a unit bind no reserved name. -/
theorem tame_bindInputs (ht : unit.Transparent) (hplain : ∀ e ∈ inputs, e.2.IsPlain)
    (h : unit.bindInputs inputs = .ok globals) : unit.Tame globals := by
  simp only [bindInputs] at h
  split at h
  · next hfit =>
      cases h
      simp only [Bool.and_eq_true, List.isEmpty_iff, List.filter_eq_nil_iff] at hfit
      refine ⟨fun e he => (hplain e (Bindings.mem_of_mem_indexFirst he)).known, fun n hn => ?_⟩
      cases hget : inputs.indexFirst.get? n with
      | none => rfl
      | some v =>
          have hdeclared := hfit.2 n (Bindings.mem_names_of_get? hget)
          have hbound : n ∈ unit.inputs.getD [] := by simpa using hdeclared
          exact (ht.not_reserved (List.mem_append_left _ (List.mem_append_right _ hbound)) hn).elim
  · cases h

theorem idle_started (unit : CompiledUnit) (globals : Bindings Value) :
    (unit.started globals).Idle := ⟨_, rfl⟩

theorem store_started_erase (unit : CompiledUnit) (globals : Bindings Value) :
    (unit.erase.started globals).store = (unit.started globals).store := by
  simp only [World.store, started, Program.world, Program.ofUnit, erase, List.length_map]

theorem runWithin_ok (h : unit.bindInputs inputs = .ok globals) :
    unit.runWithin depth fuel inputs = .ok (conclude (unit.runGlobals depth fuel globals).1,
      (unit.runGlobals depth fuel globals).2) := by
  rw [runWithin, h]
  rfl

theorem runWithin_error {m : InputMismatch} (h : unit.bindInputs inputs = .error m) :
    unit.runWithin depth fuel inputs = .error m := by
  rw [runWithin, h]
  rfl

/-- What is left of the module starts where the module does. -/
theorem runGlobals_erase {r : Except Abort Value} {st : Globals × Nat}
    (h : (unit.erased.runModule d).exec (unit.started globals).store = some (r, st)) :
    unit.erase.runGlobals d fuel globals = (r, (unit.erase.started globals).restore st) := by
  rw [← store_started_erase] at h
  exact Action.perform_of_exec h

/-- Whatever a unit comes to, the erased one comes to. -/
theorem same_runWithin (ht : unit.Transparent) (hplain : ∀ e ∈ inputs, e.2.IsPlain)
    (h : (unit.runWithin depth fuel inputs).Terminates) (hd : depth + fuel ≤ d) (fuel' : Nat) :
    UnitRun.Same (unit.runWithin depth fuel inputs) (unit.erase.runWithin d fuel' inputs) := by
  cases hb : unit.bindInputs inputs with
  | error m =>
      rw [runWithin_error hb, runWithin_error (show unit.erase.bindInputs inputs = .error m from hb)]
      exact .refused m
  | ok globals =>
      rw [runWithin_ok hb] at h ⊢
      rw [runWithin_ok (show unit.erase.bindInputs inputs = .ok globals from hb)]
      rcases Program.followed_runModule ht hd (unit.started globals) (unit.idle_started globals)
          (tame_bindInputs ht hplain hb) with hout | ⟨r, st, he, -, -, ha⟩
      · have hend : (unit.runGlobals depth fuel globals).1 = .error .outOfFuel := hout
        rw [hend] at h
        exact (h _ rfl).elim
      · rw [runGlobals_erase he]
        exact same_conclude ha.same (congrArg (fun st : Globals × Nat => st.1.output) ha.store)

/-- Whatever the erased unit comes to, the unit comes to in some number of steps. -/
theorem exists_same_runWithin (ht : unit.Transparent) (hplain : ∀ e ∈ inputs, e.2.IsPlain)
    (h : (unit.erase.runWithin d fuel inputs).Terminates) :
    ∃ n, UnitRun.Same (unit.runWithin d n inputs) (unit.erase.runWithin d fuel inputs) := by
  cases hb : unit.bindInputs inputs with
  | error m =>
      rw [runWithin_error (show unit.erase.bindInputs inputs = .error m from hb)]
      exact ⟨0, by rw [runWithin_error hb]; exact .refused m⟩
  | ok globals =>
      rw [runWithin_ok (show unit.erase.bindInputs inputs = .ok globals from hb)] at h ⊢
      obtain ⟨r, st, he, -, -, hruns⟩ := Program.performed_runModule ht (Nat.le_refl d)
        (unit.started globals).store (tame_bindInputs ht hplain hb)
      rw [runGlobals_erase he] at h ⊢
      obtain ⟨n, hruns⟩ := hruns fun e => h _ (by rw [e]; rfl)
      have ha := hruns n (Nat.le_refl n) (unit.started globals) (unit.idle_started globals) rfl
      refine ⟨n, ?_⟩
      rw [runWithin_ok hb]
      exact same_conclude ha.same (congrArg (fun st : Globals × Nat => st.1.output) ha.store)

/-- Runs of a unit and of the erased one, each within bounds of its own, end in the same way: both meet
where the erased unit may call as deep as the unit needs for either end. -/
theorem same_of_terminates (ht : unit.Transparent) (hplain : ∀ e ∈ inputs, e.2.IsPlain)
    {depth' fuel' : Nat} (h : (unit.runWithin depth fuel inputs).Terminates)
    (h' : (unit.erase.runWithin depth' fuel' inputs).Terminates) :
    UnitRun.Same (unit.runWithin depth fuel inputs) (unit.erase.runWithin depth' fuel' inputs) := by
  obtain ⟨n, hsame⟩ := exists_same_runWithin ht hplain h'
  have hd : depth + fuel ≤ max (depth + fuel) (depth' + n) := Nat.le_max_left ..
  have hd' : depth' + n ≤ max (depth + fuel) (depth' + n) := Nat.le_max_right ..
  have hmeet := same_runWithin ht hplain h hd 0
  have hmeet' := same_runWithin ht hplain (hsame.symm.terminates h') hd' 0
  exact (hmeet.trans hmeet'.symm).trans hsame

/-- **Await is transparent.**  A unit whose coroutines only ever await fresh calls of its async functions
terminates, within some bounds, if and only if the erased unit does.  Whenever both do, the exit code, the
text of the value, the output, and the failure with the scopes of its frames are the same; the runs
within the bounds that the host sets are among these. -/
theorem erase_transparent (ht : unit.Transparent) (hplain : ∀ e ∈ inputs, e.2.IsPlain) :
    ((∃ depth fuel, (unit.runWithin depth fuel inputs).Terminates) ↔
      ∃ depth fuel, (unit.erase.runWithin depth fuel inputs).Terminates) ∧
    (∀ depth fuel depth' fuel', (unit.runWithin depth fuel inputs).Terminates →
      (unit.erase.runWithin depth' fuel' inputs).Terminates →
      UnitRun.Same (unit.runWithin depth fuel inputs) (unit.erase.runWithin depth' fuel' inputs)) ∧
    (UnitRun.Terminates (unit.run inputs none) → UnitRun.Terminates (unit.erase.run inputs none) →
      UnitRun.Same (unit.run inputs none) (unit.erase.run inputs none)) := by
  refine ⟨⟨?_, ?_⟩, fun _ _ _ _ => same_of_terminates ht hplain, ?_⟩
  · rintro ⟨depth, fuel, h⟩
    exact ⟨depth + fuel, 0, (same_runWithin ht hplain h (Nat.le_refl _) 0).terminates h⟩
  · rintro ⟨depth, fuel, h⟩
    obtain ⟨n, hsame⟩ := exists_same_runWithin ht hplain h
    exact ⟨depth, n, hsame.symm.terminates h⟩
  · rw [run_eq_runWithin, run_eq_runWithin]
    exact same_of_terminates ht hplain

/-- A coroutine that fails below an await:

```
async def leaf(n):
    print(n)
    return n + 'a'
async def main():
    x = await leaf(n=1)
    return x
asyncio.run(main())
```
-/
def nested : CompiledUnit where
  file := "nested.py"
  source := "async def leaf(n):\n    print(n)\n    return n + 'a'\nasync def main():\n" ++
    "    x = await leaf(n=1)\n    return x\nasyncio.run(main())"
  inputs := none
  functions := [
    ⟨"leaf", true, ["n"], [
      .expr (.call (.name "print" none) [.name "n" none] none ⟨.ofNat 2, .ofNat 4, .ofNat 12⟩) none,
      .ret (some (.binary .add (.name "n" none) (.const (.text "a") none)
        ⟨.ofNat 3, .ofNat 11, .ofNat 18⟩)) none]⟩,
    ⟨"main", true, [], [
      .await (some "x") (.call (.name "leaf" none) [] (some [("n", .const (.number (.ofNat 1)) none)])
        ⟨.ofNat 5, .ofNat 14, .ofNat 23⟩) ⟨.ofNat 5, .ofNat 8, .ofNat 23⟩,
      .ret (some (.name "x" (some ⟨.ofNat 6, .ofNat 11, .ofNat 12⟩))) none]⟩]
  module := [.expr (.call (.name "asyncio.run" none)
    [.call (.name "main" none) [] none ⟨.ofNat 7, .ofNat 12, .ofNat 18⟩] none
    ⟨.ofNat 7, .ofNat 0, .ofNat 19⟩) none]

/-- The scopes that an exception passed on its way out, and what was printed before. -/
def escapes? : UnitRun → Option (List String × String)
  | .ok (.ok (.raised r), w) => some (r.frames.map fun f => f.site.name, w.shared.output)
  | _ => none

theorem terminates_of_escapes? {x : UnitRun} {y : List String × String} (h : escapes? x = some y) :
    x.Terminates := by
  rintro w rfl
  cases h

theorem nested_transparent :
    escapes? (nested.runWithin 3 9 []) = some (["<module>", "main", "leaf"], "1\n") ∧
    escapes? (nested.erase.runWithin 3 0 []) = some (["<module>", "main", "leaf"], "1\n") ∧
    UnitRun.Same (nested.runWithin 3 9 []) (nested.erase.runWithin 3 0 []) := by
  have ht : nested.Transparent :=
    ⟨by decide +kernel, by decide +kernel, by decide +kernel, by decide +kernel, by decide +kernel⟩
  have h : escapes? (nested.runWithin 3 9 []) = some (["<module>", "main", "leaf"], "1\n") := by
    decide +kernel
  have h' : escapes? (nested.erase.runWithin 3 0 []) = some (["<module>", "main", "leaf"], "1\n") := by
    decide +kernel
  exact ⟨h, h', (erase_transparent ht (fun e he => by cases he)).2.1 3 9 3 0 (terminates_of_escapes? h)
    (terminates_of_escapes? h')⟩

end CompiledUnit

end Coroutines
