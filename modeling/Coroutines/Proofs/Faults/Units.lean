import Coroutines.Proofs.Faults.Runs
import Coroutines.Proofs.Erasure.Transparency

/-!
# Units without errors of the host

Whatever a unit holds, checked or not, its run ends in one of the ways that the host knows
(`UnitRun.Regular`): the inputs are refused, the module ends with a value or with an exception, or a text,
a list or the run itself outgrows its bound.  The errors that the host keeps for broken programs never
come out.
-/

namespace Coroutines

namespace Program

/-- Where a suspended coroutine of a program stands: at an await of its function. -/
def RestsAt : Body → Frame → Prop
  | .function fn, frame => (awaitAt? fn frame.pc).isSome = true
  | .joined _, _ => True

/-- **The coroutines of a program are left at awaits and go on from them**, so they are safe. -/
theorem safe_bodies (p : Program) (depth : Nat) : (p.bodies depth).Safe RestsAt where
  leaves body frame input := by
    cases body with
    | function fn =>
        exact asks_resumeFunction (fun _ _ => trivial)
          (asks_callValue (fun _ _ => trivial) p depth) fn frame input fun _ => .inr fun _ => trivial
    | joined group => cases input <;> exact fun _ _ => trivial
  usual body frame input hat := by
    cases body with
    | function fn =>
        exact (asks_resumeFunction (fun _ h => h) (asks_callValue (fun _ h => h) p depth) fn frame
          input fun h => .inl (hat h)).mono (fun _ h => h) fun _ _ => trivial
    | joined group => cases input <;> trivial

theorem sound_world (p : Program) (limit : Option Number) (shared : Globals) (base : Nat → Start) :
    ({ p.world limit with shared := shared } : World Body Globals).Sound (fun _ => none) base none :=
  (World.Sound.initial [limit] shared base).of_tables rfl rfl rfl fun _ => rfl

theorem resting_world (p : Program) (limit : Option Number) (shared : Globals) :
    ({ p.world limit with shared := shared } : World Body Globals).Resting RestsAt := by
  intro i x hx
  simp [world, World.initial, Table.get?] at hx

/-- No error of the host comes out of the module of a program. -/
theorem usual_runModule (p : Program) (limit : Option Number) (shared : Globals) (depth fuel : Nat) :
    Usual ((p.runModule depth).perform (World.runner (p.bodies depth) fuel)
      { p.world limit with shared := shared }).1 :=
  (p.sound_world limit shared fun _ => ⟨0, ⟨0, ""⟩⟩).usual_perform (p.safe_bodies depth) fuel
    (asks_runStatements (fun _ h => h) (asks_callValue (fun _ h => h) p depth) _ _)
    (p.resting_world limit shared)

end Program

namespace CompiledUnit

/-- Carries out the module with a limit on its steps and with these bounds on nested calls and on
resumes. -/
def runLimited (unit : CompiledUnit) (limit : Option Number) (depth fuel : Nat)
    (globals : Bindings Value) : Except Abort Value × World Body Globals :=
  (unit.program.runModule depth).perform (World.runner (unit.program.bodies depth) fuel)
    { unit.program.world limit with shared := ⟨globals, ""⟩ }

/-- Runs a unit with a limit on its steps and with these bounds. -/
def runBounded (unit : CompiledUnit) (limit : Option Number) (depth fuel : Nat)
    (inputs : Bindings Value) : UnitRun :=
  (unit.bindInputs inputs).map fun globals =>
    (conclude (unit.runLimited limit depth fuel globals).1,
      (unit.runLimited limit depth fuel globals).2)

/-- A unit runs within the bounds of the host. -/
theorem run_eq_runBounded (unit : CompiledUnit) (inputs : Bindings Value) (limit : Option Number) :
    unit.run inputs limit = unit.runBounded limit Program.bound Program.bound inputs := by
  simp only [run, runIn, runBounded]
  cases unit.bindInputs inputs with
  | error m => rfl
  | ok globals =>
      simp only [Except.map]
      generalize hx : Program.perform _ _ _ = x
      rw [show unit.runLimited limit Program.bound Program.bound globals = x from hx]
      rcases x with ⟨(r | _ | _ | _ | _) | v, w⟩ <;> rfl

end CompiledUnit

namespace UnitRun

/-- The ways for a run to end: inputs that do not fit, exit code 0 with a value, exit code 1 with an
exception, a text that is too large, a text without end, and means of the host that the run exhausts
before it ends. -/
inductive Regular : UnitRun → Prop
  | refused (m : InputMismatch) : Regular (.error m)
  | exit (r : UnitResult) (hr : r.exitCode = 0 ∨ r.exitCode = 1) (w : World Body Globals) :
    Regular (.ok (.ok r, w))
  | tooLarge (w : World Body Globals) : Regular (.ok (.error .tooLarge, w))
  | endless (count : Number) (w : World Body Globals) : Regular (.ok (.error (.endless count), w))
  | unfinished (w : World Body Globals) : Regular (.ok (.error .outOfFuel, w))

/-- A module that ends without an error of the host makes a regular end of its unit. -/
theorem Regular.of_usual {result : Except Abort Value} (h : Usual result) (w : World Body Globals) :
    Regular (.ok (CompiledUnit.conclude result, w)) := by
  rcases result with (r | message | _ | n | _) | v
  · exact .exit _ (.inr rfl) w
  · cases h
  · exact .tooLarge w
  · exact .endless n w
  · exact .unfinished w
  · exact .exit _ (.inl rfl) w

end UnitRun

namespace CompiledUnit

/-- A run ends regularly, and refuses inputs before anything runs or not at all. -/
theorem regular_runBounded (unit : CompiledUnit) (limit : Option Number) (depth fuel : Nat)
    (inputs : Bindings Value) : (unit.runBounded limit depth fuel inputs).Regular ∧
      ∀ m, unit.runBounded limit depth fuel inputs = .error m ↔ unit.bindInputs inputs = .error m := by
  cases h : unit.bindInputs inputs with
  | error m =>
      refine ⟨?_, by simp [runBounded, h, Except.map]⟩
      simp only [runBounded, h]
      exact .refused m
  | ok globals =>
      refine ⟨?_, by simp [runBounded, h, Except.map]⟩
      simp only [runBounded, h]
      exact .of_usual (unit.program.usual_runModule limit ⟨globals, ""⟩ depth fuel) _

/-- **No run of any unit ends with an error that the host keeps for broken programs**, whatever its
inputs and its limit, within the bounds of the host and within any others; and inputs are refused before
anything runs or not at all. -/
theorem runs_regularly (unit : CompiledUnit) (inputs : Bindings Value) (limit : Option Number) :
    (UnitRun.Regular (unit.run inputs limit) ∧
      ∀ m, unit.run inputs limit = .error m ↔ unit.bindInputs inputs = .error m) ∧
    ∀ depth fuel, (unit.runBounded limit depth fuel inputs).Regular ∧
      ∀ m, unit.runBounded limit depth fuel inputs = .error m ↔ unit.bindInputs inputs = .error m := by
  refine ⟨?_, fun depth fuel => unit.regular_runBounded limit depth fuel inputs⟩
  rw [run_eq_runBounded]
  exact unit.regular_runBounded limit _ _ inputs

end CompiledUnit

end Coroutines
