import Coroutines.Proofs.Checked.Statements

/-!
# Runs of a checked unit

A unit without defects raises no syntax error, misses no name but one that its scope binds elsewhere,
and places every frame of every exception inside its source: the law of the unit holds of the world in
which it starts, and everything that its coroutines do upholds it.
-/

namespace Coroutines

/-- An exception of the script was raised on the way to a world: a coroutine or a task ended with it, or
it is on its way into a coroutine.  Scripts catch no exceptions, so any other one escapes. -/
inductive World.Raised {β σ : Type} (w : World β σ) (r : Record) : Prop
  | coroutine {i : Nat} {x : Handle β} (hx : w.handles.get? i = some x)
      (ho : x.outcome = some (.error r))
  | task {t : Nat} {x : Task} (hx : w.tasks.get? t = some x) (ho : x.outcome = some (.error r))
  | delivered {t : Nat} {x : Task} (hx : w.tasks.get? t = some x) (hi : x.inbox = .throw r)

namespace World

variable {β σ : Type} {L : Law β σ} {w : World β σ}

/-- Exceptions that were raised are allowed. -/
theorem Lawful.raised (h : w.Lawful L) {r : Record} (hr : w.Raised r) : L.record r := by
  cases hr with
  | coroutine hx ho => exact h.recorded hx ho
  | task hx ho => exact h.ended hx ho
  | delivered hx hi =>
      have hin := h.handed hx
      rw [hi] at hin
      exact hin

end World

namespace CompiledUnit

variable {unit : CompiledUnit}

/-- The globals of a unit that starts bind its inputs to the values given for them. -/
theorem lawful_bindInputs {inputs globals : Bindings Value} (hplain : ∀ e ∈ inputs, e.2.IsPlain)
    (h : unit.bindInputs inputs = .ok globals) (output : String) :
    unit.law.shared ⟨globals, output⟩ := by
  simp only [bindInputs] at h
  split at h
  · next hfit =>
      cases h
      simp only [Bool.and_eq_true, List.isEmpty_iff, List.filter_eq_nil_iff] at hfit
      refine ⟨fun e he => (hplain e (Bindings.mem_of_mem_indexFirst he)).known, fun x hx => ?_⟩
      simpa using hfit.1 x hx
  · cases h

/-- A unit starts in a lawful world, if its globals are. -/
theorem lawful_world {g : Globals} (hg : unit.law.shared g) (limit : Option Number) :
    ({ (Program.ofUnit unit).world limit with shared := g } : World Body Globals).Lawful unit.law where
  bodies hx := by simp [Program.world, World.initial, Table.get?] at hx
  recorded hx := by simp [Program.world, World.initial, Table.get?] at hx
  handed hx := by simp [Program.world, World.initial, Table.get?] at hx
  ended hx := by simp [Program.world, World.initial, Table.get?] at hx
  shared := hg

/-- Runs of the coroutines of a checked unit end lawfully. -/
theorem Checked.ends_run (hu : unit.Checked) (depth fuel s : Nat) (c : CoroutineRef)
    {w : World Body Globals} (hw : w.Lawful unit.law) :
    World.Ends unit.law (Value.Known unit.Owns) (Record.Checked unit)
      ((World.runner ((Program.ofUnit unit).bodies depth) fuel).run s c w) :=
  hw.runWith law_closed (fun c {_ _} hw hin =>
    hw.resume law_closed (Program.upholds_bodies hu depth) fuel c hin) fuel s c

/-- A checked unit that starts with lawful globals ends lawfully. -/
theorem Checked.ends (hu : unit.Checked) {g : Globals} (hg : unit.law.shared g)
    (limit : Option Number) :
    World.Ends unit.law (Value.Known unit.Owns) (Record.Framed unit)
      ((Program.ofUnit unit).perform ((Program.ofUnit unit).runModule Program.bound)
        { (Program.ofUnit unit).world limit with shared := g }) := by
  exact (lawful_world hg limit).perform law_closed (fun s c {_} hw => hu.ends_run _ _ s c hw)
    (Program.upholds_runModule hu Program.bound)

/-- **Static checks are sound.**  Whatever a unit without defects does, for any plain inputs and under
any limit: no exception that is raised is a syntax error; a name is unbound only in a scope that binds
it elsewhere; every frame stands on a line of the source, inside it in those of its columns that are numbers;
and an exception that escapes has at least one frame. -/
theorem checked_run {inputs : Bindings Value} {limit : Option Number}
    {result : Except Abort UnitResult} {w : World Body Globals}
    (hvalid : unit.validate (some Builtin.names) = [])
    (hsize : Text.length unit.source ≤ Text.maxLength) (hplain : ∀ e ∈ inputs, e.2.IsPlain)
    (hrun : unit.run inputs limit = .ok (result, w)) :
    (∀ r, w.Raised r ∨ result = .ok (.raised r) → r.Checked unit) ∧
      ∀ r, result = .ok (.raised r) → r.frames ≠ [] := by
  have hu : unit.Checked := ⟨hvalid, hsize⟩
  simp only [run, runIn] at hrun
  split at hrun
  · cases hrun
  · next globals hglobals =>
      have hends := hu.ends (lawful_bindInputs hplain hglobals
        ((Program.ofUnit unit).world limit).shared.output) limit
      rcases hp : (Program.ofUnit unit).perform ((Program.ofUnit unit).runModule Program.bound) _
        with ⟨module, w'⟩
      rw [hp] at hends hrun
      -- the one exception that escapes is the one that the module ended with
      have hescape : ∀ r, result = .ok (.raised r) → module = .error (.script r) := by
        rintro r rfl
        rcases module with (r' | _ | _ | _ | _) | v <;> cases hrun
        rfl
      have hworld : w = w' := by
        rcases module with (r' | _ | _ | _ | _) | v <;> cases hrun <;> rfl
      subst hworld
      refine ⟨fun r hr => ?_, fun r hr => (hends.raised r (hescape r hr)).2⟩
      rcases hr with hr | hr
      · exact hends.lawful.raised hr
      · exact (hends.raised r (hescape r hr)).1

/-- A coroutine that prints a name before it binds it:

```
async def main():
    print(x)
    x = 1
asyncio.run(main())
```
-/
def early : CompiledUnit where
  file := "early.py"
  source := "async def main():\n    print(x)\n    x = 1\nasyncio.run(main())"
  inputs := none
  functions := [⟨"main", true, [], [
    .expr (.call (.name "print" none) [.name "x" none] none ⟨.ofNat 2, .ofNat 4, .ofNat 12⟩) none,
    .assign "x" (.const (.number (.ofNat 1)) none) none]⟩]
  module := [.expr (.call (.name "asyncio.run" none)
    [.call (.name "main" none) [] none ⟨.ofNat 4, .ofNat 12, .ofNat 18⟩] none
    ⟨.ofNat 4, .ofNat 0, .ofNat 19⟩) none]

/-- The exception of `early`: the name is not bound yet in the coroutine that reads it. -/
def earlyRecord : Record where
  failure := .unboundName "x"
  frames := [
    ⟨"asyncio.run", ["coroutine"],
      ⟨"early.py", .ofNat 4, "<module>", "asyncio.run(main())", .ofNat 0, .ofNat 19⟩⟩,
    ⟨"x", [], ⟨"early.py", .ofNat 2, "main", "    print(x)", .ofNat 4, .ofNat 12⟩⟩]

/-- The exception that escapes from a unit. -/
def escaped? : Except InputMismatch (Except Abort UnitResult × World Body Globals) → Option Record
  | .ok (.ok (.raised r), _) => some r
  | _ => none

theorem exists_of_escaped {r : Record} {ended : Except InputMismatch (Except Abort UnitResult × World Body Globals)}
    (h : escaped? ended = some r) : ∃ w, ended = .ok (.ok (.raised r), w) := by
  unfold escaped? at h
  split at h
  · next r' w => exact ⟨w, Option.some.inj h ▸ rfl⟩
  · cases h

theorem early_checked : ∃ w, early.run [] none = .ok (.ok (.raised earlyRecord), w) ∧
    (∀ r, w.Raised r → r.Checked early) ∧ earlyRecord.Checked early ∧ earlyRecord.frames ≠ [] := by
  have hlength : Text.length early.source = 60 := by decide +kernel
  have hescaped : escaped? (early.run [] none) = some earlyRecord := by decide +kernel
  obtain ⟨w, hrun⟩ := exists_of_escaped hescaped
  obtain ⟨hraised, hframes⟩ := checked_run (by decide +kernel)
    (by rw [hlength]; unfold Text.maxLength; omega) (fun e he => by cases he) hrun
  exact ⟨w, hrun, fun r hr => hraised r (.inl hr), hraised _ (.inr rfl), hframes _ rfl⟩

/-- A failing call whose columns are no numbers. -/
def blurred : CompiledUnit where
  file := "blurred.py"
  source := "abs()"
  inputs := none
  functions := []
  module := [.expr (.call (.name "abs" none) [] none ⟨.ofNat 1, .nan, .nan⟩) none]

/-- The exception of `blurred`, whose frame has the columns of the call. -/
def blurredRecord : Record where
  failure := .arity "abs" 1 (some 1) 0 none
  frames := [⟨"abs", [], ⟨"blurred.py", .ofNat 1, "<module>", "abs()", .nan, .nan⟩⟩]

/-- Columns that are no numbers lie nowhere, but no check refuses them. -/
theorem blurred_escapes : blurred.validate (some Builtin.names) = [] ∧
    (∃ w, blurred.run [] none = .ok (.ok (.raised blurredRecord), w)) ∧
    ∃ frame ∈ blurredRecord.frames, Number.zero.le frame.site.startColumn = false ∧
      frame.site.startColumn.le frame.site.endColumn = false := by
  refine ⟨by decide +kernel, exists_of_escaped (by decide +kernel), ?_⟩
  exact ⟨_, List.mem_singleton_self _, by decide +kernel, by decide +kernel⟩

end CompiledUnit

end Coroutines
