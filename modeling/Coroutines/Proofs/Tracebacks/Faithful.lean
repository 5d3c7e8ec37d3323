import Coroutines.Proofs.Tracebacks.Calls

/-!
# Tracebacks are faithful

A coroutine puts the frame of its scope outside the frames of what failed inside it, and outside those of
the exception that an await handed to it.  So every resume accounts for the scopes that it adds, by
induction on how deep runs nest, and the exception that escapes from a checked unit has one frame for each
scope that was live.
-/

namespace Coroutines

variable {unit : CompiledUnit} {k : Calling}

namespace Program

variable {scope : Scope} {fn : FunctionDecl}

/-! ### Coroutines -/

/-- An async function that fails does not end with a step. -/
theorem runAsync_ne_raise (p : Program) (call : Calls) (runner : Runner Body Globals) {scope : Scope}
    {pc : Nat} {stmts : List Stmt} {w : World Body Globals} {frame : Frame} {r : Record} :
    ((p.runAsync call scope pc stmts).perform runner w).1 ≠ .ok (frame, .raise r) := by
  intro h
  induction stmts generalizing scope pc w with
  | nil => cases h
  | cons s rest ih =>
      change (Action.perform runner (Action.bind _ _) w).1 = _ at h
      rw [Action.perform_bind] at h
      rcases hx : (p.execStmt call scope s).perform runner w with ⟨e | c, w'⟩ <;> rw [hx] at h
      · cases h
      · cases c with
        | ret v => cases h
        | await target => cases h
        | next v => exact ih h
        | bind name v => exact ih h

/-- An exception of an async function has the frame of its scope, and those of the call inside it that
failed. -/
theorem tells_runAsync (hu : unit.Checked) (hk : k.Faithful unit) (hs : scope.Checked unit (some fn))
    (pc : Nat) {stmts : List Stmt}
    (h : ∀ s ∈ stmts, unit.context.stmt (some fn) (CompiledUnit.ownNames (some fn)) s = []) :
    Tells unit k.runner [scope.name] ((Program.ofUnit unit).runAsync k.call scope pc stmts)
      ((Program.ofUnit unit).stmtsScopes k scope stmts) := by
  induction stmts generalizing scope pc with
  | nil => exact .value _
  | cons s rest ih =>
      obtain ⟨hstmt, hrest⟩ := List.forall_mem_cons.mp h
      refine execStmt_bind hu hk hs hstmt fun c hc => ?_
      cases c with
      | ret v => exact .value _
      | await target => exact .value _
      | next v => exact ih (hs.after hc) (pc + 1) hrest
      | bind name v => exact ih (hs.after hc) (pc + 1) hrest

/-- The step of a resume raises an exception: its body failed with it, or handed it on. -/
def Raises (result : Except Abort (Frame × Step)) (r : Record) : Prop :=
  result = .error (.script r) ∨ ∃ frame, result = .ok (frame, .raise r)

theorem raises_of_leave {w : World Body Globals} {c : CoroutineRef} {frame : Frame}
    {result : Except Abort (Frame × Step)} {r : Record}
    (h : (w.leave c frame result).1 = .ok (.raise r)) : Raises result r := by
  rcases result with (r' | _ | _ | _ | _) | ⟨frame', step⟩ <;> cases h
  · exact .inl rfl
  · exact .inr ⟨frame', rfl⟩

/-- **An exception of a coroutine has the frame of its scope**, and those of what failed inside it or of
the exception that it was handed. -/
theorem scopes_resumeFunction (hu : unit.Checked) (hk : k.Faithful unit) {frame : Frame} {input : Input}
    (hbody : unit.law.body (.function fn) frame.locals) (hinput : unit.law.input input)
    {thrown : List String} (hthrown : ∀ r, input = .throw r → r.scopes = thrown)
    {w : World Body Globals} (hw : unit.Fit w) {r : Record}
    (hr : Raises (((Program.ofUnit unit).resumeFunction k.call fn frame input).perform k.runner w).1 r) :
    r.scopes = (Program.ofUnit unit).resumeScopes k thrown frame input (.function fn) w := by
  obtain ⟨hfn, hasync, hvalues, hparams⟩ := hbody
  have hs : Scope.Checked unit (some fn) ⟨fn.name, frame.locals, .async⟩ :=
    .function hfn (if_pos hasync).symm hvalues hparams
  -- the statements from any one on
  have hfrom : ∀ {scope : Scope} (pc : Nat), scope.Checked unit (some fn) →
      Raises (((Program.ofUnit unit).runAsync k.call scope pc (fn.body.drop pc)).perform k.runner w).1 r →
      r.scopes = scope.name :: (Program.ofUnit unit).stmtsScopes k scope (fn.body.drop pc) w := by
    intro scope pc hs hr
    rcases hr with hr | ⟨frame, hr⟩
    · exact (tells_runAsync hu hk hs pc fun s hmem =>
        hu.function hfn s (List.mem_of_mem_drop hmem)).escaped hw hr
    · exact (runAsync_ne_raise _ _ _ hr).elim
  unfold resumeFunction at hr
  simp only at hr
  split at hr
  · exact hfrom frame.pc hs hr
  · next r' target site hat =>
      rcases hr with hr | ⟨frame', hr⟩ <;> cases hr
      exact congrArg _ (hthrown r' rfl)
  · next v target site hat =>
      simp only [resumeScopes, hat]
      cases target with
      | none => exact hfrom (frame.pc + 1) hs hr
      | some x => exact hfrom (frame.pc + 1) (hs.after (c := .bind x v) hinput) hr
  · rcases hr with hr | ⟨frame', hr⟩ <;> cases hr

/-- A coroutine that hands on what a group comes to is no scope. -/
theorem scopes_resumeJoined {p : Program} {runner : Runner Body Globals} {group : GroupRef}
    {frame : Frame} {input : Input} {thrown : List String}
    (hthrown : ∀ r, input = .throw r → r.scopes = thrown) {w : World Body Globals} {r : Record}
    (hr : Raises ((resumeJoined group frame input).perform runner w).1 r) :
    r.scopes = p.resumeScopes k thrown frame input (.joined group) w := by
  cases input with
  | throw r' =>
      rcases hr with hr | ⟨frame', hr⟩ <;> cases hr
      exact hthrown r rfl
  | _ => rcases hr with hr | ⟨frame', hr⟩ <;> cases hr

end Program

/-! ### Runs -/

namespace CompiledUnit

/-- Scripts of a checked unit that run coroutines stay in worlds in which scripts can be at work. -/
theorem hosts_runner (hu : unit.Checked) (depth fuel : Nat) :
    unit.Hosts (World.runner ((Program.ofUnit unit).bodies depth) fuel) := by
  intro α x post err w w' a hw hup horderly hx
  have hends := hw.lawful.perform law_closed (fun s c {_} hw => hu.ends_run depth fuel s c hw) hup
  rw [hx] at hends
  obtain ⟨l, base, hsound⟩ := hw.sound
  have hakin : Akin (x.perform (World.runner ((Program.ofUnit unit).bodies depth) fuel) w)
      (x.masked.perform (World.runner ((Program.ofUnit unit).bodies depth).masked fuel) w) :=
    Action.perform_masked (World.run_masked _ fuel) (World.resume_masked _ fuel) x w
  have hkeeps := hsound.perform (World.runsSound
    (Program.orderly_bodies (Program.ofUnit unit) depth) fuel) horderly
  rw [hx] at hakin
  rw [hakin.eq_of_ok] at hkeeps
  rcases hkeeps with hkeeps | ⟨-, hsound'⟩
  · cases hkeeps
  · exact ⟨hends.value a rfl, hends.lawful, l, base, hsound'⟩

/-- A run raises exceptions with a frame for each scope that its history gives, if its resumes account for
what they add. -/
theorem runsTell (hu : unit.Checked) {depth fuel : Nat}
    {own : Episode Body Globals → List String → List String}
    (hown : World.Accounts unit.law (World.resume ((Program.ofUnit unit).bodies depth) fuel) own) :
    unit.RunsTell (World.runner ((Program.ofUnit unit).bodies depth) fuel) fun c w =>
      w.runScopes (World.resume ((Program.ofUnit unit).bodies depth) fuel) own fuel 0 c := by
  intro c w r hw hr
  obtain ⟨l, base, hsound⟩ := hw.sound
  exact hsound.scopes_runWith (Program.orderly_bodies _ depth) law_closed
    (Program.upholds_bodies hu depth) hown hw.lawful hr

/-- **Every resume of a checked unit accounts for the scopes that it adds**, by induction on how deep runs
may nest. -/
theorem accounts (hu : unit.Checked) (depth fuel : Nat) :
    World.Accounts unit.law (World.resume ((Program.ofUnit unit).bodies depth) fuel)
      ((Program.ofUnit unit).coroutineScopes depth fuel) := by
  induction fuel with
  | zero =>
      intro e r thrown htaken
      cases htaken.ended
  | succ fuel ih =>
      intro e r thrown htaken hraise hthrown
      have hk := Program.faithful_calling hu (hosts_runner hu depth fuel) (runsTell hu ih) depth
      obtain ⟨y, hy, hrefusal⟩ := htaken.accepted
      have hbody := htaken.lawful.bodies hy
      have hentered : e.entered.enter ((Program.ofUnit unit).bodies depth) e.coroutine e.input =
          (.ok (y.frame, ((Program.ofUnit unit).bodies depth).resume y.body y.frame e.input),
            e.entered.modifyHandle e.coroutine (·.entered
              (!e.input.isStart && ((Program.ofUnit unit).bodies depth).forgets y.body))) := by
        simp only [World.enter, hy, hrefusal]
      -- what the body raised in the world in which it ran
      have hended := congrArg Prod.fst htaken.ended
      simp only [World.resume_succ, World.resumeWith, hentered, hraise] at hended
      have hraises := Program.raises_of_leave hended
      have hfit : unit.Fit (e.entered.modifyHandle e.coroutine (·.entered
          (!e.input.isStart && ((Program.ofUnit unit).bodies depth).forgets y.body))) := by
        obtain ⟨l, base, hsound⟩ := htaken.sound
        exact ⟨htaken.lawful.mark _ fun _ => ⟨rfl, rfl, rfl⟩, l, base, hsound _⟩
      simp only [Program.coroutineScopes, hy, hentered]
      cases hb : y.body with
      | function decl =>
          rw [hb] at hbody hraises hfit
          exact Program.scopes_resumeFunction hu hk hbody htaken.input hthrown hfit hraises
      | joined group =>
          rw [hb] at hraises
          exact Program.scopes_resumeJoined hthrown hraises

/-- A unit starts in a world in which its scripts can be at work. -/
theorem fit_world {g : Globals} (hg : unit.law.shared g) (limit : Option Number) :
    unit.Fit { (Program.ofUnit unit).world limit with shared := g } where
  lawful := lawful_world hg limit
  sound := ⟨_, fun _ => ⟨0, ⟨0, ""⟩⟩, (World.Sound.initial [limit] g _).of_tables rfl rfl rfl fun _ => rfl⟩

/-- The exception that escapes from a unit is the one that its module ended with. -/
theorem module_of_run_raised {inputs : Bindings Value} {limit : Option Number} {r : Record}
    {w : World Body Globals} (h : unit.run inputs limit = .ok (.ok (.raised r), w)) :
    ∃ globals, unit.bindInputs inputs = .ok globals ∧
      ((Program.ofUnit unit).perform ((Program.ofUnit unit).runModule Program.bound)
        { (Program.ofUnit unit).world limit with
          shared := ⟨globals, ((Program.ofUnit unit).world limit).shared.output⟩ }).1 =
        .error (.script r) := by
  simp only [run, runIn] at h
  split at h
  · cases h
  · next globals hglobals =>
      refine ⟨globals, hglobals, ?_⟩
      rcases hp : (Program.ofUnit unit).perform ((Program.ofUnit unit).runModule Program.bound) _
        with ⟨(r' | _ | _ | _ | _) | v, w'⟩ <;> rw [hp] at h <;> cases h
      rfl

/-- **Tracebacks are faithful.**  The exception that escapes from a unit without defects has one frame for
each scope that was live for it, outermost first: those of the calls that failed one inside the other, and
those of the coroutines that handed the exception on, however it went through callbacks, awaits and groups
on its way. -/
theorem escaped_scopes {inputs : Bindings Value} {limit : Option Number} {r : Record}
    {w : World Body Globals} (hvalid : unit.validate (some Builtin.names) = [])
    (hsize : Text.length unit.source ≤ Text.maxLength) (hplain : ∀ e ∈ inputs, e.2.IsPlain)
    (hrun : unit.run inputs limit = .ok (.ok (.raised r), w)) :
    r.scopes = unit.liveScopes inputs limit := by
  have hu : unit.Checked := ⟨hvalid, hsize⟩
  obtain ⟨globals, hglobals, hmodule⟩ := module_of_run_raised hrun
  have hk := Program.faithful_calling hu (hosts_runner hu Program.bound Program.bound)
    (runsTell hu (accounts hu Program.bound Program.bound)) Program.bound
  have hfit := fit_world (lawful_bindInputs hplain hglobals
    ((Program.ofUnit unit).world limit).shared.output) limit
  unfold liveScopes
  rw [hglobals]
  exact (Program.tells_runStatements hu hk .none hu.statement).escaped hfit hmodule

/-- A failure on its way through a builtin, two groups and an await:

```
def inner(x):
    return x + "a"
async def child(xs):
    list(map(inner, xs))
async def main():
    await asyncio.gather(asyncio.gather(child([1])))
asyncio.run(main())
```
-/
def relayed : CompiledUnit where
  file := "relayed.py"
  source := "def inner(x):\n    return x + \"a\"\nasync def child(xs):\n    list(map(inner, xs))\n" ++
    "async def main():\n    await asyncio.gather(asyncio.gather(child([1])))\nasyncio.run(main())"
  inputs := none
  functions := [
    ⟨"inner", false, ["x"], [
      .ret (some (.binary .add (.name "x" none) (.const (.text "a") none)
        ⟨.ofNat 2, .ofNat 11, .ofNat 18⟩)) none]⟩,
    ⟨"child", true, ["xs"], [
      .expr (.call (.name "list" none) [.call (.name "map" none) [.name "inner" none, .name "xs" none] none
        ⟨.ofNat 4, .ofNat 9, .ofNat 23⟩] none ⟨.ofNat 4, .ofNat 4, .ofNat 24⟩) none]⟩,
    ⟨"main", true, [], [
      .await none (.call (.name "asyncio.gather" none) [.call (.name "asyncio.gather" none)
        [.call (.name "child" none) [.list [.const (.number (.ofNat 1)) none]] none
          ⟨.ofNat 6, .ofNat 40, .ofNat 50⟩] none ⟨.ofNat 6, .ofNat 25, .ofNat 51⟩] none
        ⟨.ofNat 6, .ofNat 10, .ofNat 52⟩) ⟨.ofNat 6, .ofNat 4, .ofNat 52⟩]⟩]
  module := [.expr (.call (.name "asyncio.run" none)
    [.call (.name "main" none) [] none ⟨.ofNat 7, .ofNat 12, .ofNat 18⟩] none
    ⟨.ofNat 7, .ofNat 0, .ofNat 19⟩) none]

theorem relayed_scopes : ∃ r w, relayed.run [] none = .ok (.ok (.raised r), w) ∧
    r.scopes = ["<module>", "main", "child", "inner"] := by
  have hescaped : (escaped? (relayed.run [] none)).isSome = true := by decide +kernel
  have hlength : Text.length relayed.source = 169 := by decide +kernel
  obtain ⟨r, w, hrun⟩ : ∃ r w, relayed.run [] none = .ok (.ok (.raised r), w) := by
    unfold escaped? at hescaped
    split at hescaped
    · next r w e => exact ⟨r, w, e⟩
    · cases hescaped
  have hlive : relayed.liveScopes [] none = ["<module>", "main", "child", "inner"] := by
    decide +kernel
  exact ⟨r, w, hrun, (escaped_scopes (by decide +kernel)
    (by rw [hlength]; unfold Text.maxLength; omega) (fun e he => by cases he) hrun).trans hlive⟩

end CompiledUnit

end Coroutines
