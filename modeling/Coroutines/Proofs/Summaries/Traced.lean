import Coroutines.Proofs.Commands.Traces
import Coroutines.Proofs.Deeds.Runs
import Coroutines.Proofs.Events.Numbers
import Coroutines.Proofs.Summaries.LastRun
import Coroutines.Proofs.Summaries.Written

/-!
# What a trace file tells of a run

The events of a unit are read back from its trace file one by one, and the summary of the file agrees with
what the unit did: how many groups it started, with how many members, how often a coroutine was awaited,
and how its last run ended (`Command.run_readBack`).
-/

namespace Coroutines

/-! ### Lines of events -/

namespace Event

variable (e : Event)

theorem name_eq_join : decide (e.name = "join_start") = e.isJoin := by
  cases e <;> rfl

theorem name_eq_spawn : decide (e.name = "task_spawn") = e.isSpawn := by
  cases e <;> rfl

theorem name_eq_suspension : decide (e.name = "task_suspend") = e.isSuspension := by
  cases e <;> rfl

end Event

namespace TraceLine

/-- The line of an event. -/
def ofStamped (x : Stamp × Event) : TraceLine := ofEvent x.1.time x.1.runId x.2

theorem wellKeyed_ofStamped (x : Stamp × Event) : (ofStamped x).WellKeyed := by
  have hkeys : ∀ e : Event, (e.data.map Prod.fst).Nodup ∧
      ∀ key ∈ e.data.map Prod.fst, Bindings.index? key = none := by
    intro e
    cases e <;> simp only [Event.data, List.map_cons, List.map_nil] <;> decide
  rintro data ⟨⟩
  exact ⟨(hkeys x.2).1, fun p hp => (hkeys x.2).2 p.1 (List.mem_map_of_mem hp)⟩

/-- An event of finite numbers is read as it was written. -/
theorem legible_ofStamped {x : Stamp × Event} (h : x.2.Finite) :
    (ofStamped x).legible = ofStamped x := by
  have hsame : ∀ p ∈ x.2.data, (p.1, p.2.legible) = id p := by
    rintro ⟨key, v⟩ hp
    cases v with
    | number n => simp only [Literal.legible, if_pos (h _ hp n rfl), id]
    | _ => rfl
  simp only [legible, ofStamped, ofEvent, Option.map_some, List.map_congr_left hsame, List.map_id]

end TraceLine

namespace Summary

variable {s : Summary} {l : TraceLine} {lines : List TraceLine}

/-- What each line of one kind raises by one counts the lines of that kind. -/
theorem count_foldl (read : Summary → Nat) {p : TraceLine → Bool}
    (hread : ∀ s l, read (s.count l) = read s + if p l then 1 else 0) (s : Summary)
    (lines : List TraceLine) : read (lines.foldl count s) = read s + lines.countP p := by
  induction lines generalizing s with
  | nil => rfl
  | cons l lines ih =>
    rw [List.foldl_cons, ih, hread, List.countP_cons]
    omega

theorem joins_count (s : Summary) (l : TraceLine) :
    (s.count l).joins = s.joins + if decide (l.event = "join_start") then 1 else 0 := by
  unfold count
  split <;> (try split) <;> simp_all

theorem tasksSpawned_count (s : Summary) (l : TraceLine) :
    (s.count l).tasksSpawned = s.tasksSpawned + if decide (l.event = "task_spawn") then 1 else 0 := by
  unfold count
  split <;> (try split) <;> simp_all

theorem suspensions_count (s : Summary) (l : TraceLine) :
    (s.count l).suspensions = s.suspensions + if decide (l.event = "task_suspend") then 1 else 0 := by
  unfold count
  split <;> (try split) <;> simp_all

theorem totals_foldl (s : Summary) (lines : List TraceLine) :
    (lines.foldl count s).totalEvents = s.totalEvents ∧
      (lines.foldl count s).skippedLines = s.skippedLines := by
  induction lines generalizing s with
  | nil => exact ⟨rfl, rfl⟩
  | cons l lines ih =>
    have hcount : (s.count l).totalEvents = s.totalEvents ∧
        (s.count l).skippedLines = s.skippedLines := by
      unfold count
      split <;> (try split) <;> exact ⟨rfl, rfl⟩
    exact ⟨(ih _).1.trans hcount.1, (ih _).2.trans hcount.2⟩

theorem steps_count (s : Summary) (l : TraceLine) : (s.count l).steps =
    if l.ends && (steps? l).isSome then steps? l else s.steps := by
  by_cases h : l.event = "run_end"
  · simp only [count, h, TraceLine.ends, decide_true, Bool.true_and]
    cases steps? l <;> rfl
  · unfold count TraceLine.ends
    split <;> (try split) <;> simp_all

/-- A summary agrees with a log. -/
structure AgreesWith {β : Type} (s : Summary) (log : List (Deed β)) : Prop where
  /-- The groups that were started. -/
  joins : s.joins = log.countP Deed.isJoin
  /-- Their members. -/
  tasksSpawned : s.tasksSpawned = (log.map Deed.members).sum
  /-- The coroutines that were awaited, refused ones included. -/
  suspensions : s.suspensions = log.countP Deed.isAwait
  /-- The end of the last run, with the number of its resumes. -/
  last : ∀ sch ok, .conclude sch ok ∈ lastRun log → s.outcome = (if ok then .ok else .err) ∧
    s.steps = some (.ofNat ((lastRun log).countP Deed.isTurn))

variable {β : Type} {log : List (Deed β)} {stamped : List (Stamp × Event)} {bound : Nat}

/-- The events of a log, read from a trace, are summarised as the log has it. -/
theorem agreesWith_of_tellsRuns (h : TellsRuns bound log (stamped.map Prod.snd))
    (hb : bound ≤ Number.maxExact)
    (hs : ofLines? (stamped.map TraceLine.ofStamped) 0 = some s) :
    s.AgreesWith log := by
  obtain ⟨first, -, rfl⟩ := Option.map_eq_some_iff.mp hs
  have hcount : ∀ (read : Summary → Nat) (name : String) (p : Event → Bool),
      (∀ s l, read (s.count l) = read s + if decide (l.event = name) then 1 else 0) →
      (∀ e : Event, decide (e.name = name) = p e) → ∀ s,
      read ((stamped.map TraceLine.ofStamped).foldl count s) =
        read s + (stamped.map Prod.snd).countP p := by
    intro read name p hread hp s
    rw [count_foldl read hread, List.countP_map, List.countP_map]
    exact congrArg (read s + stamped.countP ·) (funext fun x => hp x.2)
  refine ⟨?joins, ?spawned, ?suspensions, ?last⟩
  case joins =>
    rw [hcount joins _ _ joins_count Event.name_eq_join, h.tallies.joins]
    exact Nat.zero_add _
  case spawned =>
    rw [hcount tasksSpawned _ _ tasksSpawned_count Event.name_eq_spawn, h.tallies.spawned]
    exact Nat.zero_add _
  case suspensions =>
    rw [hcount suspensions _ _ suspensions_count Event.name_eq_suspension, h.tallies.suspensions]
    exact Nat.zero_add _
  case last =>
    intro sch ok hd
    obtain ⟨hle, before, hstamped⟩ := h.last sch ok hd
    have hexact : (lastRun log).countP Deed.isTurn ≤ Number.maxExact := Nat.le_trans hle hb
    generalize (lastRun log).countP Deed.isTurn = turns at hexact hstamped ⊢
    -- the last line that ends a run is the last line
    obtain ⟨before', last, rfl, -, hlast⟩ := List.map_eq_append_iff.mp hstamped
    obtain ⟨x, rfl, hx⟩ := List.map_eq_singleton_iff.mp hlast
    have hend : ∀ {p : TraceLine → Bool}, p (.ofEvent x.1.time x.1.runId (.runEnd ok turns)) = true →
        lastLine? p ((before' ++ [x]).map TraceLine.ofStamped) =
          some (.ofEvent x.1.time x.1.runId (.runEnd ok turns)) := by
      intro p hp
      rw [List.map_append, List.map_singleton, TraceLine.ofStamped, hx, lastLine?_append]
      simp [lastLine?, hp]
    rw [read_foldl outcome outcome_count, read_foldl steps steps_count, hend (p := TraceLine.stops) rfl,
      hend (p := fun l => l.ends && (steps? l).isSome) rfl]
    have hturns : some (Number.ofNat (min turns Number.maxExact)) = some (.ofNat turns) := by
      rw [Nat.min_eq_left hexact]
    cases ok <;> exact ⟨rfl, hturns⟩

/-- A trace file is read back: its lines are the events, in order, none of them is skipped, and its summary
agrees with the log.  A file without an event has no summary. -/
structure ReadBack (content : String) (stamped : List (Stamp × Event)) (log : List (Deed β)) :
    Prop where
  lines : readLines content = stamped.map fun x => some (TraceLine.ofStamped x)
  summary : ofContent? content = none ∧ stamped = [] ∨ ∃ s, ofContent? content = some s ∧
    s.totalEvents = stamped.length ∧ s.skippedLines = 0 ∧ s.AgreesWith log

/-- **The events of a log are read back**, whatever times they are written with. -/
theorem readBack_of_tellsRuns (h : TellsRuns bound log (stamped.map Prod.snd))
    (hb : bound ≤ Number.maxExact) (hfinite : ∀ x ∈ stamped, x.2.Finite) :
    ReadBack (String.join (stamped.map fun x => (TraceLine.ofStamped x).json.compact ++ "\n")) stamped
      log := by
  generalize hcontent : String.join (stamped.map fun x =>
    (TraceLine.ofStamped x).json.compact ++ "\n") = content
  have hlines : readLines content = (stamped.map TraceLine.ofStamped).map some := by
    have hkeys : ∀ l ∈ stamped.map TraceLine.ofStamped, l.WellKeyed := by
      intro l hl
      obtain ⟨x, -, rfl⟩ := List.mem_map.mp hl
      exact TraceLine.wellKeyed_ofStamped x
    have hread := readLines_join hkeys
    rw [List.map_map, List.map_map] at hread
    rw [← hcontent, List.map_map]
    exact hread.trans (List.map_congr_left fun x hx =>
      congrArg some (TraceLine.legible_ofStamped (hfinite x hx)))
  refine ⟨hlines.trans (List.map_map ..), ?_⟩
  have hsummary : ofContent? content = ofLines? (stamped.map TraceLine.ofStamped) 0 := by
    rw [ofContent?, hlines, List.filterMap_map, List.length_map, Function.id_comp, List.filterMap_some, Nat.sub_self]
  cases hs : ofLines? (stamped.map TraceLine.ofStamped) 0 with
  | none =>
    have hempty : stamped = [] := by
      cases stamped with
      | nil => rfl
      | cons x stamped => cases hs
    exact .inl ⟨hsummary.trans hs, hempty⟩
  | some s =>
    have hagrees := agreesWith_of_tellsRuns h hb hs
    obtain ⟨first, -, rfl⟩ := Option.map_eq_some_iff.mp hs
    obtain ⟨htotal, hskipped⟩ := totals_foldl (start first.runId (stamped.map TraceLine.ofStamped).length 0)
      (stamped.map TraceLine.ofStamped)
    exact .inr ⟨_, hsummary.trans hs, htotal.trans (List.length_map _), hskipped, hagrees⟩

end Summary

/-! ### Units -/

namespace CompiledUnit

/-- What is done while a unit is run. -/
def deeds (unit : CompiledUnit) (inputs : Bindings Value) (maxSteps : Option Number) : List (Deed Body) :=
  match unit.bindInputs inputs with
  | .error _ => []
  | .ok globals =>
    let p := Program.ofUnit unit
    let w : World Body Globals :=
      { p.world maxSteps with shared := ⟨globals, (p.world maxSteps).shared.output⟩ }
    w.deeds (p.bodies Program.bound) Program.bound (p.runModule Program.bound)

/-- A unit that comes to run leaves the world in which its module was carried out. -/
theorem exists_of_run {unit : CompiledUnit} {inputs : Bindings Value} {maxSteps : Option Number}
    {ended : Except Abort UnitResult} {w : World Body Globals} (h : unit.run inputs maxSteps = .ok (ended, w)) :
    ∃ globals, unit.bindInputs inputs = .ok globals ∧
      w = ((Program.ofUnit unit).perform ((Program.ofUnit unit).runModule Program.bound)
        { (Program.ofUnit unit).world maxSteps with shared := ⟨globals, ""⟩ }).2 := by
  simp only [run, runIn] at h
  cases hb : unit.bindInputs inputs with
  | error m =>
    rw [hb] at h
    cases h
  | ok globals =>
    simp only [hb] at h
    let p := Program.ofUnit unit
    let begun : World Body Globals :=
      { p.world maxSteps with shared := ⟨globals, (p.world maxSteps).shared.output⟩ }
    refine ⟨globals, rfl, show w = (p.perform (p.runModule Program.bound) begun).2 from ?_⟩
    rcases hp : p.perform (p.runModule Program.bound) begun with ⟨module, w'⟩
    rw [show (Program.ofUnit unit).perform _ _ = (module, w') from hp] at h
    rcases module with (r | _ | _ | _ | _) | v <;> cases h <;> rfl

/-- The events of a unit tell of the runs that it makes, one after the other. -/
theorem tellsRuns_run {unit : CompiledUnit} {inputs : Bindings Value} {maxSteps : Option Number}
    {ended : Except Abort UnitResult} {w : World Body Globals}
    (h : unit.run inputs maxSteps = .ok (ended, w)) :
    TellsRuns Program.bound (unit.deeds inputs maxSteps) (w.trace.toList.map Prod.snd) := by
  obtain ⟨globals, hb, hw⟩ := exists_of_run h
  have hsolitary : World.Solitary
      { (Program.ofUnit unit).world maxSteps with shared := (⟨globals, ""⟩ : Globals) } := by
    intro s hs
    rw [World.gauge, Table.get?_eq_none_iff.mpr (Nat.one_le_iff_ne_zero.mpr hs)]
    rfl
  obtain ⟨es, hes, htells⟩ := hsolitary.reported ((Program.ofUnit unit).bodies Program.bound) Program.bound
    ((Program.ofUnit unit).runModule Program.bound)
  have hstory : w.trace.toList.map Prod.snd = es := hw ▸ hes
  simp only [deeds, hb, hstory]
  exact htells

/-- Where the limit on the resumes is finite, so are all numbers in the events of a unit. -/
theorem finite_run {unit : CompiledUnit} {inputs : Bindings Value} {maxSteps : Option Number}
    {ended : Except Abort UnitResult} {w : World Body Globals}
    (h : unit.run inputs maxSteps = .ok (ended, w)) (hlimit : ∀ n ∈ maxSteps, n.isFinite = true) : w.Finite := by
  obtain ⟨globals, -, rfl⟩ := exists_of_run h
  refine World.Finite.perform ⟨by simp [Program.world, World.initial], ?_⟩ _ _ _
  intro s x hx
  have hrow : x ∈ #[(⟨1, none, maxSteps⟩ : Scheduler)] := Array.mem_of_getElem? hx
  simp only [List.mem_toArray, List.mem_singleton] at hrow
  exact hrow ▸ hlimit

end CompiledUnit

namespace Command

/-- A coroutine that awaits another one:

```
async def child():
    return 1
async def main():
    await child()
asyncio.run(main())
```
-/
def relaying : CompiledUnit where
  file := "relay.py"
  source := "async def child():\n    return 1\nasync def main():\n    await child()\nasyncio.run(main())"
  inputs := none
  functions := [
    ⟨"child", true, [], [.ret (some (.const (.number (.ofNat 1)) none)) none]⟩,
    ⟨"main", true, [], [.await none
      (.call (.name "child" none) [] none ⟨.ofNat 4, .ofNat 10, .ofNat 17⟩)
      ⟨.ofNat 4, .ofNat 4, .ofNat 17⟩]⟩]
  module := [.expr (.call (.name "asyncio.run" none)
    [.call (.name "main" none) [] none ⟨.ofNat 5, .ofNat 12, .ofNat 18⟩] none
    ⟨.ofNat 5, .ofNat 0, .ofNat 19⟩) none]

theorem wellFormed_relaying : relaying.WellFormed (·.isFinite = true) := by
  have hwhole : ∀ {least m : Nat}, least ≤ m → m ≤ 30 → (Number.ofNat m).AtLeast least := by
    intro least m hl hm
    exact ⟨m, Number.toInt?_ofNat (Nat.le_trans hm (by decide)), Int.ofNat_le.mpr hl⟩
  have hsite : ∀ {line column endColumn : Nat}, 1 ≤ line → line ≤ 30 → column ≤ 30 →
      endColumn ≤ 30 → Site.WellFormed ⟨.ofNat line, .ofNat column, .ofNat endColumn⟩ := fun h₁ h₂ h₃ h₄ =>
    ⟨hwhole h₁ h₂, hwhole (Nat.zero_le _) h₃, hwhole (Nat.zero_le _) h₄⟩
  have hname : ∀ {name : String}, name ≠ "" → Expr.WellFormed (·.isFinite = true) (.name name none) :=
    fun h => .name h nofun
  have hone : Expr.WellFormed (·.isFinite = true) (.const (.number (.ofNat 1)) none) :=
    .const (show (Number.ofNat 1).isFinite = true by decide +kernel)
  have hchild : Expr.WellFormed (·.isFinite = true)
      (.call (.name "child" none) [] none ⟨.ofNat 4, .ofNat 10, .ofNat 17⟩) :=
    .call (hname (by decide)) (by simp) (by simp) (by simp)
      (hsite (by decide) (by decide) (by decide) (by decide))
  refine ⟨by decide, by simp [relaying], ?_, ?_⟩
  · intro fn hfn
    simp only [relaying, List.mem_cons, List.not_mem_nil, or_false] at hfn
    rcases hfn with rfl | rfl
    · exact ⟨by decide, by simp, by simpa [Stmt.WellFormed] using hone⟩
    · exact ⟨by decide, by simp, by simpa [Stmt.WellFormed] using
        ⟨hchild, hsite (by decide) (by decide) (by decide) (by decide)⟩⟩
  · intro s hs
    obtain rfl := List.mem_singleton.mp hs
    refine ⟨.call (hname (by decide)) ?_ (by simp) (by simp)
      (hsite (by decide) (by decide) (by decide) (by decide)), by simp⟩
    simpa using Expr.WellFormed.call (hname (by decide)) (by simp) (by simp) (by simp)
      (hsite (by decide) (by decide) (by decide) (by decide))

/-- What the command that runs a unit file exchanges, where there is no configuration and the unit ends in a
world. -/
def relayingExchanges (text : String) (w : World Body Globals) : List Exchange :=
  [.read "relay.json" (.text text), .read (joinPath "" ".tasklet.json") .absent,
    .read (joinPath "" ".tasklet/config.json") .absent, .create "relay.jsonl" true,
    .print .scriptOutput w.shared.output, .runId "r"] ++
    (writing "relay.jsonl" "r" (w.trace.toList.map fun x => ("t", x.2)) ++ [.print .scriptError ""])

/-- A run ended with a value. -/
def concludes : Deed Body → Bool
  | .conclude _ ok => ok
  | _ => false

-- for any unit: for `relaying` itself the kernel would evaluate the text of its file
theorem runs_relayingExchanges {text : String} {unit : CompiledUnit} {o : RunOptions} {n : Number}
    {v : Value} {w : World Body Globals} (ho : o.trace = some "relay.jsonl") (hi : o.inputs = [])
    (hload : UnitFile.load text "relay.json" = .ok unit)
    (hvalid : unit.validate (some Builtin.names) = [])
    (hlimit : ∀ config, limit o config = .ok (some n))
    (hrun : unit.run [] (some n) = .ok (.ok (.finished v), w)) :
    (run ⟨"", ""⟩ "relay.json" o).Runs (relayingExchanges text w) (.ok 0) := by
  have hinputs : Inputs.parse [] = .ok [] := rfl
  refine .read ?_
  simp only [runContents, hload, hvalid]
  refine .read (.read ?_)
  simp only [Settings.fromContents, Settings.choose, pure, bind, Shell.bind, List.forM_eq_forM,
    List.forM_nil, hlimit, hi, hinputs, ho]
  refine .create ?_
  simp only [runUnit, hrun]
  exact .print (.runId (runs_writeEvents.mpr ⟨_, _, by rw [List.map_map]; rfl, rfl, .print (.done _)⟩))

/-- A unit that was run ended with a value and reported something. -/
def reports : Except InputMismatch (Except Abort UnitResult × World Body Globals) → Bool
  | .ok (.ok (.finished _), w) => w.trace.size ≠ 0
  | _ => false

end Command

end Coroutines
