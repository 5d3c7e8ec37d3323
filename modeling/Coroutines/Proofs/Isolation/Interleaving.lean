import Coroutines.Proofs.Isolation.Turning
import Coroutines.Proofs.Isolation.Scripts
import Coroutines.Proofs.Bindings

/-!
# The order of turns does not matter

A run of isolated bodies ends as the evaluation does that drives every awaited coroutine to its end at
once and the members of a group one after another: with the same exception, or with a value that
is the same up to the numbers of what was created on the way.
-/

namespace Coroutines

namespace World

variable {β σ : Type} {bodies : Bodies β σ} {s root : Nat} {constant : σ → Prop} {w w₁ : World β σ}
  {c : CoroutineRef}

/-- The names of a world, each standing for itself. -/
def known (w : World β σ) : Names := fun k i j => i = j ∧ i < w.extent k

theorem known_oneToOne (w : World β σ) : w.known.OneToOne := by
  rintro k i j i' j' ⟨rfl, -⟩ ⟨rfl, -⟩
  rfl

/-- Coroutines are admitted, coroutines and groups refer to what exists only, and a group without a task
that awaits it has no tasks. -/
structure Closed (w : World β σ) (iso : Isolation bodies s constant) : Prop where
  admitted : ∀ {i x}, w.handles.get? i = some x → iso.admits x.body
  handles : ∀ {i x}, w.handles.get? i = some x → x.Alike iso.alike w.known x
  groups : ∀ {i x}, w.groups.get? i = some x →
    List.Forall₂ (CoroutineRef.Alike w.known) x.handles x.handles
  untaken : ∀ {i x}, w.groups.get? i = some x → x.awaitedBy = none → x.tasks = []

/-- A run without a limit starts with a root task that is to start a coroutine that was fresh. -/
theorem start_spec (hlimit : ∀ x, w.schedulers.get? s = some x → x.maxSteps = none)
    (h : w.start s c = (.ok root, w₁)) :
    ∃ task y, w.handles.get? c.id = some y ∧ y.Fresh ∧
      w₁.handles = (w.modifyHandle c (·.ownedBy task)).handles ∧ w₁.groups = w.groups ∧
      (∀ k, w₁.extent k = w.extent k) ∧ w₁.shared = w.shared ∧ TaskPlan.Lined w₁ s [root] ∧
      ∃ id, w₁.tasks.get? root = some ⟨id, 0, none, .pending, [c], .start, none⟩ := by
  unfold start at h
  split at h
  · cases h
  · next hidle =>
      simp only at h
      split at h
      · cases h
      · next w₂ hclaim =>
          cases h
          obtain ⟨y, hy, hs, ho, rfl⟩ := claim_eq_none hclaim
          obtain ⟨id, hrow⟩ := w.get?_tasks_newTask s c 0 none
          obtain ⟨⟨x, hx⟩, -⟩ := idle_of_isActive (by simpa using hidle)
          refine ⟨_, y, hy, ⟨hs, ho⟩, rfl, rfl, fun k => ?_, rfl, ?_, id, (hrow _).trans (if_pos rfl)⟩
          · cases k
            · exact extent_modifyHandle (w.newTask s c 0 none).2 _ _ .coroutine
            · rfl
            · rfl
          · have hx' : (w.newTask s c 0 none).2.schedulers.get? s =
                some { x with nextTask := x.nextTask + 1 } :=
              (Table.get?_modify_self ..).trans (by rw [hx]; rfl)
            let ctx : RunContext := ⟨w.tasks.size, [w.tasks.size], 0⟩
            refine ⟨⟨x.nextTask + 1, some ctx, x.maxSteps⟩, ctx, (Table.get?_modify_self ..).trans ?_,
              hlimit x hx, rfl, rfl⟩
            rw [schedulers_modifyHandle, hx']
            rfl

/-- All coroutines of a run that starts are admitted. -/
theorem Closed.admitted_of_start {iso : Isolation bodies s constant} (hw : w.Closed iso) (hconstant : constant w.shared)
    (hlimit : ∀ x, w.schedulers.get? s = some x → x.maxSteps = none) (h : w.start s c = (.ok root, w₁)) :
    w₁.Admitted iso := by
  obtain ⟨task, y, hy, -, hhandles, -, -, hshared, hlined, -⟩ := start_spec hlimit h
  refine ⟨fun {i x} hx => ?_, hshared ▸ hconstant, hlined.isActive⟩
  rw [hhandles, get?_handles_modifyHandle] at hx
  split at hx
  · obtain ⟨z, hz, rfl⟩ := Option.map_eq_some_iff.mp hx
    exact show iso.admits z.body from hw.admitted hz
  · exact hw.admitted hx

/-- The plan of a new run is to drive its coroutine. -/
theorem follows_of_start (iso : Isolation bodies s constant) (hw : w.Closed iso) (hconstant : constant w.shared)
    (hlimit : ∀ x, w.schedulers.get? s = some x → x.maxSteps = none)
    (h : w.start s c = (.ok root, w₁)) {o : Outcome} {v : World β σ} {n : Nat}
    (hplan : Continues iso w₁ [c] .start o v n) :
    TaskPlan.Follows iso w.known w₁ root o [root] none [⟨root, w₁, v, [c], o, n, .ready .start⟩] := by
  obtain ⟨task, y, hy, hf, hhandles, hgroups, hextent, hshared, hlined, id, hrow⟩ :=
    start_spec hlimit h
  have hrowc : w₁.handles.get? c.id = some (y.ownedBy task) := by
    rw [hhandles, get?_modifyHandle_self hy]
  have hself : c.Alike w.known c := ⟨rfl, rfl, Table.lt_size_of_get? hy⟩
  have hm : TaskPlan.Mirrors iso w.known w₁ ⟨root, w₁, v, [c], o, n, .ready .start⟩ := by
    refine ⟨⟨nofun, hplan⟩, (hplan.precedes).1, fun _ => rfl, fun e => .inl (hextent _ ▸ e.2), by simp,
      fun {d} hd {j} hj => ?_, fun {i j} hc hij => ?_, fun {i j} ho hij => ?_, ⟨_, hrow, rfl, .cons hself .nil, .start⟩⟩
    · obtain rfl := List.mem_singleton.mp hd
      obtain rfl := hj.1
      have ha := hw.handles hy
      exact ⟨_, _, hrowc, hrowc, ⟨ha.name, ha.body, ha.frame, ha.status⟩, nofun, nofun⟩
    · obtain rfl := hij.1
      obtain ⟨x, hx, hfx, -⟩ := hc
      refine ⟨x, x, hx, hx, ?_, hfx⟩
      rw [hhandles, get?_handles_modifyHandle] at hx
      split at hx
      · obtain ⟨z, -, rfl⟩ := Option.map_eq_some_iff.mp hx
        cases hfx.2
      · exact hw.handles hx
    · obtain rfl := hij.1
      obtain ⟨x, hx, ha, -⟩ := ho
      have hx' : w.groups.get? i = some x := hgroups ▸ hx
      exact ⟨x, x, hx, hx, ⟨hw.groups hx', rfl⟩, ha, hw.untaken hx' ha⟩
  refine ⟨⟨w.known_oneToOne, fun e => hextent _ ▸ e.1 ▸ e.2, hshared ▸ hconstant, by simp, by simpa⟩,
    ⟨by simp, ?_⟩, ⟨hlined, by simp, ?_⟩, .inl ⟨_, List.mem_singleton_self _, rfl, rfl⟩⟩
  · intro p hp x ref hx hg
    obtain rfl := List.mem_singleton.mp hp
    cases hrow.symm.trans hx
    cases hg
  · intro t
    simp [TaskPlan.Ready, eq_comm]

/-- **The order in which tasks take turns never influences how a run ends.**  Where bodies are isolated
and the sequential evaluation, which takes no coroutine and no group twice, comes to an outcome,
every run with enough fuel ends with that outcome: with the same exception, or with the same value
up to the names of what was created since. -/
theorem run_eq_sequential (iso : Isolation bodies s constant) (hw : w.Closed iso)
    (hconstant : constant w.shared) (hlimit : ∀ x, w.schedulers.get? s = some x → x.maxSteps = none)
    {fuel : Nat} {o : Outcome} (h : w.sequential bodies fuel s c = some o) :
    ∃ n, ∀ m, n < m → ∃ ρ o', w.known ≤ ρ ∧ ρ.OneToOne ∧ o.Alike Eq ρ o' ∧
      (w.run bodies m s c).1 = o'.mapError .script := by
  unfold sequential at h
  split at h
  · next root w₁ hs =>
      obtain ⟨⟨o₁, v⟩, hdrive, e⟩ := Option.map_eq_some_iff.mp h
      cases e
      obtain ⟨n, hplan⟩ := Continues.of_drive (hw.admitted_of_start hconstant hlimit hs) hdrive .over
      have hfollows := follows_of_start iso hw hconstant hlimit hs hplan
      refine ⟨n, fun m hm => ?_⟩
      obtain ⟨m, rfl⟩ := Nat.exists_eq_succ_of_ne_zero (Nat.ne_zero_of_lt hm)
      obtain ⟨ρ, w', o', hdrain, hle, hone, ho, ha⟩ := hfollows.drain (m + 1) (by simp [TaskPlan.Calm])
        (by simpa [TaskPlan.total] using Nat.lt_succ_iff.mp hm) (by simpa [TaskPlan.total] using hm)
      refine ⟨ρ, o', hle, hone, ha, ?_⟩
      simp only [run, runWith, hs, hdrain, conclude, ho]
  · cases h

end World

/-! ### Scripts -/

namespace Program

theorem knows_ofUnit (unit : CompiledUnit) {ρ : Names} (h : ∀ i < unit.functions.length, ρ .identity i i) :
    (Program.ofUnit unit).Knows [] ρ where
  functions := by
    refine List.forall₂_same.mpr fun e he => ⟨rfl, ?_⟩
    refine Bindings.forall_ofList (P := fun e => e.2.Alike Eq ρ e.2) (fun e he => ?_) e he
    obtain ⟨⟨decl, i⟩, hi, rfl⟩ := List.mem_map.mp he
    exact .function decl (h i (List.snd_lt_of_mem_zipIdx hi))
  globals := .nil

/-- The world in which a program has made its first coroutine, of a function without parameters. -/
def staged (p : Program) (decl : FunctionDecl) : World Body Globals :=
  ((p.world none).spawn decl.name (.function decl) []).2

theorem staged_closed (unit : CompiledUnit) (decl : FunctionDecl) (depth : Nat) :
    ((Program.ofUnit unit).staged decl).Closed ((Program.ofUnit unit).isolation [] depth) where
  admitted _ := trivial
  handles {i x} h := by
    obtain rfl : i = 0 := Nat.lt_one_iff.mp (Table.lt_size_of_get? h)
    cases h
    exact ⟨rfl, ⟨knows_ofUnit unit fun i hi => ⟨rfl, hi⟩, .function decl⟩, ⟨rfl, .nil⟩, rfl⟩
  groups h := absurd (Table.lt_size_of_get? h) (Nat.not_lt_zero _)
  untaken h := absurd (Table.lt_size_of_get? h) (Nat.not_lt_zero _)

/-- A function that gathers a coroutine that prints and one that runs another. -/
def interleavedMain : FunctionDecl :=
  ⟨"main", true, [], [
    .await none (.call (.name "asyncio.gather" none) [
      .call (.name "tell" none) [.const (.number (.ofNat 1)) none] none ⟨.ofNat 11, .ofNat 25, .ofNat 32⟩,
      .call (.name "nest" none) [] none ⟨.ofNat 11, .ofNat 34, .ofNat 40⟩] none
      ⟨.ofNat 11, .ofNat 10, .ofNat 41⟩) ⟨.ofNat 11, .ofNat 4, .ofNat 41⟩]⟩

/-- Two members of a group take turns: one prints before and after it waits, the other waits and then asks for a run
of its own, which is refused.

```
async def pause():
    return None
async def tell(x):
    print(x)
    await pause()
    print(x)
async def nest():
    await pause()
    asyncio.run(pause())
async def main():
    await asyncio.gather(tell(1), nest())
```
-/
def interleaved : CompiledUnit where
  file := "interleaved.py"
  source := "async def pause():\n    return None\n" ++
    "async def tell(x):\n    print(x)\n    await pause()\n    print(x)\n" ++
    "async def nest():\n    await pause()\n    asyncio.run(pause())\n" ++
    "async def main():\n    await asyncio.gather(tell(1), nest())"
  inputs := none
  functions := [
    ⟨"pause", true, [], [.ret none none]⟩,
    ⟨"tell", true, ["x"], [
      .expr (.call (.name "print" none) [.name "x" none] none ⟨.ofNat 4, .ofNat 4, .ofNat 12⟩) none,
      .await none (.call (.name "pause" none) [] none ⟨.ofNat 5, .ofNat 10, .ofNat 17⟩)
        ⟨.ofNat 5, .ofNat 4, .ofNat 17⟩,
      .expr (.call (.name "print" none) [.name "x" none] none ⟨.ofNat 6, .ofNat 4, .ofNat 12⟩) none]⟩,
    ⟨"nest", true, [], [
      .await none (.call (.name "pause" none) [] none ⟨.ofNat 8, .ofNat 10, .ofNat 17⟩)
        ⟨.ofNat 8, .ofNat 4, .ofNat 17⟩,
      .expr (.call (.name "asyncio.run" none)
        [.call (.name "pause" none) [] none ⟨.ofNat 9, .ofNat 16, .ofNat 23⟩] none
        ⟨.ofNat 9, .ofNat 4, .ofNat 24⟩) none]⟩,
    interleavedMain]
  module := []

/-- The exception that the group fails with. -/
def interleavedRecord : Record where
  failure := .nestedRun
  frames := [
    ⟨"await", [], ⟨"interleaved.py", .ofNat 11, "main", "    await asyncio.gather(tell(1), nest())", .ofNat 4,
      .ofNat 41⟩⟩,
    ⟨"asyncio.run", ["coroutine"],
      ⟨"interleaved.py", .ofNat 9, "nest", "    asyncio.run(pause())", .ofNat 4, .ofNat 24⟩⟩]

/-- The exception that an evaluation ends with. -/
def escaping? : Option Outcome → Option Record
  | some (.error r) => some r
  | _ => none

theorem eq_of_escaping {o? : Option Outcome} {r : Record} (h : escaping? o? = some r) : o? = some (.error r) := by
  unfold escaping? at h
  split at h
  · cases h
    rfl
  · cases h

/-- The members end in turns as if the first ran to its end before the second. -/
theorem interleaved_order :
    let p := Program.ofUnit interleaved
    (p.staged interleavedMain).sequential (p.bodies 2) 4 0 ⟨0, "main"⟩ = some (.error interleavedRecord) ∧
      ∃ n, ∀ m, n < m → ((p.staged interleavedMain).run (p.bodies 2) m 0 ⟨0, "main"⟩).1 =
        .error (.script interleavedRecord) := by
  intro p
  have hsequential : (p.staged interleavedMain).sequential (p.bodies 2) 4 0 ⟨0, "main"⟩ =
      some (.error interleavedRecord) := eq_of_escaping (by decide +kernel)
  obtain ⟨n, h⟩ := World.run_eq_sequential (p.isolation [] 2) (staged_closed interleaved interleavedMain 2) rfl
    (fun x hx => by cases hx; rfl) hsequential
  refine ⟨hsequential, n, fun m hm => ?_⟩
  obtain ⟨ρ, o', -, -, ha, hrun⟩ := h m hm
  cases ha with
  | error hr => exact hr ▸ hrun

end Program

end Coroutines
