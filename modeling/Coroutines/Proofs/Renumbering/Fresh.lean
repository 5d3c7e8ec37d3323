import Coroutines.Proofs.Activity
import Coroutines.Proofs.Renumbering.Tidy

/-!
# Runs on a used scheduler

A scheduler keeps nothing of its runs but how many tasks it has counted.  Whatever was done leaves a
scheduler that has no run in progress idle, with the limit it was made with (`World.Moment.gauge`), so a
run on it comes to the same as on a fresh scheduler, up to the numbers of tasks in the trace
(`World.Moment.run_as_fresh`).
-/

namespace Coroutines

namespace World

variable {β σ α γ : Type} {w w' : World β σ} {s : Nat}

/-! ### A fresh scheduler -/

/-- The world in which a scheduler is replaced by a new one with the same limit. -/
def renewed (w : World β σ) (s : Nat) : World β σ :=
  w.modifyScheduler s fun x => ⟨1, none, x.maxSteps⟩

/-- Apart from the number of its next task, a scheduler that is idle is as new. -/
theorem Tidy.renewed {x : Scheduler} {k : Nat} (h : w.Tidy) (hx : w.schedulers.get? s = some x)
    (hidle : x.context = none) (hk : x.nextTask = k + 1) : (w.renewed s).Renumbered
      ⟨s, k, w.tasks.size, 0, w.trace.toList, w.trace.toList⟩ (fun _ => 0) w := by
  have hrow : ∀ i, (w.renewed s).schedulers.get? i =
      if s = i then (w.schedulers.get? i).map fun x => ⟨1, none, x.maxSteps⟩
      else w.schedulers.get? i := Renumbered.get?_schedulers_modifyScheduler w s _
  have hself : (w.renewed s).schedulers.get? s = some ⟨1, none, x.maxSteps⟩ := by
    rw [hrow, if_pos rfl, hx]
    rfl
  have hcontext : ∀ {i ctx}, (w.renewed s).context? i = some ctx → w.context? i = some ctx := by
    intro i ctx hc
    rw [context?, hrow] at hc
    split at hc
    · cases hy : w.schedulers.get? i <;> rw [hy] at hc <;> cases hc
    · exact hc
  have htidy : (w.renewed s).Tidy := ⟨fun i ctx hc => h.ready (hcontext hc), h.members, h.grouped⟩
  refine htidy.renumbered rfl (.inr (by rw [context?, hself]; rfl)) ⟨_, hself⟩ rfl rfl (fun _ _ => rfl) rfl
    (fun i => ?_) rfl rfl rfl rfl
  rw [hrow]
  split
  · next e =>
      subst e
      obtain ⟨n, ctx, limit⟩ := x
      obtain rfl : ctx = none := hidle
      obtain rfl : n = k + 1 := hk
      simp [hx, Renumbering.shift, Nat.add_comm]
  · next e =>
      rw [Renumbering.shift, if_neg (Ne.symm e)]
      cases w.schedulers.get? i <;> rfl

/-- **A run on a used scheduler comes to the same as on a fresh one.**  Whatever was done before, with
whatever bodies and however it ended, a run on a scheduler that has no run in progress gives the same value
or exception as on a fresh scheduler with the same limit, it resumes the same coroutines with the same
inputs, and the same events happen, except that the tasks of the scheduler have numbers that are greater
by a constant.  The count of resumes of a run starts from zero. -/
theorem Moment.run_as_fresh {limits : List (Option Number)} {shared : σ} {bodies : Bodies β σ}
    {rest : Rest β σ γ α} {a : Action β σ α} {depth : Nat}
    (h : Moment limits shared bodies rest a depth w) (hs : s < limits.length)
    (hidle : s ∉ rest.schedulers) (bodies' : Bodies β σ) (fuel : Nat) (c : CoroutineRef) :
    (w.renewed s).schedulers.get? s = (initial limits shared : World β σ).schedulers.get? s ∧
    (w.run bodies' fuel s c).1 = ((w.renewed s).run bodies' fuel s c).1 ∧
    (journal bodies' fuel).run s c w = (journal bodies' fuel).run s c (w.renewed s) ∧
    (∃ k events, ((w.renewed s).run bodies' fuel s c).2.trace.toList = w.trace.toList ++ events ∧
      (w.run bodies' fuel s c).2.trace.toList = w.trace.toList ++
        events.map fun e => (e.1, e.2.numbered (if e.1 = s then k else 0))) ∧
    ∀ root w₁, w.start s c = (.ok root, w₁) → w₁.steps s = 0 := by
  obtain ⟨htidy, x, k, hx, hk⟩ := h.tidy hs
  have hnew : (initial limits shared : World β σ).schedulers.get? s = some ⟨1, none, limits[s]⟩ := by
    rw [get?_schedulers_initial, List.getElem?_eq_getElem hs]
    rfl
  have hgauge : w.gauge s = some (none, limits[s]) := (h.gauge hidle).trans (by rw [World.gauge, hnew]; rfl)
  obtain ⟨hnone, hlimit⟩ : x.context = none ∧ x.maxSteps = limits[s] := by
    rw [World.gauge, hx] at hgauge
    simpa using hgauge
  have hr := htidy.renewed hx hnone hk
  obtain ⟨he, -, num, -, hafter⟩ :=
    Renumbering.respects_run ⟨s, k, w.tasks.size, 0, w.trace.toList, w.trace.toList⟩ bodies' fuel s c hr
  refine ⟨?_, he, hr.journal_run bodies' fuel s c, ?_, fun root w₁ hs => ?_⟩
  · rw [World.renewed, Renumbered.get?_schedulers_modifyScheduler, if_pos rfl, hx, hnew, ← hlimit]
    rfl
  · obtain ⟨events, hfresh, hused⟩ := hafter.trace
    exact ⟨k, events, hfresh, hused⟩
  · have hstart := gauge_start w s s c
    rw [hs, if_pos ⟨rfl, rfl⟩, hgauge] at hstart
    exact steps_of_gauge hstart

end World

/-- The gathering coroutine has run once, and another one is there. -/
def gatheringAgain : World Bool Unit :=
  ((runGathering.perform (World.runner gathering 4) (World.initial [none] ())).2.spawn "main" true []).2

theorem moment_gatheringAgain : World.Moment [none] () gathering .done
    (.run 0 ⟨2, "main"⟩ Action.ofOutcome) 4 gatheringAgain :=
  ⟨runGathering, 4, _, .more .refl gathering 4 runGathering, .request .refl rfl⟩

/-- The second coroutine gathers as it would on a fresh scheduler. -/
theorem run_gatheringAgain : (gatheringAgain.run gathering 4 0 ⟨2, "main"⟩).1 = .ok (.list [.none]) ∧
    ((gatheringAgain.renewed 0).run gathering 4 0 ⟨2, "main"⟩).1 = .ok (.list [.none]) ∧
    ∃ k events, ((gatheringAgain.renewed 0).run gathering 4 0 ⟨2, "main"⟩).2.trace.toList =
        gatheringAgain.trace.toList ++ events ∧
      (gatheringAgain.run gathering 4 0 ⟨2, "main"⟩).2.trace.toList = gatheringAgain.trace.toList ++
        events.map fun e => (e.1, e.2.numbered (if e.1 = 0 then k else 0)) := by
  have h := moment_gatheringAgain.run_as_fresh (s := 0) (by decide) (by decide) gathering 4 ⟨2, "main"⟩
  exact ⟨rfl, h.2.1.symm.trans rfl, h.2.2.2.1⟩

end Coroutines
