import Coroutines.Proofs.Events.Crew
import Coroutines.Proofs.Summaries.Traced

/-!
# Failed tasks in a summary

A summary counts as failed the tasks whose ends are told as failures (`Summary.failedTasks_ofLines?`).  A
member whose coroutine was refused has failed as well, but its end is never told.  So the summary of the
events of a run counts as failed the tasks of the run that have failed, but for such members
(`World.failures_of_run`).
-/

namespace Coroutines

namespace Summary

theorem failedTasks_count (s : Summary) (l : TraceLine) : (s.count l).failedTasks = s.failedTasks +
    if decide (l.event = "task_end") && decide (l.datum? "outcome" = some (.text "err")) then 1 else 0 := by
  unfold count
  split <;> (try split) <;> simp_all

theorem isFailure_ofStamped (x : Stamp × Event) :
    (decide ((TraceLine.ofStamped x).event = "task_end") &&
      decide ((TraceLine.ofStamped x).datum? "outcome" = some (.text "err"))) = x.2.isFailure := by
  obtain ⟨stamp, e⟩ := x
  cases e with
  | taskEnd task index ok => cases ok <;> rfl
  | _ => rfl

/-- A summary of events counts the failures that they tell of. -/
theorem failedTasks_ofLines? {stamped : List (Stamp × Event)} (h : stamped ≠ []) (skipped : Nat) :
    ∃ s, ofLines? (stamped.map TraceLine.ofStamped) skipped = some s ∧
      s.failedTasks = (stamped.map Prod.snd).countP Event.isFailure := by
  obtain ⟨x, rest, rfl⟩ := List.exists_cons_of_ne_nil h
  refine ⟨_, rfl, ?_⟩
  rw [count_foldl failedTasks failedTasks_count, List.countP_map, List.countP_map]
  refine (Nat.zero_add _).trans (List.countP_congr fun y _ => ?_)
  rw [Function.comp_apply, isFailure_ofStamped, Function.comp_apply]

end Summary

namespace World

variable {β σ : Type} {w w' : World β σ} {bodies : Bodies β σ} {depth s root : Nat} {c : CoroutineRef}

/-- **The failed tasks that the summary of a run counts**, together with the members that were refused, are
the tasks of the run that have failed.  The tasks are those of the root and of the members of the groups
that were joined; the end of each one that was claimed is told once, with its outcome, and the end of one
that was refused is not told.  Errors of the host in some bodies make no difference. -/
theorem failures_of_run (hb : bodies.masked.Orderly) {α : Type} {action : Action β σ α}
    (ha : action.masked.Orderly)
    {limits : List (Option Number)} {shared : σ} {fuel m : Nat}
    (ho : Opens bodies action fuel (World.initial limits shared) s c depth root w)
    (hd : drain (resume bodies depth) s m w = (.ok (), w')) :
    ∃ log earlier o es crew, Turns (resume bodies depth) s w log w' ∧
      w.events s = earlier ++ [.runStart c.name] ∧
      w'.taskOutcome? root = some o ∧ (w'.conclude s root c).1 = o.mapError .script ∧
      (w'.conclude s root c).2.events s = earlier ++ es ∧
      Crew (occasions (resume bodies depth) s w earlier) root w' es crew ∧
      (∀ t, w'.TaskOf root t → (w'.taskOutcome? t).isSome = true) ∧
      ∀ (stamped : List (Stamp × Event)) (skipped : Nat), stamped.map Prod.snd = es → ∃ summary,
        Summary.ofLines? (stamped.map TraceLine.ofStamped) skipped = some summary ∧
          summary.failedTasks + crew.countP (·.2.isSome) =
            crew.countP fun m => (w'.taskOutcome? m.1).any (!·.isOk) := by
  obtain ⟨-, -, -, l, base, -, hp, -⟩ := ho.masked.mustered hb ha .refl
  obtain ⟨log, hturns, hout⟩ := hp.outcome_of_drain hb (drain_masked.mpr hd)
  obtain ⟨earlier, new, crew, l', base', hstart, hp', hm⟩ := ho.masked.mustered hb ha hturns
  obtain ⟨o, ho'⟩ := Option.isSome_iff_exists.mp hout
  obtain ⟨steps, hconclude⟩ : ∃ steps, w'.conclude s root c =
      (o.mapError .script, w'.emit s (.runEnd o.isOk steps)) := by
    simp only [World.conclude, ho']
    exact ⟨_, rfl⟩
  have hmasked := hm.crew
  rw [occasions_masked] at hmasked
  have hcrew := hmasked.append [.runEnd o.isOk steps] (by simp)
  have hall : ∀ t, w'.TaskOf root t → (w'.taskOutcome? t).isSome = true := fun t ht =>
    (hp'.outcome_iff (hp'.ended_of_outcome hout ht)).mpr rfl
  refine ⟨log, earlier, o, _, crew, turns_masked.mp hturns, hstart, ho', by rw [hconclude], ?_, hcrew, hall, ?_⟩
  · rw [hconclude, (Reports.emit w' s (.runEnd o.isOk steps)).self.1, hm.events, List.append_assoc]
  · intro stamped skipped he
    have hne : stamped ≠ [] := by
      rintro rfl
      cases he
    obtain ⟨summary, hs, hcount⟩ := Summary.failedTasks_ofLines? hne skipped
    exact ⟨summary, hs, by rw [hcount, he, hcrew.failures hall]⟩

/-- What the run of the coroutine tells that gathers its member twice: the second member was refused,
and its end is not told. -/
def gatheringTwiceEvents : List Event :=
  [.runStart "main", .joinStart 1 2, .taskSpawn 2 0 "child", .taskSpawn 3 1 "child", .taskEnd 2 0 true,
    .joinEnd 1 false, .taskEnd 1 0 false, .runEnd false 3]

/-- The root and the member that was refused have failed, and the summary counts one failed task. -/
theorem gathering_twice_failures :
    drain (resume gatheringTwice 1) 0 4 gatheringStarts = (.ok (), gatheringTwiceEnds) ∧
    (gatheringTwiceEnds.conclude 0 0 ⟨0, "main"⟩).2.events 0 = gatheringTwiceEvents ∧
    ∃ crew, Crew (occasions (resume gatheringTwice 1) 0 gatheringStarts []) 0 gatheringTwiceEnds
        gatheringTwiceEvents crew ∧
      (2, some .coroutineBusy) ∈ crew ∧
      1 < crew.countP (fun m => (gatheringTwiceEnds.taskOutcome? m.1).any (!·.isOk)) ∧
      ∃ summary, Summary.ofLines? ((gatheringTwiceEvents.map (⟨"", ""⟩, ·)).map TraceLine.ofStamped) 0 =
        some summary ∧ summary.failedTasks = 1 := by
  have hd : drain (resume gatheringTwice 1) 0 4 gatheringStarts = (.ok (), gatheringTwiceEnds) := rfl
  have hevents : (gatheringTwiceEnds.conclude 0 0 ⟨0, "main"⟩).2.events 0 = gatheringTwiceEvents := by
    decide +kernel
  have hopens : Opens gatheringTwice runGathering 1 (World.initial [none] ()) 0 ⟨0, "main"⟩ 1 0 gatheringStarts :=
    .direct (.more .refl rfl) rfl
  obtain ⟨log, earlier, o, es, crew, -, hstart, -, -, hes, hcrew, hall, hsummary⟩ :=
    failures_of_run gatheringTwice_orderly.masked runGathering_orderly.masked hopens hd
  have hearlier : earlier = [] := by
    have : gatheringStarts.events 0 = [.runStart "main"] := by decide +kernel
    simpa [this] using hstart
  subst hearlier
  obtain rfl : gatheringTwiceEvents = es := hevents.symm.trans hes
  have hrefused : (2, some .coroutineBusy) ∈ crew := by
    have htask : gatheringTwiceEnds.TaskOf 0 2 := .member .root (g := 0) rfl rfl (by decide)
    obtain ⟨⟨t, claim⟩, hm, rfl⟩ := List.mem_map.mp ((hcrew.tasks 2).mp htask)
    have hout : gatheringTwiceEnds.taskOutcome? 2 = some (.error (.ofFailure .coroutineBusy)) := rfl
    cases claim with
    | none =>
      have hverdicts := hcrew.claimed 2 hm
      rw [hout] at hverdicts
      cases hverdicts
    | some f =>
      have hf := hout.symm.trans (hcrew.refused 2 f hm).1
      cases hf
      exact hm
  obtain ⟨summary, hs, hcount⟩ := hsummary (gatheringTwiceEvents.map (⟨"", ""⟩, ·)) 0 rfl
  have hone : summary.failedTasks = 1 := by
    cases hs
    rfl
  have hsome : 0 < crew.countP (·.2.isSome) := List.countP_pos_iff.mpr ⟨_, hrefused, rfl⟩
  exact ⟨hd, hevents, crew, hcrew, hrefused, by omega, summary, hs, hone⟩

end World

end Coroutines
