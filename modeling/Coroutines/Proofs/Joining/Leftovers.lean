import Coroutines.Proofs.Crashes
import Coroutines.Proofs.Joining.Aborts
import Coroutines.Proofs.Joining.Orphans

/-!
# What a run leaves claimed

However a run ends, its scheduler is idle afterwards and its root coroutine belongs to nobody.  A run that
ends with an outcome leaves no other claim either, but a run that is broken off, at its limit or by an
error of the host, does: the coroutines that its tasks have in their chains when it is broken off belong
to these tasks from then on, and are refused to everybody else.
-/

namespace Coroutines

namespace World

variable {β σ : Type} {w w' : World β σ} {l : Standing} {base : Nat → Start}

/-- What is left of a run once it has started. -/
def runOn (resume : CoroutineRef → Input → World β σ → Except Abort Step × World β σ)
    (fuel s root : Nat) (c : CoroutineRef) (w : World β σ) : Except Abort Value × World β σ :=
  let (result, w) :=
    match drain resume s fuel w with
    | (.ok (), w) => w.conclude s root c
    | (.error e, w) => (.error e, w)
  (result, (w.release c).deactivate s)

theorem runWith_eq_runOn {s root : Nat} {c : CoroutineRef} (h : w.start s c = (.ok root, w'))
    (resume : CoroutineRef → Input → World β σ → Except Abort Step × World β σ) (fuel : Nat) :
    w.runWith resume fuel s c = w'.runOn resume fuel s root c := by
  simp only [runWith, h]
  rfl

/-- How a run ends in its last world between two turns: with the outcome of its root, at the bound of
its loop, or in a turn that fails. -/
inductive EndsWith (resume : CoroutineRef → Input → World β σ → Except Abort Step × World β σ)
    (s root : Nat) (w : World β σ) : Except Abort Value → Prop
  | outcome {o : Outcome} (hd : w.dequeue s = none) (ho : w.taskOutcome? root = some o) :
    EndsWith resume s root w (o.mapError .script)
  | bound : EndsWith resume s root w (.error .outOfFuel)
  | failed {t : Nat} {e : Abort} {w₁ w₂ : World β σ} (hd : w.dequeue s = some (t, w₁))
      (hs : w₁.step resume s t = (.error e, w₂)) : EndsWith resume s root w (.error e)

/-- What has become of the claims of a run from its first turn in `w` over its last world `w₁` between
two turns to its end in `w'`. -/
structure LeftClaims (resume : CoroutineRef → Input → World β σ → Except Abort Step × World β σ)
    (s root : Nat) (c : CoroutineRef) (w w₁ w' : World β σ) : Prop where
  /-- What the run had claimed it has still claimed, or it has retired. -/
  claimed : ∀ {before after v d}, Turns resume s w before v → Turns resume s v after w₁ →
    v.Claimed root d → w₁.Claimed root d ∨ ∃ o, w'.Retired d o
  /-- What it has still claimed stays owned, apart from its root coroutine, and is refused later. -/
  owned : ∀ {d}, w₁.Claimed root d → d.id ≠ c.id → ∃ x, w'.handles.get? d.id = some x ∧
    x.owner ≠ none ∧ ∀ n, (w'.claim d n).1 =
      some (if x.status.isFinished then .coroutineReuse else .coroutineBusy)
  /-- If the root has an outcome there is nothing that it has still claimed. -/
  none : (w₁.taskOutcome? root).isSome = true → ∀ d, ¬ w₁.Claimed root d

/-- The turns of a run up to its last world between two turns, and how it ends from there; `v` is the
world in which its root is released. -/
theorem runOn_cases {resume : CoroutineRef → Input → World β σ → Except Abort Step × World β σ}
    {m s root : Nat} {c : CoroutineRef} {result : Except Abort Value}
    (hr : w.runOn resume m s root c = (result, w')) : ∃ log w₁ v, Turns resume s w log w₁ ∧
      w' = (v.release c).deactivate s ∧
      (w₁.dequeue s = none ∧ w₁.conclude s root c = (result, v) ∨
        result = .error .outOfFuel ∧ v = w₁ ∨
        ∃ t e w₂, w₁.dequeue s = some (t, w₂) ∧ w₂.step resume s t = (.error e, v) ∧
          result = .error e) := by
  obtain ⟨log, w₁, hturns, ⟨hd, hidle⟩ | hd | ⟨t, e, w₂, w₃, hdeq, hstep, hd⟩⟩ :=
    drain_cases resume s m w <;> simp only [runOn, hd] at hr <;> cases hr
  · exact ⟨log, w₁, _, hturns, rfl, .inl ⟨hidle, rfl⟩⟩
  · exact ⟨log, w₁, w₁, hturns, rfl, .inr (.inl ⟨rfl, rfl⟩)⟩
  · exact ⟨log, w₁, w₃, hturns, rfl, .inr (.inr ⟨t, e, w₂, hdeq, hstep, rfl⟩)⟩

theorem claim_of_owner {c : CoroutineRef} {x : Handle β} (hx : w.handles.get? c.id = some x)
    (ho : x.owner ≠ none) (n : Nat) : (w.claim c n).1 =
      some (if x.status.isFinished then .coroutineReuse else .coroutineBusy) := by
  rw [claim_fst, claimable, hx, Option.map_some, Option.getD_some, Handle.claimFailure?]
  split
  · rfl
  · rw [if_pos (by simp [Option.isSome_iff_ne_none.mpr ho])]

/-- **What a run leaves.**  Whatever the bodies do and however a run ends, its scheduler has no run in
progress then and its root coroutine belongs to nobody.  When the bodies touch coroutines by running and
grouping them only, whether they fail with errors of the host or not, the other coroutines that the run
had claimed have retired or have still been claimed between its last two turns; the latter stay owned,
and there are none if the run ends with an outcome of its root. -/
theorem claims_after_run {bodies : Bodies β σ} {depth m s root : Nat} {c : CoroutineRef}
    {result : Except Abort Value}
    (hr : w.runOn (resume bodies depth) m s root c = (result, w')) :
    w'.context? s = none ∧ (∀ x, w'.handles.get? c.id = some x → x.owner = none) ∧
      ∀ {α : Type} {action : Action β σ α} {limits : List (Option Number)} {shared : σ} {fuel : Nat},
        bodies.masked.Orderly → action.masked.Orderly →
        Opens bodies action fuel (World.initial limits shared) s c depth root w →
        ∃ log w₁, Turns (resume bodies depth) s w log w₁ ∧
          EndsWith (resume bodies depth) s root w₁ result ∧
          LeftClaims (resume bodies depth) s root c w w₁ w' := by
  obtain ⟨log, w₁, v, hturns, rfl, hcases⟩ := runOn_cases hr
  have hreleased : ∀ x, ((v.release c).deactivate s).handles.get? c.id = some x → x.owner = none := by
    intro x hx
    have hx : (v.release c).handles.get? c.id = some x := hx
    rw [release, get?_handles_modifyHandle, if_pos rfl] at hx
    obtain ⟨y, -, rfl⟩ := Option.map_eq_some_iff.mp hx
    rfl
  refine ⟨by rw [context?_deactivate, if_pos rfl], hreleased, fun hb ha ho => ?_⟩
  have hakin := resume_masked bodies depth
  obtain ⟨l, base, hp⟩ := poised_between_turns hb ha ho .refl
  obtain ⟨⟨l₁, hp₁⟩, -⟩ := hp.claimed_turns hb (turns_masked.mpr hturns)
  obtain ⟨ctx, hc⟩ := hp₁.active
  -- the tasks of the run own the coroutines of their chains until the root is released
  have hretain : EndsWith (resume bodies depth) s root w₁ result ∧ Retains l₁ w₁ v ∧
      Passes bodies w₁ v := by
    rcases hcases with ⟨hd, hconclude⟩ | ⟨rfl, rfl⟩ | ⟨t, e, w₂, hd, hstep, rfl⟩
    · have hout := hp₁.sound.root_outcome hp₁.calm hp₁.active hd
      rw [hp₁.start] at hout
      obtain ⟨o, ho⟩ := Option.isSome_iff_exists.mp hout
      simp only [conclude, ho] at hconclude
      cases hconclude
      exact ⟨.outcome hd ho, hp₁.sound.retains.of_handles rfl, .of_handles rfl⟩
    · exact ⟨.bound, hp₁.sound.retains, .refl _⟩
    · refine ⟨.failed hd hstep, ?_, ?_⟩
      · have hmasked := step_akin hakin w₂ s t
        rw [hstep] at hmasked
        cases hs : w₂.step (resume bodies.masked depth) s t with
        | mk r v' =>
            rw [hs] at hmasked
            cases hmasked
            exact hp₁.sound.retains_failed hp₁.calm (resumesSound hb depth) (resumesRetain hb depth)
              hd hs
      · have hpasses := Passes.step bodies depth w₂ s t
        rw [hstep] at hpasses
        exact .trans (.of_handles (handles_dequeue hd)) hpasses
  obtain ⟨hends, hretain, hpasses⟩ := hretain
  refine ⟨log, w₁, hturns, hends, ⟨?_, ?_, ?_⟩⟩
  · intro before after v₁ d hbefore hafter hd
    obtain ⟨⟨l₂, hp₂⟩, -⟩ := hp.claimed_turns hb (turns_masked.mpr hbefore)
    obtain ⟨-, -, hclaimed⟩ := hp₂.claimed_turns hb (turns_masked.mpr hafter)
    refine (hclaimed hd).imp_right fun h => ?_
    obtain ⟨o, hret⟩ := h
    exact ⟨o, (hret.of_passes hpasses).of_arranged ((Arranged.release v c).trans (.rest rfl))⟩
  · rintro d ⟨t, x, ht, hx, hd⟩ hne
    obtain ⟨p, hp'⟩ := hp₁.standing_of_taskOf ht
    obtain ⟨y, hy, ho⟩ := hretain (by simp [hp']) hx hd
    have hrow : ((v.release c).deactivate s).handles.get? d.id = some y :=
      get?_handles_modifyHandle_of_ne _ _ _ hne hy
    exact ⟨y, hrow, by simp [ho], claim_of_owner hrow (by simp [ho])⟩
  · rintro hout d ⟨t, x, ht, hx, hd⟩
    obtain ⟨y, hy, hh⟩ := hp₁.sound.chained.holds (hp₁.ended_of_outcome hout ht)
    cases hx.symm.trans hy
    rw [hh.empty.mpr rfl] at hd
    cases hd

/-- The gathering coroutine before its first turn, where its scheduler allows one resume. -/
def gatheringLimited : World Bool Unit :=
  (((World.initial [some (.ofNat 1)] ()).spawn "main" true []).2.start 0 ⟨0, "main"⟩).2

/-- The end of its run. -/
def gatheringBrokenOff : World Bool Unit :=
  (gatheringLimited.runOn (World.resume gathering 2) 2 0 0 ⟨0, "main"⟩).2

/-- The run of the gathering coroutine is broken off after the group has claimed its member and before
the member is resumed; the member, which has not started, is refused ever after. -/
theorem gathering_broken_off :
    gatheringLimited.runOn (World.resume gathering 2) 2 0 0 ⟨0, "main"⟩ =
      (.error (.raise (.budget (.ofNat 1))), gatheringBrokenOff) ∧
    ∃ log w₁, Turns (World.resume gathering 2) 0 gatheringLimited log w₁ ∧
      LeftClaims (World.resume gathering 2) 0 0 ⟨0, "main"⟩ gatheringLimited w₁ gatheringBrokenOff ∧
      (gatheringBrokenOff.handles.get? 1).map Handle.status = some .created ∧
      (gatheringBrokenOff.claim ⟨1, "child"⟩ 9).1 = some .coroutineBusy := by
  have hrun : gatheringLimited.runOn (World.resume gathering 2) 2 0 0 ⟨0, "main"⟩ =
      (.error (.raise (.budget (.ofNat 1))), gatheringBrokenOff) := by
    refine Prod.ext ?_ rfl
    have herror : (match (gatheringLimited.runOn (World.resume gathering 2) 2 0 0 ⟨0, "main"⟩).1 with
        | .ok _ => none
        | .error e => some e) = some (.raise (.budget (.ofNat 1))) := by
      decide +kernel
    split at herror <;> cases herror
    assumption
  have hopens : Opens gathering runGathering 2 (World.initial [some (.ofNat 1)] ()) 0 ⟨0, "main"⟩ 2 0
      gatheringLimited := .direct (.more .refl rfl) rfl
  obtain ⟨log, w₁, hturns, -, hleft⟩ := (claims_after_run hrun).2.2
    (fun body frame input => (gathering_orderly body frame input).masked) runGathering_orderly.masked
    hopens
  exact ⟨hrun, log, w₁, hturns, hleft, by decide +kernel, by decide +kernel⟩

end World

end Coroutines
