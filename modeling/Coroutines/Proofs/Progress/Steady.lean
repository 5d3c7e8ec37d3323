import Coroutines.Proofs.Chronicle

/-!
# Coroutines that run or have finished

Whatever happens while a coroutine runs, it runs on until its own resume ends, and a coroutine that
has finished stays so: no request of any action and no part of any turn changes its status.
-/

namespace Coroutines

/-- Whether nothing but the end of its resume changes the status of a coroutine. -/
def Status.isFixed : Status → Bool
  | .running | .completed | .failed => true
  | _ => false

namespace World

variable {β σ : Type} {w w' w'' : World β σ}

/-- The coroutines of a world that run or have finished do so in another, with the same outcome and the
same body. -/
def Steady (w w' : World β σ) : Prop :=
  ∀ ⦃i x⦄, w.handles.get? i = some x → x.status.isFixed = true → ∃ x', w'.handles.get? i = some x' ∧
    x'.status = x.status ∧ x'.outcome = x.outcome ∧ x'.body = x.body

namespace Steady

theorem refl (w : World β σ) : w.Steady w := fun _ x hx _ => ⟨x, hx, rfl, rfl, rfl⟩

theorem trans (h : w.Steady w') (h' : w'.Steady w'') : w.Steady w'' := by
  intro i x hx hs
  obtain ⟨y, hy, e, ho, hb⟩ := h hx hs
  obtain ⟨z, hz, e', ho', hb'⟩ := h' hy (e ▸ hs)
  exact ⟨z, hz, e'.trans e, ho'.trans ho, hb'.trans hb⟩

theorem of_handles (h : w'.handles = w.handles) : w.Steady w' :=
  fun _ x hx _ => ⟨x, h ▸ hx, rfl, rfl, rfl⟩

theorem modifyHandle (c : CoroutineRef) {f : Handle β → Handle β}
    (hf : ∀ x, (f x).status = x.status ∧ (f x).outcome = x.outcome ∧ (f x).body = x.body) :
    w.Steady (w.modifyHandle c f) := by
  intro i x hx _
  refine ⟨if c.id = i then f x else x, ?_, ?_⟩
  · rw [get?_handles_modifyHandle, hx]
    split <;> rfl
  · split
    · exact hf x
    · exact ⟨rfl, rfl, rfl⟩

theorem claim (w : World β σ) (c : CoroutineRef) (task : Nat) : w.Steady (w.claim c task).2 := by
  rcases h : w.claim c task with ⟨- | f, w'⟩
  · obtain ⟨x, -, -, -, rfl⟩ := claim_eq_none h
    exact modifyHandle c fun _ => ⟨rfl, rfl, rfl⟩
  · obtain rfl := claim_eq_some h
    exact refl w'

theorem of_arranged (h : w.Arranged w') : w.Steady w' := by
  induction h with
  | rest h => exact of_handles h
  | spawn w name body locals => exact fun _ x hx _ => ⟨x, Table.get?_push_of_some hx, rfl, rfl, rfl⟩
  | claim w c task => exact claim w c task
  | release w c => exact modifyHandle c fun _ => ⟨rfl, rfl, rfl⟩
  | trans _ _ ih ih' => exact ih.trans ih'

end Steady

/-- A coroutine that leaves off changes alone. -/
theorem get?_handles_leave {c : CoroutineRef} {i : Nat} (h : c.id ≠ i) (frame : Frame)
    (result : Except Abort (Frame × Step)) :
    (w.leave c frame result).2.handles.get? i = w.handles.get? i := by
  unfold leave
  split <;> exact (get?_handles_modifyHandle ..).trans (if_neg h)

/-- A coroutine that takes an input neither runs nor has finished. -/
theorem isFixed_of_refusal? {x : Handle β} {input : Input} (h : x.refusal? input = none) :
    x.status.isFixed = false := by
  rcases Handle.refusal?_eq_none_iff.mp h with ⟨hs, -⟩ | ⟨hs, -⟩ <;> rw [hs] <;> rfl

namespace Steady

/-- **Whatever happens to other coroutines, those that run or have finished stay as they are**, as
nobody resumes them. -/
theorem of_chronicle {bodies : Bodies β σ} {log : List (Resumption β σ)}
    (h : Chronicle bodies w log w') : w.Steady w' := by
  induction h with
  | arrange h => exact of_arranged h
  | trans _ _ ih ih' => exact ih.trans ih'
  | @resume w x r _ hx hin _ _ forgets hentered _ _ ih =>
      intro i y hy hfixed
      have hne : r.coroutine.id ≠ i := by
        rintro rfl
        rw [hx] at hy
        cases hy
        rw [isFixed_of_refusal? hin] at hfixed
        cases hfixed
      have hentry : r.entered.handles.get? i = some y := by
        rw [hentered, get?_handles_modifyHandle, if_neg hne, hy]
      obtain ⟨z, hz, hz'⟩ := ih hentry hfixed
      exact ⟨z, (get?_handles_leave hne ..).trans hz, hz'⟩

theorem of_passes {bodies : Bodies β σ} (h : Passes bodies w w') : w.Steady w' :=
  let ⟨_, h⟩ := h
  of_chronicle h

theorem absorb (w : World β σ) (s t : Nat) (top : CoroutineRef) (step : Step) :
    w.Steady (w.absorb s t top step).2 := of_arranged (.absorb w s t top step)

theorem perform {α : Type} (bodies : Bodies β σ) (fuel : Nat) (a : Action β σ α) (w : World β σ) :
    w.Steady (a.perform (runner bodies fuel) w).2 := of_passes (.perform bodies fuel a w)

theorem resume (bodies : Bodies β σ) (fuel : Nat) (c : CoroutineRef) (input : Input)
    (w : World β σ) : w.Steady (World.resume bodies fuel c input w).2 :=
  of_passes (.resume bodies fuel c input w)

theorem step (bodies : Bodies β σ) (depth : Nat) (w : World β σ) (s t : Nat) :
    w.Steady (w.step (World.resume bodies depth) s t).2 := of_passes (.step bodies depth w s t)

end Steady

/-- **A coroutine that is resumed had not finished, and it has finished after the resume unless it
awaits.** -/
theorem finished_of_resume {bodies : Bodies β σ} {fuel : Nat} {c : CoroutineRef} {input : Input}
    {step : Step} (h : World.resume bodies fuel c input w = (.ok step, w')) :
    (∃ x, w.handles.get? c.id = some x ∧ x.status.isFixed = false) ∧
      ((∀ target, step ≠ .await target) →
        ∃ x, w'.handles.get? c.id = some x ∧ x.status.isFinished = true) := by
  cases fuel with
  | zero => cases h
  | succ fuel =>
      rw [resume_succ, resumeWith] at h
      rcases he : w.enter bodies c input with ⟨e | ⟨frame, body⟩, w₁⟩
      · rw [he] at h
        cases h
      · obtain ⟨x, hx, hin, rfl, rfl, forgets, rfl⟩ := enter_eq_ok he
        refine ⟨⟨x, hx, isFixed_of_refusal? hin⟩, fun hstep => ?_⟩
        have hp := Steady.perform bodies fuel (bodies.resume x.body x.frame input)
          (w.modifyHandle c (·.entered forgets))
        -- the coroutine runs until it leaves off with the step
        obtain ⟨z, hz, -⟩ := hp (get?_modifyHandle_self hx _) rfl
        rw [he] at h
        simp only at h
        generalize (bodies.resume x.body x.frame input).perform (runner bodies fuel) _ = result at hz h
        obtain ⟨result, w₂⟩ := result
        have hrow : ∀ f : Handle β → Handle β, (w₂.modifyHandle c f).handles.get? c.id = some (f z) :=
          fun f => get?_modifyHandle_self hz _
        obtain ⟨frame', rfl⟩ : ∃ frame', w' = w₂.modifyHandle c (·.left frame' step) := by
          rcases w₂.leave_cases c x.frame result with ⟨e, hsplit, -⟩ | ⟨frame', step', hleave⟩
          · cases h.symm.trans (leave_of_splitScript hsplit c x.frame)
          · cases h.symm.trans hleave
            exact ⟨frame', rfl⟩
        refine ⟨_, hrow _, ?_⟩
        cases step with
        | await target => exact absurd rfl (hstep target)
        | _ => rfl

end World

end Coroutines
