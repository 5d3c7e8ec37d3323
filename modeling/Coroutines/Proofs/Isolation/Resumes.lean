import Coroutines.Proofs.Chronicle
import Coroutines.Proofs.Isolation.Bodies

/-!
# Resumes and their bodies

A resume that ends with a step had a coroutine that took the input, and its body left off with the step or with
an exception (`World.resumeWith_eq_ok`).
-/

namespace Coroutines

namespace World

variable {β σ : Type} {w w' : World β σ} {bodies : Bodies β σ}
  {perform : Action β σ (Frame × Step) → World β σ → Except Abort (Frame × Step) × World β σ}
  {c : CoroutineRef} {input : Input} {step : Step}

theorem resumeWith_eq_ok (h : w.resumeWith bodies perform c input = (.ok step, w')) :
    ∃ x frame forgets result w₁, w.handles.get? c.id = some x ∧ x.refusal? input = none ∧
      perform (bodies.resume x.body x.frame input) (w.modifyHandle c (·.entered forgets)) =
        (result, w₁) ∧
      (result = .ok (frame, step) ∨ frame = x.frame ∧ ∃ r, step = .raise r ∧
        result = .error (.script r)) ∧ w' = w₁.modifyHandle c (·.left frame step) := by
  unfold resumeWith enter at h
  split at h
  · cases h
  · next w₀ frame action he =>
      split at he
      · cases he
      · next x hx =>
          split at he
          · cases he
          · next hr =>
              cases he
              rcases hp : perform (bodies.resume x.body x.frame input)
                (w.modifyHandle c (·.entered (!input.isStart && bodies.forgets x.body)))
                with ⟨⟨e⟩ | ⟨frame, step'⟩, w₁⟩
              · rw [hp] at h
                cases e with
                | script r =>
                    cases h
                    exact ⟨x, x.frame, _, _, w₁, hx, hr, hp, .inr ⟨rfl, r, rfl, rfl⟩, rfl⟩
                | _ => cases h
              · rw [hp] at h
                cases h
                exact ⟨x, frame, _, _, w₁, hx, hr, hp, .inl rfl, rfl⟩

theorem resumeWith_of_perform (bodies : Bodies β σ)
    (perform : Action β σ (Frame × Step) → World β σ → Except Abort (Frame × Step) × World β σ)
    {x : Handle β} (hx : w.handles.get? c.id = some x)
    (hr : x.refusal? input = none) : ∃ forgets, ∀ {result w₁},
      perform (bodies.resume x.body x.frame input) (w.modifyHandle c (·.entered forgets)) =
        (result, w₁) → w.resumeWith bodies perform c input = w₁.leave c x.frame result := by
  refine ⟨!input.isStart && bodies.forgets x.body, fun hp => ?_⟩
  simp only [resumeWith, enter, hx, hr, hp]

/-- A resume that ends with a step has a coroutine. -/
theorem exists_of_resume {fuel : Nat} (h : World.resume bodies (fuel + 1) c input w = (.ok step, w')) :
    ∃ x, w.handles.get? c.id = some x := by
  rw [resume_succ] at h
  obtain ⟨x, -, -, -, -, hx, -⟩ := resumeWith_eq_ok h
  exact ⟨x, hx⟩

@[simp] theorem extent_modifyHandle (w : World β σ) (c : CoroutineRef) (f : Handle β → Handle β)
    (k : NameKind) : (w.modifyHandle c f).extent k = w.extent k := by
  cases k <;> simp [extent, modifyHandle]

end World

end Coroutines
