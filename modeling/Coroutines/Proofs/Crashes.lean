import Coroutines.Proofs.Executions

/-!
# Errors of the host

No script and no scheduler catches an error of the host: it ends everything that goes on, just as the
bound does that the host sets.  So bodies that end with such errors do the same as bodies that reach the
bound in their place (`Bodies.masked`), and all that differs is the error that comes out.
-/

namespace Coroutines

/-- An exception of the script as it is, any other abort as the bound of the host. -/
def Abort.masked : Abort → Abort
  | .script r => .script r
  | _ => .outOfFuel

/-- The action that reaches the bound of the host where this one ends with an error of the host. -/
def Action.masked {β σ α : Type} : Action β σ α → Action β σ α
  | .done result => .done (result.mapError Abort.masked)
  | .read next => .read fun s => (next s).masked
  | .modify f next => .modify f next.masked
  | .identity next => .identity fun n => (next n).masked
  | .spawn name body locals next => .spawn name body locals fun c => (next c).masked
  | .joinAll s members re next => .joinAll s members re fun r => (next r).masked
  | .run s c next => .run s c fun r => (next r).masked
  | .resume c input next => .resume c input fun r => (next r).masked
  | .claim c task next => .claim c task fun r => (next r).masked
  | .release c next => .release c next.masked

def Bodies.masked {β σ : Type} (bodies : Bodies β σ) : Bodies β σ where
  resume body frame input := (bodies.resume body frame input).masked
  forgets := bodies.forgets

/-- Orderly actions have no errors of the host to mask. -/
theorem Action.Orderly.masked {β σ α : Type} {a : Action β σ α} (h : a.Orderly) :
    a.masked.Orderly := by
  induction a with
  | done result =>
      rcases result with (_ | _ | _ | _ | _) | _
      · exact h
      · exact h.elim
      · exact h.elim
      · exact h.elim
      · exact h
      · exact h
  | modify f next ih => exact ih h
  | resume c input next ih => exact h.elim
  | claim c task next ih => exact h.elim
  | release c next ih => exact h.elim
  | read next ih => exact fun s => ih s (h s)
  | identity next ih => exact fun n => ih n (h n)
  | spawn name body locals next ih => exact fun c => ih c (h c)
  | joinAll s members re next ih => exact fun r => ih r (h r)
  | run s c next ih => exact fun r => ih r (h r)

theorem Bodies.Orderly.masked {β σ : Type} {bodies : Bodies β σ} (h : bodies.Orderly) :
    bodies.masked.Orderly := fun body frame input => (h body frame input).masked

/-- Two results are the same, but for the error of the host if they are one. -/
inductive Akin {α γ : Type} : Except Abort α × γ → Except Abort α × γ → Prop
  | ok (a : α) (w : γ) : Akin (.ok a, w) (.ok a, w)
  | error {e e' : Abort} (h : e'.masked = e.masked) (w : γ) : Akin (.error e, w) (.error e', w)

namespace Akin

variable {α γ δ : Type}

theorem refl (r : Except Abort α × γ) : Akin r r := by
  obtain ⟨e | a, w⟩ := r
  · exact .error rfl w
  · exact .ok a w

/-- Akin results are equal unless they are errors of the host. -/
theorem eq_or {r r' : Except Abort α × γ} (h : Akin r r') : r' = r ∨ ∃ e e' w, r = (.error e, w) ∧
    r' = (.error e', w) ∧ splitScript (.error e : Except Abort α) = .error e ∧
    splitScript (.error e' : Except Abort α) = .error e' ∧ e'.masked = e.masked := by
  cases h with
  | ok a w => exact .inl rfl
  | @error e e' h w =>
      cases e with
      | script r =>
          cases e' with
          | script r' =>
              cases h
              exact .inl rfl
          | _ => cases h
      | _ =>
          cases e' with
          | script r' => cases h
          | _ => exact .inr ⟨_, _, w, rfl, rfl, rfl, rfl, rfl⟩

/-- A result is masked. -/
theorem masked (r : Except Abort α) (w : γ) : Akin (r, w) (r.mapError Abort.masked, w) := by
  cases r with
  | ok a => exact .ok a w
  | error e => exact .error (by cases e <;> rfl) w

theorem symm {r r' : Except Abort α × γ} (h : Akin r r') : Akin r' r := by
  cases h with
  | ok a w => exact .ok a w
  | error h w => exact .error h.symm w

/-- What ends well ends the same way. -/
theorem eq_of_ok {a : α} {w : γ} {r : Except Abort α × γ} (h : Akin (.ok a, w) r) : r = (.ok a, w) := by
  cases h
  rfl

end Akin

namespace Action

variable {β σ α : Type} {runner runner' : Runner β σ}

/-- An action and its masked one do the same if runs and resumes do. -/
theorem perform_masked (hrun : ∀ s c w, Akin (runner.run s c w) (runner'.run s c w))
    (hres : ∀ c input w, Akin (runner.resume c input w) (runner'.resume c input w))
    (a : Action β σ α) (w : World β σ) :
    Akin (a.perform runner w) (a.masked.perform runner' w) := by
  induction a generalizing w with
  | done result => exact .masked result w
  | read next ih => exact ih _ w
  | modify f next ih => exact ih _
  | identity next ih => exact ih _ _
  | spawn name body locals next ih => exact ih _ _
  | joinAll s members re next ih =>
      simp only [perform, Action.masked]
      split <;> exact ih _ _
  | run s c next ih =>
      rcases (hrun s c w).eq_or with he | ⟨e, e', w', he, he', hs, hs', hf⟩
      · simp only [perform, Action.masked, he]
        cases splitScript (runner.run s c w).1 with
        | ok r => exact ih _ _
        | error e => exact .refl _
      · simp only [perform, Action.masked, he, he', hs, hs']
        exact .error hf _
  | resume c input next ih =>
      rcases (hres c input w).eq_or with he | ⟨e, e', w', he, he', hs, hs', hf⟩
      · simp only [perform, Action.masked, he]
        cases splitScript (runner.resume c input w).1 with
        | ok r => exact ih _ _
        | error e => exact .refl _
      · simp only [perform, Action.masked, he, he', hs, hs']
        exact .error hf _
  | claim c task next ih => exact ih _ _
  | release c next ih => exact ih _

/-- What is left of an action is masked alike. -/
theorem advance_masked (hrun : ∀ s c w, Akin (runner.run s c w) (runner'.run s c w))
    (hres : ∀ c input w, Akin (runner.resume c input w) (runner'.resume c input w))
    {a a' : Action β σ α} {w w' : World β σ} (h : a.advance runner w = some (a', w')) :
    a.masked.advance runner' w = some (a'.masked, w') := by
  cases a with
  | done result => cases h
  | joinAll s members re next =>
      simp only [advance, Action.masked] at h ⊢
      split at h <;>
        · next e =>
            cases h
            simp only [e]
            rfl
  | run s c next =>
      rcases (hrun s c w).eq_or with he | ⟨e, e', v, he, -, hs, -, -⟩
      · simp only [advance, Action.masked, he] at h ⊢
        split at h <;> cases h
        rfl
      · simp only [advance, he, hs] at h
        cases h
  | resume c input next =>
      rcases (hres c input w).eq_or with he | ⟨e, e', v, he, -, hs, -, -⟩
      · simp only [advance, Action.masked, he] at h ⊢
        split at h <;> cases h
        rfl
      · simp only [advance, he, hs] at h
        cases h
  | _ =>
      cases h
      rfl

theorem Reaches.masked (hrun : ∀ s c w, Akin (runner.run s c w) (runner'.run s c w))
    (hres : ∀ c input w, Akin (runner.resume c input w) (runner'.resume c input w))
    {a a' : Action β σ α} {w w' : World β σ} (h : a.Reaches runner w a' w') :
    a.masked.Reaches runner' w a'.masked w' := by
  induction h with
  | refl => exact .refl
  | more _ he ih => exact .more ih (advance_masked hrun hres he)

end Action

namespace World

variable {β σ : Type} {w w' : World β σ}

section

variable {resume resume' : CoroutineRef → Input → World β σ → Except Abort Step × World β σ}
  {log : List (CoroutineRef × Step)}

theorem step_akin (hres : ∀ c input w, Akin (resume c input w) (resume' c input w))
    (w : World β σ) (s t : Nat) : Akin (w.step resume s t) (w.step resume' s t) := by
  simp only [step]
  split
  · exact .refl _
  · exact .refl _
  · next top input v _ =>
      rcases h : resume top input v with ⟨e | step, v'⟩
      · have hr := hres top input v
        rw [h] at hr
        rcases h' : resume' top input v with ⟨e' | step', v''⟩ <;> rw [h'] at hr <;> cases hr
        next hf => exact .error hf _
      · have hr := hres top input v
        rw [h] at hr
        rw [hr.eq_of_ok]
        exact .refl _

theorem drain_akin (hres : ∀ c input w, Akin (resume c input w) (resume' c input w))
    (s fuel : Nat) (w : World β σ) : Akin (drain resume s fuel w) (drain resume' s fuel w) := by
  induction fuel generalizing w with
  | zero => exact .refl _
  | succ fuel ih =>
      simp only [drain]
      split
      · exact .refl _
      · next t v _ =>
          have hs := step_akin hres v s t
          rcases h : v.step resume s t with ⟨e | ⟨⟩, v'⟩ <;> rw [h] at hs
          · rcases h' : v.step resume' s t with ⟨e' | step', v''⟩ <;> rw [h'] at hs <;> cases hs
            next hf => exact .error hf _
          · rw [hs.eq_of_ok]
            exact ih v'

theorem runWith_akin (hres : ∀ c input w, Akin (resume c input w) (resume' c input w))
    (fuel s : Nat) (c : CoroutineRef) (w : World β σ) :
    Akin (w.runWith resume fuel s c) (w.runWith resume' fuel s c) := by
  simp only [runWith]
  split
  · exact .refl _
  · next root v _ =>
      have hd := drain_akin hres s fuel v
      rcases h : drain resume s fuel v with ⟨e | ⟨⟩, v'⟩ <;> rw [h] at hd
      · rcases h' : drain resume' s fuel v with ⟨e' | step', v''⟩ <;> rw [h'] at hd <;> cases hd
        next hf => exact .error hf _
      · rw [hd.eq_of_ok]
        exact .refl _

/-- A turn that comes about resumes the same coroutine with the other resumes. -/
theorem resumed_akin (hres : ∀ c input w, Akin (resume c input w) (resume' c input w)) {s t : Nat}
    (hs : w.step resume s t = (.ok (), w')) : w.resumed resume s t = w.resumed resume' s t := by
  simp only [resumed]
  split
  · next top input v e =>
      have hr := hres top input v
      simp only [step, e] at hs
      rcases h : resume top input v with ⟨e | step, v'⟩ <;> rw [h] at hr <;> simp only [h] at hs
      · cases hs
      · rw [hr.eq_of_ok]
  · rfl

/-- Turns that come about go on with the other resumes too. -/
theorem Turns.akin (hres : ∀ c input w, Akin (resume c input w) (resume' c input w)) {s : Nat}
    (h : Turns resume s w log w') : Turns resume' s w log w' := by
  induction h with
  | refl => exact .refl
  | @more t _ w₁ w₂ w₃ _ hd hs ih =>
      have hstep := step_akin hres w₂ s t
      rw [hs] at hstep
      rw [resumed_akin hres hs]
      exact .more ih hd hstep.eq_of_ok

end

theorem enter_masked (bodies : Bodies β σ) (c : CoroutineRef) (input : Input) (w : World β σ) :
    w.enter bodies.masked c input =
      ((w.enter bodies c input).1.map fun x => (x.1, x.2.masked), (w.enter bodies c input).2) := by
  simp only [enter]
  split
  · rfl
  · split <;> rfl

/-- **Bodies and their masked ones do the same**, by induction on how deep runs may nest. -/
theorem resume_masked (bodies : Bodies β σ) (fuel : Nat) (c : CoroutineRef) (input : Input)
    (w : World β σ) : Akin (w.resume bodies fuel c input) (w.resume bodies.masked fuel c input) := by
  induction fuel generalizing c input w with
  | zero => exact .refl _
  | succ fuel ih =>
      simp only [World.resume, resumeWith, enter_masked]
      rcases w.enter bodies c input with ⟨e | ⟨frame, body⟩, v⟩
      · exact .refl _
      · have hp : Akin (body.perform (runner bodies fuel) v)
            (body.masked.perform (runner bodies.masked fuel) v) :=
          body.perform_masked (runWith_akin ih fuel) ih v
        simp only [runner, World.run] at hp
        rcases hp.eq_or with he | ⟨e, e', v', he, he', hs, hs', hf⟩
        · simp only [Except.map, he]
          exact .refl _
        · simp only [Except.map, he, he', leave_of_splitScript hs, leave_of_splitScript hs']
          exact .error hf _

/-- Masked bodies take the same turns. -/
theorem turns_masked {bodies : Bodies β σ} {depth s : Nat} {log : List (CoroutineRef × Step)} :
    Turns (World.resume bodies.masked depth) s w log w' ↔ Turns (World.resume bodies depth) s w log w' :=
  ⟨.akin fun c input w => (resume_masked bodies depth c input w).symm,
    .akin (resume_masked bodies depth)⟩

/-- The loop over masked bodies ends with an empty queue where it does so over the bodies as they are. -/
theorem drain_masked {bodies : Bodies β σ} {depth s m : Nat} :
    drain (World.resume bodies.masked depth) s m w = (.ok (), w') ↔
      drain (World.resume bodies depth) s m w = (.ok (), w') := by
  have h := drain_akin (resume_masked bodies depth) s m w
  constructor <;> intro hd <;> rw [hd] at h
  · exact h.symm.eq_of_ok
  · exact h.eq_of_ok

theorem run_masked (bodies : Bodies β σ) (fuel s : Nat) (c : CoroutineRef) (w : World β σ) :
    Akin (w.run bodies fuel s c) (w.run bodies.masked fuel s c) :=
  runWith_akin (resume_masked bodies fuel) fuel s c w

/-- Every run is opened by the masked bodies as well. -/
theorem Opens.masked {bodies : Bodies β σ} {α : Type} {action : Action β σ α}
    {fuel depth s root : Nat} {c : CoroutineRef} (h : Opens bodies action fuel w s c depth root w') :
    Opens bodies.masked action.masked fuel w s c depth root w' := by
  induction h with
  | direct hr hs =>
      exact .direct (hr.masked (run_masked bodies _) (resume_masked bodies _)) hs
  | @nested _ _ _ _ _ _ _ _ _ _ _ _ top input _ _ _ _ _ _ _ w₄ _ _ _ hturns hd ht he _ ih ih' =>
      have henter := enter_masked bodies top input w₄
      rw [he] at henter
      exact .nested ih (hturns.akin (resume_masked bodies _)) hd ht henter ih'

end World

end Coroutines
