import Coroutines.Proofs.Budget.Blind

/-!
# Bounds on runs

The bound on nested runs and on the turns of each run decides only whether an execution comes to an
end: what ends within a bound ends in the same way within every greater one (`Prolongs.resume`,
`Prolongs.run`).
-/

namespace Coroutines

namespace World

variable {β σ α γ : Type}

/-- The second comes to what the first comes to, unless this reaches its bound. -/
def Prolongs (f g : World β σ → Except Abort α × World β σ) : Prop :=
  ∀ w, (f w).1 ≠ .error .outOfFuel → g w = f w

namespace Prolongs

variable {f g h : World β σ → Except Abort α × World β σ}

theorem refl (f : World β σ → Except Abort α × World β σ) : Prolongs f f := fun _ _ => rfl

theorem congr {f' g' : World β σ → Except Abort α × World β σ} (hfg : Prolongs f g)
    (hf : ∀ w, f' w = f w) (hg : ∀ w, g' w = g w) : Prolongs f' g' := fun w hw =>
  (hg w).trans ((hfg w (hf w ▸ hw)).trans (hf w).symm)

/-- Going on after a value. -/
theorem andThen {k l : α → World β σ → Except Abort γ × World β σ} (hfg : Prolongs f g)
    (hkl : ∀ a, Prolongs (k a) (l a)) :
    Prolongs (fun w => World.andThen k (f w)) (fun w => World.andThen l (g w)) := by
  intro w hw
  change (World.andThen k (f w)).1 ≠ _ at hw
  have hf : (f w).1 ≠ .error .outOfFuel := by
    intro e
    rcases hx : f w with ⟨_ | a, w'⟩ <;> rw [hx] at e hw <;> cases e
    exact hw rfl
  simp only [hfg w hf]
  rcases hx : f w with ⟨e | a, w'⟩ <;> rw [hx] at hw
  · rfl
  · exact hkl a w' hw

/-- What is done with the end, if it is the same for an end at the bound. -/
theorem close {k : Except Abort α → World β σ → Except Abort γ × World β σ} (hfg : Prolongs f g)
    (hk : ∀ w, (k (.error .outOfFuel) w).1 = .error .outOfFuel) :
    Prolongs (fun w => k (f w).1 (f w).2) (fun w => k (g w).1 (g w).2) := by
  intro w hw
  have hf : (f w).1 ≠ .error .outOfFuel := fun e => hw (by simp only [e, hk])
  simp only [hfg w hf]

/-- Requests are carried out alike if runs and resumes are. -/
theorem perform {runner runner' : Runner β σ}
    (hrun : ∀ s c, Prolongs (runner.run s c) (runner'.run s c))
    (hres : ∀ c input, Prolongs (runner.resume c input) (runner'.resume c input))
    (a : Action β σ α) : Prolongs (a.perform runner) (a.perform runner') := by
  induction a with
  | done result => exact .refl _
  | read next ih => exact fun w => ih _ w
  | modify f next ih => exact fun w => ih _
  | identity next ih => exact fun w => ih _ _
  | spawn name body locals next ih => exact fun w => ih _ _
  | joinAll s members re next ih =>
      intro w hw
      by_cases e : w.isActive s = true
      · simp only [Action.perform, if_pos e] at hw ⊢
        exact ih _ _ hw
      · simp only [Action.perform, if_neg e] at hw ⊢
        exact ih _ _ hw
  | run s c next ih =>
      exact ((hrun s c).close (k := fun r w => (splitScript r, w)) fun _ => rfl).andThen ih |>.congr
        (perform_run runner s c next) (perform_run runner' s c next)
  | resume c input next ih =>
      exact ((hres c input).close (k := fun r w => (splitScript r, w)) fun _ => rfl).andThen ih |>.congr
        (perform_resume runner c input next) (perform_resume runner' c input next)
  | claim c task next ih => exact fun w => ih _ _
  | release c next ih => exact fun w => ih _

section

variable {resume resume' : CoroutineRef → Input → World β σ → Except Abort Step × World β σ}

theorem step (hres : ∀ c input, Prolongs (resume c input) (resume' c input)) (s t : Nat) :
    Prolongs (fun w => w.step resume s t) (fun w => w.step resume' s t) := by
  refine (andThen (.refl fun w => w.takeUp s t) fun x => ?_).congr (step_eq · s t) (step_eq · s t)
  cases x with
  | none => exact .refl _
  | some x => exact (hres x.1 x.2).andThen fun step => .refl _

theorem drain (hres : ∀ c input, Prolongs (resume c input) (resume' c input)) (s : Nat)
    {n m : Nat} (h : n ≤ m) : Prolongs (World.drain resume s n) (World.drain resume' s m) := by
  induction n generalizing m with
  | zero => exact fun w hw => absurd rfl hw
  | succ n ih =>
      obtain ⟨m, rfl⟩ : ∃ k, m = k + 1 := ⟨m - 1, by omega⟩
      intro w hw
      simp only [drain_succ] at hw ⊢
      cases hd : w.dequeue s with
      | none => rfl
      | some x =>
          rw [hd] at hw
          exact ((step hres s x.1).andThen fun _ => ih (Nat.le_of_succ_le_succ h)) x.2 hw

theorem runWith (hres : ∀ c input, Prolongs (resume c input) (resume' c input)) (s : Nat)
    (c : CoroutineRef) {n m : Nat} (h : n ≤ m) :
    Prolongs (World.runWith resume n s c) (World.runWith resume' m s c) := by
  refine (andThen (.refl fun w => w.start s c) fun root => ?_).congr (runWith_eq n s c)
    (runWith_eq m s c)
  exact ((drain hres s h).andThen fun _ => .refl fun w => w.conclude s root c).close
    (k := fun r w => (r, (w.release c).deactivate s)) fun _ => rfl

end

/-- **A resume that ends within a bound ends in the same way within every greater one.** -/
theorem resume (bodies : Bodies β σ) {n m : Nat} (h : n ≤ m) (c : CoroutineRef) (input : Input) :
    Prolongs (World.resume bodies n c input) (World.resume bodies m c input) := by
  induction n generalizing m c input with
  | zero => exact fun w hw => absurd rfl hw
  | succ n ih =>
      obtain ⟨m, rfl⟩ : ∃ k, m = k + 1 := ⟨m - 1, by omega⟩
      have hle := Nat.le_of_succ_le_succ h
      refine (andThen (.refl fun w => w.enter bodies c input) fun p => ?_).congr
        (resume_eq bodies n c input) (resume_eq bodies m c input)
      have hbody : Prolongs (p.2.perform (runner bodies n)) (p.2.perform (runner bodies m)) :=
        perform (fun s c => runWith (fun c input => ih hle c input) s c hle)
          (fun c input => ih hle c input) p.2
      exact hbody.close (k := fun r w => w.leave c p.1 r) fun _ => rfl

/-- **So does a run.** -/
theorem run (bodies : Bodies β σ) {n m : Nat} (h : n ≤ m) (s : Nat) (c : CoroutineRef) :
    Prolongs (World.run bodies n s c) (World.run bodies m s c) :=
  runWith (fun c input => resume bodies h c input) s c h

end Prolongs

end World

end Coroutines
