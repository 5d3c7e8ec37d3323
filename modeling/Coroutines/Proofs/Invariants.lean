import Coroutines.Proofs.Budget.Blind
import Coroutines.Proofs.Executions

/-!
# Properties of worlds that executions keep

A property of worlds that depends on tasks, schedulers, the trace and the groups that are awaited only is
kept by every request of a body but the one to run a coroutine.  So whatever is done keeps it if runs do
that resume coroutines by something that keeps it (`World.Keeping.resume`).
-/

namespace Coroutines

namespace World

variable {β σ α γ : Type} {I : World β σ → Prop}

/-- The groups that are awaited are the same in two worlds. -/
def SameAwaited (w w' : World β σ) : Prop :=
  ∀ ⦃i x⦄, x.awaitedBy ≠ none → (w'.groups.get? i = some x ↔ w.groups.get? i = some x)

theorem SameAwaited.of_eq {w w' : World β σ} (h : w'.groups = w.groups) : w.SameAwaited w' :=
  fun _ _ _ => by rw [h]

theorem sameAwaited_newGroup (w : World β σ) (members : List CoroutineRef) (re : Bool) :
    w.SameAwaited (w.newGroup members re).2 := by
  intro i x hx
  have hrow : (w.newGroup members re).2.groups.get? i =
      if i = w.groups.size then some ⟨members, re, [], none⟩ else w.groups.get? i := Table.get?_push ..
  rw [hrow]
  split
  · next e =>
      subst e
      refine iff_of_false (fun h => ?_) (by simp [Table.get?_size])
      cases h
      exact hx rfl
  · exact .rfl

/-- A property of worlds depends on tasks, schedulers, the trace and the groups that are awaited only. -/
def Ambient (I : World β σ → Prop) : Prop :=
  ∀ ⦃w w'⦄, w'.tasks = w.tasks → w'.schedulers = w.schedulers → w'.trace = w.trace → w.SameAwaited w' →
    I w → I w'

/-- Something to do keeps a property of worlds. -/
def Keeping (I : World β σ → Prop) (f : World β σ → α × World β σ) : Prop := ∀ ⦃w⦄, I w → I (f w).2

namespace Keeping

theorem bind {f : World β σ → α × World β σ} {k : α → World β σ → γ × World β σ} (h : Keeping I f)
    (hk : ∀ a, Keeping I (k a)) : Keeping I fun w => k (f w).1 (f w).2 :=
  fun _ hw => hk _ (h hw)

theorem andThen {f : World β σ → Except Abort α × World β σ}
    {k : α → World β σ → Except Abort γ × World β σ} (h : Keeping I f) (hk : ∀ a, Keeping I (k a)) :
    Keeping I fun w => World.andThen k (f w) := by
  have hnext : ∀ r, Keeping I fun w => World.andThen k (r, w) := fun r w hw => by
    cases r with
    | ok a => exact hk a hw
    | error e => exact hw
  exact h.bind hnext

theorem claim (hI : Ambient I) (c : CoroutineRef) (task : Nat) :
    Keeping I fun w => w.claim c task := by
  intro w hw
  simp only [World.claim]
  split
  · exact hw
  · split
    · exact hw
    · exact @hI w _ rfl rfl rfl (.of_eq rfl) hw

theorem enter (hI : Ambient I) (bodies : Bodies β σ) (c : CoroutineRef) (input : Input) :
    Keeping I fun w => w.enter bodies c input := by
  intro w hw
  simp only [World.enter]
  split
  · exact hw
  · split
    · exact hw
    · exact @hI w _ rfl rfl rfl (.of_eq rfl) hw

/-- Requests keep what runs and resumes keep. -/
theorem perform (hI : Ambient I) {runner : Runner β σ} (hrun : ∀ s c, Keeping I (runner.run s c))
    (hres : ∀ c input, Keeping I (runner.resume c input)) (a : Action β σ α) :
    Keeping I (a.perform runner) := by
  induction a with
  | done result => exact fun _ hw => hw
  | read next ih => exact fun w hw => ih _ hw
  | modify f next ih => exact fun w hw => ih (@hI w _ rfl rfl rfl (.of_eq rfl) hw)
  | identity next ih => exact fun w hw => ih _ (@hI w _ rfl rfl rfl (.of_eq rfl) hw)
  | spawn name body locals next ih => exact fun w hw => ih _ (@hI w _ rfl rfl rfl (.of_eq rfl) hw)
  | joinAll s members re next ih =>
      intro w hw
      simp only [Action.perform]
      split
      · exact ih _ (@hI w _ rfl rfl rfl (sameAwaited_newGroup ..) hw)
      · exact ih _ hw
  | run s c next ih =>
      intro w hw
      rw [perform_run]
      exact ((hrun s c).bind (k := fun r w => (splitScript r, w)) fun _ _ hw => hw).andThen ih hw
  | resume c input next ih =>
      intro w hw
      rw [perform_resume]
      exact ((hres c input).bind (k := fun r w => (splitScript r, w)) fun _ _ hw => hw).andThen ih hw
  | claim c task next ih =>
      exact fun w hw => ih _ (claim hI c task hw)
  | release c next ih => exact fun w hw => ih (@hI w _ rfl rfl rfl (.of_eq rfl) hw)

/-- So does each request of an action by itself. -/
theorem advance (hI : Ambient I) {runner : Runner β σ} (hrun : ∀ s c, Keeping I (runner.run s c))
    (hres : ∀ c input, Keeping I (runner.resume c input)) {a a' : Action β σ α} {w w' : World β σ}
    (ha : a.advance runner w = some (a', w')) (hw : I w) : I w' := by
  cases a with
  | done result => cases ha
  | joinAll s members re next =>
      simp only [Action.advance] at ha
      split at ha <;> cases ha
      · exact @hI w _ rfl rfl rfl (sameAwaited_newGroup ..) hw
      · exact hw
  | run s c next =>
      simp only [Action.advance] at ha
      split at ha <;> cases ha
      exact hrun s c hw
  | resume c input next =>
      simp only [Action.advance] at ha
      split at ha <;> cases ha
      exact hres c input hw
  | claim c task next =>
      cases ha
      exact claim hI c task hw
  | _ =>
      cases ha
      exact @hI w _ rfl rfl rfl (.of_eq rfl) hw

/-- The loop of a run keeps what its turns keep. -/
theorem drain {resume : CoroutineRef → Input → World β σ → Except Abort Step × World β σ} {s : Nat}
    (hturn : ∀ ⦃w w' t⦄, I w → w.dequeue s = some (t, w') → I (w'.step resume s t).2) (fuel : Nat) :
    Keeping I (World.drain resume s fuel) := by
  induction fuel with
  | zero => exact fun _ hw => hw
  | succ fuel ih =>
      intro w hw
      rw [drain_succ]
      rcases hd : w.dequeue s with - | ⟨t, w'⟩
      · exact hw
      · have hstep := hturn hw hd
        simp only [Option.elim_some]
        rcases hs : w'.step resume s t with ⟨e | ⟨⟩, w''⟩ <;> rw [hs] at hstep
        · exact hstep
        · exact ih hstep

/-- A resume keeps what the runs and resumes inside it keep. -/
theorem resume_succ {bodies : Bodies β σ} {fuel : Nat} (hI : Ambient I)
    (hrun : ∀ s c, Keeping I (World.run bodies fuel s c))
    (hres : ∀ c input, Keeping I (World.resume bodies fuel c input)) (c : CoroutineRef) (input : Input) :
    Keeping I (World.resume bodies (fuel + 1) c input) := by
  intro w hw
  rw [resume_eq]
  have hleave : ∀ frame result, Keeping I fun w => w.leave c frame result := by
    intro frame result w hw
    simp only [World.leave]
    split <;> exact @hI w _ rfl rfl rfl (.of_eq rfl) hw
  have hbody : ∀ a : Action β σ (Frame × Step), Keeping I (a.perform (runner bodies fuel)) :=
    perform hI hrun hres
  exact (enter hI bodies c input).andThen (fun p => (hbody p.2).bind (hleave p.1)) hw

/-- **Whatever is done keeps a property if runs do**, by induction on how deep they may nest. -/
theorem resume {bodies : Bodies β σ} (hI : Ambient I)
    (hrun : ∀ fuel, (∀ c input, Keeping I (World.resume bodies fuel c input)) →
      ∀ s c, Keeping I (World.run bodies fuel s c)) (fuel : Nat) (c : CoroutineRef) (input : Input) :
    Keeping I (World.resume bodies fuel c input) := by
  induction fuel generalizing c input with
  | zero => exact fun _ hw => hw
  | succ fuel ih => exact resume_succ hI (hrun fuel ih) ih c input

end Keeping

end World

end Coroutines
