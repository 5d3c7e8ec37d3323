import Coroutines.Proofs.Renumbering.Runs

/-!
# The resumes of an execution

Which coroutines are resumed, and with what, while an action is carried out or a run goes on: a resume
comes before the resumes inside it (`World.resumesOf`).  In a world and in the renumbered one the same
coroutines are resumed with the same inputs (`World.Renumbered.resumesOf_perform`).
-/

namespace Coroutines

variable {β σ α : Type}

/-- What tells the resumes of runs and of resumes that actions ask for. -/
structure Journal (β σ : Type) where
  run : Nat → CoroutineRef → World β σ → List (CoroutineRef × Input)
  resume : CoroutineRef → Input → World β σ → List (CoroutineRef × Input)

/-- The resumes while an action is carried out. -/
def Action.resumes (runner : Runner β σ) (journal : Journal β σ) :
    Action β σ α → World β σ → List (CoroutineRef × Input)
  | .done _, _ => []
  | .read next, w => (next w.shared).resumes runner journal w
  | .modify f next, w => next.resumes runner journal { w with shared := f w.shared }
  | .identity next, w => (next w.identity.1).resumes runner journal w.identity.2
  | .spawn name body locals next, w =>
    (next (w.spawn name body locals).1).resumes runner journal (w.spawn name body locals).2
  | .joinAll s members returnExceptions next, w =>
    if w.isActive s then
      (next (.ok (w.newGroup members returnExceptions).1)).resumes runner journal
        (w.newGroup members returnExceptions).2
    else (next (.error (.ofFailure .noRunningLoop))).resumes runner journal w
  | .run s c next, w =>
    journal.run s c w ++
      match splitScript (runner.run s c w).1 with
      | .ok r => (next r).resumes runner journal (runner.run s c w).2
      | .error _ => []
  | .resume c input next, w =>
    journal.resume c input w ++
      match splitScript (runner.resume c input w).1 with
      | .ok r => (next r).resumes runner journal (runner.resume c input w).2
      | .error _ => []
  | .claim c task next, w => (next (w.claim c task).1).resumes runner journal (w.claim c task).2
  | .release c next, w => next.resumes runner journal (w.release c)

namespace World

section

variable (resume : CoroutineRef → Input → World β σ → Except Abort Step × World β σ)
variable (resumes : CoroutineRef → Input → World β σ → List (CoroutineRef × Input))

/-- The resumes of a turn. -/
def resumesOfTurn (s t : Nat) (w : World β σ) : List (CoroutineRef × Input) :=
  match w.takeUp s t with
  | (.ok (some (top, input)), w) => resumes top input w
  | _ => []

/-- The resumes of the loop of a run. -/
def resumesOfLoop (s : Nat) : (fuel : Nat) → World β σ → List (CoroutineRef × Input)
  | 0, _ => []
  | fuel + 1, w =>
    match w.dequeue s with
    | none => []
    | some (t, w) =>
      w.resumesOfTurn resumes s t ++
        match w.step resume s t with
        | (.ok (), w) => resumesOfLoop s fuel w
        | _ => []

/-- The resumes of a run. -/
def resumesOfRun (fuel s : Nat) (c : CoroutineRef) (w : World β σ) : List (CoroutineRef × Input) :=
  match w.start s c with
  | (.ok _, w) => w.resumesOfLoop resume resumes s fuel
  | _ => []

end

/-- A resume of a coroutine, and the resumes inside it. -/
def resumesOf (bodies : Bodies β σ) :
    (fuel : Nat) → CoroutineRef → Input → World β σ → List (CoroutineRef × Input)
  | 0, _, _, _ => []
  | fuel + 1, c, input, w =>
    match w.enter bodies c input with
    | (.ok (_, action), w) =>
      (c, input) :: action.resumes (runner bodies fuel)
        ⟨fun s c w => w.resumesOfRun (resume bodies fuel) (resumesOf bodies fuel) fuel s c,
          resumesOf bodies fuel⟩ w
    | _ => []

/-- What tells the resumes of runs and of resumes of bodies, within a bound. -/
def journal (bodies : Bodies β σ) (fuel : Nat) : Journal β σ where
  run s c w := w.resumesOfRun (resume bodies fuel) (resumesOf bodies fuel) fuel s c
  resume := resumesOf bodies fuel

variable {w v : World β σ} {r : Renumbering} {num : Nat → Nat}

namespace Renumbered

section

variable {resume : CoroutineRef → Input → World β σ → Except Abort Step × World β σ}
variable {resumes : CoroutineRef → Input → World β σ → List (CoroutineRef × Input)}

theorem resumesOfTurn (h : w.Renumbered r num v) (hlog : ∀ c input {num} {w v : World β σ},
    w.Renumbered r num v → resumes c input v = resumes c input w) (s t : Nat) :
    v.resumesOfTurn resumes s (r.row t) = w.resumesOfTurn resumes s t := by
  obtain ⟨he, -, num', -, hr⟩ := h.takeUp s t
  simp only [World.resumesOfTurn]
  rcases hw : w.takeUp s t with ⟨x, w'⟩
  rcases hv : v.takeUp s (r.row t) with ⟨y, v'⟩
  rw [hw, hv] at he hr
  obtain rfl : y = x := he
  rcases y with e | - | ⟨top, input⟩
  · rfl
  · rfl
  · exact hlog top input hr

theorem resumesOfLoop (h : w.Renumbered r num v) (hres : ∀ c input, r.Respects (resume c input))
    (hlog : ∀ c input {num} {w v : World β σ}, w.Renumbered r num v →
      resumes c input v = resumes c input w) (s fuel : Nat) :
    v.resumesOfLoop resume resumes s fuel = w.resumesOfLoop resume resumes s fuel := by
  induction fuel generalizing w v num with
  | zero => rfl
  | succ fuel ih =>
      simp only [World.resumesOfLoop]
      rcases hd : w.dequeue s with - | ⟨t, w'⟩
      · rw [h.dequeue_none hd]
      · obtain ⟨v', hv, hr, ht, hnum⟩ := h.dequeue_some hd
        obtain ⟨he, -, num', -, hr'⟩ := hr.step hres ht hnum
        simp only [hv, hr.resumesOfTurn hlog]
        rcases hw : w'.step resume s t with ⟨x, w''⟩
        rcases hv' : v'.step resume s (r.row t) with ⟨y, v''⟩
        rw [hw, hv'] at he hr'
        obtain rfl : y = x := he
        cases y with
        | error e => rfl
        | ok u => exact congrArg _ (ih hr')

theorem resumesOfRun (h : w.Renumbered r num v) (hres : ∀ c input, r.Respects (resume c input))
    (hlog : ∀ c input {num} {w v : World β σ}, w.Renumbered r num v →
      resumes c input v = resumes c input w) (fuel s : Nat) (c : CoroutineRef) :
    v.resumesOfRun resume resumes fuel s c = w.resumesOfRun resume resumes fuel s c := by
  simp only [World.resumesOfRun]
  rcases h.start s c with ⟨f, w', v', hw, hv, -⟩ | ⟨w', v', num', hw, hv, -, -, hr⟩
  · simp only [hw, hv]
  · simp only [hw, hv]
    exact hr.resumesOfLoop hres hlog s fuel

end

theorem resumes_perform (h : w.Renumbered r num v) {runner : Runner β σ} {journal : Journal β σ}
    (hrun : ∀ s c, r.Respects (runner.run s c)) (hres : ∀ c input, r.Respects (runner.resume c input))
    (hlog : ∀ s c {num} {w v : World β σ}, w.Renumbered r num v →
      journal.run s c v = journal.run s c w)
    (hlog' : ∀ c input {num} {w v : World β σ}, w.Renumbered r num v →
      journal.resume c input v = journal.resume c input w) (a : Action β σ α) :
    a.resumes runner journal v = a.resumes runner journal w := by
  induction a generalizing w v num with
  | done result => rfl
  | read next ih =>
      simp only [Action.resumes, h.shared]
      exact ih _ h
  | modify f next ih =>
      have hm : ({ w with shared := f w.shared } : World β σ).Renumbered r num
          { v with shared := f v.shared } := { h with shared := congrArg f h.shared }
      exact ih hm
  | identity next ih =>
      have hm : w.identity.2.Renumbered r num v.identity.2 :=
        { h with identity := congrArg (· + 1) h.identity }
      simp only [Action.resumes]
      rw [show v.identity.1 = w.identity.1 from h.identity]
      exact ih _ hm
  | spawn name body locals next ih =>
      obtain ⟨he, hm⟩ := h.spawn name body locals
      simp only [Action.resumes, he]
      exact ih _ hm
  | joinAll s members re next ih =>
      simp only [Action.resumes, h.isActive_eq]
      split
      · obtain ⟨he, hm⟩ := h.newGroup members re
        rw [he]
        exact ih _ hm
      · exact ih _ h
  | run s c next ih =>
      obtain ⟨he, -, num', -, hr⟩ := hrun s c h
      simp only [Action.resumes, hlog s c h, he]
      cases splitScript (runner.run s c w).1 with
      | error e => rfl
      | ok x => exact congrArg _ (ih x hr)
  | resume c input next ih =>
      obtain ⟨he, -, num', -, hr⟩ := hres c input h
      simp only [Action.resumes, hlog' c input h, he]
      cases splitScript (runner.resume c input w).1 with
      | error e => rfl
      | ok x => exact congrArg _ (ih x hr)
  | claim c task next ih =>
      obtain ⟨he, hm⟩ := h.claim c task task
      simp only [Action.resumes, he]
      exact ih _ hm
  | release c next ih => exact ih (h.release c)

/-- **A resume in a renumbered world resumes the same coroutines with the same inputs**, by induction on
how deep runs may nest. -/
theorem resumesOf (h : w.Renumbered r num v) (bodies : Bodies β σ) (fuel : Nat) (c : CoroutineRef)
    (input : Input) : World.resumesOf bodies fuel c input v = World.resumesOf bodies fuel c input w := by
  induction fuel generalizing w v num c input with
  | zero => rfl
  | succ fuel ih =>
      obtain ⟨he, -, num', -, hr⟩ := h.enter bodies c input
      simp only [World.resumesOf]
      rcases hw : w.enter bodies c input with ⟨x, w'⟩
      rcases hv : v.enter bodies c input with ⟨y, v'⟩
      rw [hw, hv] at he hr
      obtain rfl : y = x := he
      cases y with
      | error e => rfl
      | ok p =>
          refine congrArg _ (hr.resumes_perform (r.respects_run bodies fuel)
            (r.respects_resume bodies fuel) (fun s c _ _ _ h => ?_) (fun c input _ _ _ h => ?_) p.2)
          · exact h.resumesOfRun (r.respects_resume bodies fuel) (fun c input _ _ _ h => ih h c input)
              fuel s c
          · exact ih h c input

/-- A run in a renumbered world resumes the same coroutines with the same inputs. -/
theorem journal_run (h : w.Renumbered r num v) (bodies : Bodies β σ) (fuel s : Nat)
    (c : CoroutineRef) : (journal bodies fuel).run s c v = (journal bodies fuel).run s c w :=
  h.resumesOfRun (r.respects_resume bodies fuel) (fun c input _ _ _ h => h.resumesOf bodies fuel c input)
    fuel s c

/-- **Whatever is done in a renumbered world resumes the same coroutines with the same inputs.** -/
theorem resumesOf_perform (h : w.Renumbered r num v) (bodies : Bodies β σ) (fuel : Nat)
    (a : Action β σ α) : a.resumes (runner bodies fuel) (journal bodies fuel) v =
      a.resumes (runner bodies fuel) (journal bodies fuel) w :=
  h.resumes_perform (r.respects_run bodies fuel) (r.respects_resume bodies fuel)
    (fun s c _ _ _ h => h.journal_run bodies fuel s c)
    (fun c input _ _ _ h => h.resumesOf bodies fuel c input) a

end Renumbered

end World

end Coroutines
