import Coroutines.Proofs.Budget.Blind

/-!
# The moments of executions

A host does one thing after another in a world (`World.History`), and while one is done, it and the bodies
that are entered on the way come to their requests (`World.Visits`).  What is pending then, the bodies that
wait for runs and the runs that go on with other tasks, is a stack (`Rest`), and the whole execution ends
as this does from the moment on (`World.Visits.finish`).
-/

namespace Coroutines

/-- The end of a run after its loop, which gives the outcome of its root and leaves its scheduler idle. -/
def World.endOfRun {β σ : Type} (s root : Nat) (c : CoroutineRef) (x : Except Abort Unit × World β σ) :
    Except Abort Value × World β σ :=
  let ended := World.andThen (fun _ w => w.conclude s root c) x
  (ended.1, (ended.2.release c).deactivate s)

/-- What is pending inside an execution with results of `γ`, from a result of `α` on. -/
inductive Rest (β σ γ : Type) : Type → Type 1
  | done : Rest β σ γ γ
  /-- The body of the coroutine `top` ends, and the task `t` goes on from its step. -/
  | turn (s t : Nat) (top : CoroutineRef) (frame : Frame) (rest : Rest β σ γ Unit) :
      Rest β σ γ (Frame × Step)
  /-- A turn ends; the run goes on for a number of turns, and what asked for it goes on with its result. -/
  | loop {α : Type} (s root turns : Nat) (c : CoroutineRef) (next : Except Record Value → Action β σ α)
      (rest : Rest β σ γ α) : Rest β σ γ Unit
  /-- The body of a coroutine ends that was resumed outside a run. -/
  | resume {α : Type} (c : CoroutineRef) (frame : Frame) (next : Except Record Step → Action β σ α)
      (rest : Rest β σ γ α) : Rest β σ γ (Frame × Step)

namespace Rest

variable {β σ γ α : Type}

/-- The schedulers of the runs in progress. -/
def schedulers : {α : Type} → Rest β σ γ α → List Nat
  | _, .done => []
  | _, .turn _ _ _ _ rest => rest.schedulers
  | _, .loop s _ _ _ _ rest => s :: rest.schedulers
  | _, .resume _ _ _ rest => rest.schedulers

/-- The tasks of what is pending are among the first `n`, and its turns belong to runs in progress. -/
def Fits (n : Nat) : {α : Type} → Rest β σ γ α → Prop
  | _, .done => True
  | _, .turn s t _ _ rest => t < n ∧ s ∈ rest.schedulers ∧ rest.Fits n
  | _, .loop _ root _ _ _ rest => root < n ∧ rest.Fits n
  | _, .resume _ _ _ rest => rest.Fits n

theorem Fits.mono {rest : Rest β σ γ α} {n m : Nat} (h : rest.Fits n) (hm : n ≤ m) : rest.Fits m := by
  induction rest with
  | done => exact h
  | turn s t top frame rest ih => exact ⟨Nat.lt_of_lt_of_le h.1 hm, h.2.1, ih h.2.2⟩
  | loop s root turns c next rest ih => exact ⟨Nat.lt_of_lt_of_le h.1 hm, ih h.2⟩
  | resume c frame next rest ih => exact ih h

/-- What is pending goes on from a result. -/
def finish (bodies : Bodies β σ) : {α : Type} → Rest β σ γ α → (depth : Nat) →
    Except Abort α × World β σ → Except Abort γ × World β σ
  | _, .done, _, x => x
  | _, .turn s t top frame rest, depth, x =>
    rest.finish bodies (depth + 1)
      (World.andThen (fun step w => w.absorb s t top step) (x.2.leave top frame x.1))
  | _, .loop s root turns c next rest, depth, x =>
    let ended := World.endOfRun s root c
      (World.andThen (fun _ w => World.drain (World.resume bodies depth) s turns w) x)
    rest.finish bodies depth (World.andThen (fun r w => (next r).perform (World.runner bodies depth) w)
      (splitScript ended.1, ended.2))
  | _, .resume c frame next rest, depth, x =>
    let left := x.2.leave c frame x.1
    rest.finish bodies (depth + 1)
      (World.andThen (fun r w => (next r).perform (World.runner bodies (depth + 1)) w)
        (splitScript left.1, left.2))

end Rest

namespace World

variable {β σ α γ : Type}

/-- The world after a number of turns of a run, if it makes them. -/
def afterTurns (resume : CoroutineRef → Input → World β σ → Except Abort Step × World β σ) (s : Nat) :
    Nat → World β σ → Option (World β σ)
  | 0, w => some w
  | n + 1, w => (w.dequeue s).bind fun x =>
    match x.2.step resume s x.1 with
    | (.ok (), w) => afterTurns resume s n w
    | (.error _, _) => none

/-- The loop of a run goes on after its first turns. -/
theorem drain_add {resume : CoroutineRef → Input → World β σ → Except Abort Step × World β σ} {s : Nat}
    {n : Nat} {w w' : World β σ} (h : afterTurns resume s n w = some w') (k : Nat) :
    drain resume s (n + k) w = drain resume s k w' := by
  induction n generalizing w with
  | zero =>
      cases h
      rw [Nat.zero_add]
  | succ n ih =>
      obtain ⟨⟨t, w₁⟩, hd, h⟩ := Option.bind_eq_some_iff.mp h
      rw [Nat.add_right_comm, drain_succ, hd, Option.elim_some]
      rcases hs : w₁.step resume s t with ⟨e | ⟨⟩, w₂⟩ <;> simp only [hs] at h
      · cases h
      · exact ih h

/-- Actions are carried out one after another, with any bodies, and however they end. -/
inductive History : World β σ → World β σ → Prop
  | refl {w : World β σ} : History w w
  | more {α : Type} {w w₁ : World β σ} (h : History w w₁) (bodies : Bodies β σ) (fuel : Nat)
      (a : Action β σ α) : History w (a.perform (runner bodies fuel) w₁).2

/-- An action asks for a run, and after some turns this comes to resume a coroutine. -/
inductive TakesUp (bodies : Bodies β σ) (depth : Nat) (rest : Rest β σ γ α) : Action β σ α → World β σ →
    Rest β σ γ Unit → (s t : Nat) → (top : CoroutineRef) → Input → World β σ → Prop
  | run {s root t n left : Nat} {c top : CoroutineRef} {next : Except Record Value → Action β σ α}
      {input : Input} {w w₁ w₂ w₃ w₄ : World β σ} (hs : w.start s c = (.ok root, w₁))
      (hturns : afterTurns (resume bodies depth) s n w₁ = some w₂)
      (hd : w₂.dequeue s = some (t, w₃)) (ht : w₃.takeUp s t = (.ok (some (top, input)), w₄))
      (hn : n + (left + 1) = depth) :
      TakesUp bodies depth rest (.run s c next) w (.loop s root left c next rest) s t top input w₄

/-- While an action is carried out, what is left of it or of a body comes to be carried out, and the rest
is pending. -/
inductive Visits (bodies : Bodies β σ) (a : Action β σ γ) (fuel : Nat) (w : World β σ) :
    {α : Type} → Rest β σ γ α → Action β σ α → (depth : Nat) → World β σ → Prop
  | refl : Visits bodies a fuel w .done a fuel w
  | request {α : Type} {rest : Rest β σ γ α} {a₁ a₂ : Action β σ α} {depth : Nat} {w₁ w₂ : World β σ}
      (h : Visits bodies a fuel w rest a₁ depth w₁)
      (ha : a₁.advance (runner bodies depth) w₁ = some (a₂, w₂)) :
      Visits bodies a fuel w rest a₂ depth w₂
  | turn {α : Type} {rest : Rest β σ γ α} {loop : Rest β σ γ Unit} {a₁ : Action β σ α}
      {body : Action β σ (Frame × Step)} {depth s t : Nat} {top : CoroutineRef} {input : Input}
      {frame : Frame} {w₁ w₂ w₃ : World β σ} (h : Visits bodies a fuel w rest a₁ (depth + 1) w₁)
      (ht : TakesUp bodies (depth + 1) rest a₁ w₁ loop s t top input w₂)
      (he : w₂.enter bodies top input = (.ok (frame, body), w₃)) :
      Visits bodies a fuel w (.turn s t top frame loop) body depth w₃
  | resume {α : Type} {rest : Rest β σ γ α} {body : Action β σ (Frame × Step)} {depth : Nat}
      {c : CoroutineRef} {input : Input} {next : Except Record Step → Action β σ α} {frame : Frame}
      {w₁ w₂ : World β σ} (h : Visits bodies a fuel w rest (.resume c input next) (depth + 1) w₁)
      (he : w₁.enter bodies c input = (.ok (frame, body), w₂)) :
      Visits bodies a fuel w (.resume c frame next rest) body depth w₂

/-- An action is left to carry out, at a moment after a history of a world that was empty. -/
def Moment (limits : List (Option Number)) (shared : σ) (bodies : Bodies β σ) (rest : Rest β σ γ α)
    (a : Action β σ α) (depth : Nat) (w : World β σ) : Prop :=
  ∃ (a₀ : Action β σ γ) (fuel : Nat) (w₀ : World β σ), History (initial limits shared) w₀ ∧
    Visits bodies a₀ fuel w₀ rest a depth w

@[simp] theorem runner_run (bodies : Bodies β σ) (depth s : Nat) (c : CoroutineRef) (w : World β σ) :
    (runner bodies depth).run s c w = w.run bodies depth s c := rfl

@[simp] theorem runner_resume (bodies : Bodies β σ) (depth : Nat) (c : CoroutineRef) (input : Input)
    (w : World β σ) : (runner bodies depth).resume c input w = w.resume bodies depth c input := rfl

/-- The run goes on from the turn that resumes a coroutine. -/
theorem TakesUp.finish {bodies : Bodies β σ} {depth s t : Nat} {rest : Rest β σ γ α}
    {a : Action β σ α} {loop : Rest β σ γ Unit} {top : CoroutineRef} {input : Input} {w w' : World β σ}
    (h : TakesUp bodies depth rest a w loop s t top input w') :
    rest.finish bodies depth (a.perform (runner bodies depth) w) = loop.finish bodies depth
      (andThen (fun step w => w.absorb s t top step) (w'.resume bodies depth top input)) := by
  obtain ⟨hs, hturns, hd, ht, hn⟩ := h
  next root n left c next w₁ w₂ w₃ =>
  have hstep : w₃.step (World.resume bodies depth) s t =
      andThen (fun step w => w.absorb s t top step) (World.resume bodies depth top input w') := by
    rw [step_eq, ht]
    rfl
  have hdrain := drain_add hturns (left + 1)
  rw [hn, drain_succ, hd, Option.elim_some, hstep] at hdrain
  rw [perform_run, runner_run, World.run, runWith_eq, hs, andThen, hdrain]
  rfl

/-- **The whole execution ends as what is pending does from the moment on.** -/
theorem Visits.finish {bodies : Bodies β σ} {a : Action β σ γ} {fuel : Nat} {rest : Rest β σ γ α}
    {a' : Action β σ α} {depth : Nat} {w w' : World β σ}
    (h : Visits bodies a fuel w rest a' depth w') :
    a.perform (runner bodies fuel) w =
      rest.finish bodies depth (a'.perform (runner bodies depth) w') := by
  induction h with
  | refl => rfl
  | request _ ha ih => rw [ih, Action.perform_advance ha]
  | turn _ ht he ih =>
      rw [ih, ht.finish, Rest.finish, resume_eq, he]
      rfl
  | resume _ he ih =>
      rw [ih, Rest.finish, perform_resume, runner_resume, resume_eq, he]
      rfl

end World

end Coroutines
