import Coroutines.Proofs.Tables

/-!
# Executions

The stretches of an execution that properties speak about: the requests of an action one by one
(`Reaches`), the turns of a run (`Turns`), and the runs that are opened while an action is carried
out, inside one another (`Opens`).
-/

namespace Coroutines

namespace Action

variable {β σ α : Type}

/-- Carries out the first request of an action, if it has one and goes on after it. -/
def advance (runner : Runner β σ) : Action β σ α → World β σ → Option (Action β σ α × World β σ)
  | .done _, _ => none
  | .read next, w => some (next w.shared, w)
  | .modify f next, w => some (next, { w with shared := f w.shared })
  | .identity next, w => some (next w.identity.1, w.identity.2)
  | .spawn name body locals next, w =>
    some (next (w.spawn name body locals).1, (w.spawn name body locals).2)
  | .joinAll s members returnExceptions next, w =>
    if w.isActive s then
      some (next (.ok (w.newGroup members returnExceptions).1),
        (w.newGroup members returnExceptions).2)
    else some (next (.error (.ofFailure .noRunningLoop)), w)
  | .run s c next, w =>
    match splitScript (runner.run s c w).1 with
    | .ok r => some (next r, (runner.run s c w).2)
    | .error _ => none
  | .resume c input next, w =>
    match splitScript (runner.resume c input w).1 with
    | .ok r => some (next r, (runner.resume c input w).2)
    | .error _ => none
  | .claim c task next, w => some (next (w.claim c task).1, (w.claim c task).2)
  | .release c next, w => some (next, w.release c)

/-- An action comes to what is left of it, in the world after the requests before. -/
inductive Reaches (runner : Runner β σ) (action : Action β σ α) (w : World β σ) :
    Action β σ α → World β σ → Prop
  | refl : Reaches runner action w action w
  | more {a a' : Action β σ α} {w₁ w₂ : World β σ} (h : Reaches runner action w a w₁)
      (h' : a.advance runner w₁ = some (a', w₂)) : Reaches runner action w a' w₂

/-- What is left of an action ends as the action does. -/
theorem perform_advance {runner : Runner β σ} {a a' : Action β σ α} {w w' : World β σ}
    (h : a.advance runner w = some (a', w')) : a.perform runner w = a'.perform runner w' := by
  cases a with
  | done result => cases h
  | joinAll s members re next =>
      simp only [advance] at h
      split at h <;>
        · next e =>
            cases h
            simp only [perform, e]
            rfl
  | run s c next =>
      simp only [advance] at h
      split at h
      · next e =>
          cases h
          simp only [perform, e]
      · cases h
  | resume c input next =>
      simp only [advance] at h
      split at h
      · next e =>
          cases h
          simp only [perform, e]
      · cases h
  | _ =>
      cases h
      rfl

/-- What is left of an orderly action is orderly. -/
theorem Orderly.advance {runner : Runner β σ} {a a' : Action β σ α} {w w' : World β σ}
    (h : a.Orderly) (he : a.advance runner w = some (a', w')) : a'.Orderly := by
  cases a with
  | done result => cases he
  | joinAll s members re next =>
      simp only [Action.advance] at he
      split at he <;>
        · cases he
          exact h _
  | run s c next =>
      simp only [Action.advance] at he
      split at he
      · cases he
        exact h _
      · cases he
  | resume c input next => exact h.elim
  | claim c task next => exact h.elim
  | release c next => exact h.elim
  | modify f next =>
      cases he
      exact h
  | _ =>
      cases he
      exact h _

end Action

namespace World

variable {β σ : Type}

/-- An error that no script catches breaks a coroutine off. -/
theorem leave_of_splitScript {w : World β σ} {result : Except Abort (Frame × Step)} {e : Abort}
    (h : splitScript result = .error e) (c : CoroutineRef) (frame : Frame) :
    w.leave c frame result = (.error e, w.modifyHandle c Handle.broken) := by
  rcases result with (_ | _ | _ | _ | _) | _ <;> cases h <;> rfl

/-- Otherwise it leaves off with a step. -/
theorem leave_cases (w : World β σ) (c : CoroutineRef) (frame : Frame)
    (result : Except Abort (Frame × Step)) :
    (∃ e, splitScript result = .error e ∧ result = .error e) ∨
      ∃ frame' step, w.leave c frame result = (.ok step, w.modifyHandle c (·.left frame' step)) := by
  rcases result with (r | _ | _ | _ | _) | ⟨frame', step⟩
  · exact .inr ⟨frame, .raise r, rfl⟩
  · exact .inl ⟨_, rfl, rfl⟩
  · exact .inl ⟨_, rfl, rfl⟩
  · exact .inl ⟨_, rfl, rfl⟩
  · exact .inl ⟨_, rfl, rfl⟩
  · exact .inr ⟨frame', step, rfl⟩

/-- The coroutine that a turn resumes, with the step that the resume ends with. -/
def resumed (resume : CoroutineRef → Input → World β σ → Except Abort Step × World β σ)
    (w : World β σ) (s t : Nat) : List (CoroutineRef × Step) :=
  match w.takeUp s t with
  | (.ok (some (top, input)), w) =>
    match resume top input w with
    | (.ok step, _) => [(top, step)]
    | _ => []
  | _ => []

/-- A run that was at its loop head comes to its loop head again, after turns that resumed the
coroutines of a log. -/
inductive Turns (resume : CoroutineRef → Input → World β σ → Except Abort Step × World β σ)
    (s : Nat) (w : World β σ) : List (CoroutineRef × Step) → World β σ → Prop
  | refl : Turns resume s w [] w
  | more {t : Nat} {log : List (CoroutineRef × Step)} {w₁ w₂ w₃ : World β σ}
      (h : Turns resume s w log w₁) (hd : w₁.dequeue s = some (t, w₂))
      (hs : w₂.step resume s t = (.ok (), w₃)) :
      Turns resume s w (log ++ w₂.resumed resume s t) w₃

theorem Turns.trans {resume : CoroutineRef → Input → World β σ → Except Abort Step × World β σ}
    {s : Nat} {w w' w'' : World β σ} {log log' : List (CoroutineRef × Step)}
    (h : Turns resume s w log w') (h' : Turns resume s w' log' w'') :
    Turns resume s w (log ++ log') w'' := by
  induction h' with
  | refl => simpa using h
  | more _ hd hs ih => simpa using ih.more hd hs

/-- How the loop of a run ends, after the turns that it made: with an empty queue, at its bound, or in
a turn that fails. -/
theorem drain_cases (resume : CoroutineRef → Input → World β σ → Except Abort Step × World β σ)
    (s fuel : Nat) (w : World β σ) : ∃ log w', Turns resume s w log w' ∧
      (drain resume s fuel w = (.ok (), w') ∧ w'.dequeue s = none ∨
        drain resume s fuel w = (.error .outOfFuel, w') ∨
        ∃ t e w₁ w₂, w'.dequeue s = some (t, w₁) ∧ w₁.step resume s t = (.error e, w₂) ∧
          drain resume s fuel w = (.error e, w₂)) := by
  induction fuel generalizing w with
  | zero => exact ⟨[], w, .refl, .inr (.inl rfl)⟩
  | succ fuel ih =>
      rcases hd : w.dequeue s with _ | ⟨t, w₁⟩
      · exact ⟨[], w, .refl, .inl ⟨by simp only [drain, hd], hd⟩⟩
      · rcases hs : w₁.step resume s t with ⟨e | ⟨⟩, w₂⟩
        · exact ⟨[], w, .refl, .inr (.inr ⟨t, e, w₁, w₂, hd, hs, by simp only [drain, hd, hs]⟩)⟩
        · obtain ⟨log, w', hturns, hcases⟩ := ih w₂
          have hnext : drain resume s (fuel + 1) w = drain resume s fuel w₂ := by
            simp only [drain, hd, hs]
          exact ⟨_, w', (Turns.more .refl hd hs).trans hturns, hnext ▸ hcases⟩

/-- A run of a coroutine is opened while an action is carried out in a world, and stands at its
first turn: a run that the action itself asks for, or one that a body asks for while a run is in
progress.  Runs inside it nest at most `depth` deep. -/
inductive Opens (bodies : Bodies β σ) : {α : Type} → Action β σ α → (fuel : Nat) → World β σ →
    (s : Nat) → (c : CoroutineRef) → (depth root : Nat) → World β σ → Prop
  | direct {α : Type} {action : Action β σ α} {fuel s root : Nat} {c : CoroutineRef}
      {next : Except Record Value → Action β σ α} {w w₁ w₂ : World β σ}
      (ha : action.Reaches (runner bodies fuel) w (.run s c next) w₁)
      (hs : w₁.start s c = (.ok root, w₂)) : Opens bodies action fuel w s c fuel root w₂
  | nested {α : Type} {action : Action β σ α} {fuel depth depth' s s' t root root' : Nat}
      {c c' top : CoroutineRef} {input : Input} {frame : Frame}
      {body : Action β σ (Frame × Step)} {log : List (CoroutineRef × Step)}
      {w w₁ w₂ w₃ w₄ w₅ w₆ : World β σ}
      (h : Opens bodies action fuel w s c (depth + 1) root w₁)
      (hturns : Turns (resume bodies (depth + 1)) s w₁ log w₂)
      (hd : w₂.dequeue s = some (t, w₃)) (ht : w₃.takeUp s t = (.ok (some (top, input)), w₄))
      (he : w₄.enter bodies top input = (.ok (frame, body), w₅))
      (hb : Opens bodies body depth w₅ s' c' depth' root' w₆) :
      Opens bodies action fuel w s' c' depth' root' w₆

end World

/-! ### A small program -/

/-- The bodies of two coroutines: `true` gathers one coroutine and ends as it does, `false` returns
at once. -/
def gathering : Bodies Bool Unit where
  resume
    | true, frame, .start =>
      .spawn "child" false [] fun c => .joinAll 0 [c] false fun
        | .ok g => .done (.ok (frame, .await (.group g)))
        | .error r => .raise r
    | true, frame, .value v => .done (.ok (frame, .ret v))
    | true, frame, .throw r => .done (.ok (frame, .raise r))
    | false, frame, _ => .done (.ok (frame, .ret .none))
  forgets _ := true

theorem gathering_orderly : gathering.Orderly := by
  intro body frame input
  cases body with
  | false => exact trivial
  | true =>
      cases input with
      | start =>
          intro c r
          cases r <;> exact trivial
      | _ => exact trivial

/-- Runs a coroutine of the gathering body. -/
def runGathering : Action Bool Unit Value :=
  .spawn "main" true [] fun c => .run 0 c Action.ofOutcome

theorem runGathering_orderly : runGathering.Orderly := by
  intro c r
  cases r <;> exact trivial

/-- The gathering coroutine before its first turn. -/
def gatheringStarts : World Bool Unit :=
  (((World.initial [none] ()).spawn "main" true []).2.start 0 ⟨0, "main"⟩).2

/-- A world after a turn of its only ready task. -/
def gatheringTurn (w : World Bool Unit) (t : Nat) : World Bool Unit :=
  ((w.modifyContext 0 fun ctx => { ctx with ready := [] }).step (World.resume gathering 1) 0 t).2

/-- The gathering coroutine waits for its group. -/
def gatheringWaits : World Bool Unit := gatheringTurn gatheringStarts 0

/-- The member of the group has returned. -/
def gatheringResumes : World Bool Unit := gatheringTurn gatheringWaits 1

/-- The gathering coroutine has returned. -/
def gatheringEnds : World Bool Unit := gatheringTurn gatheringResumes 0

def gatheringLog : List (CoroutineRef × Step) :=
  [(⟨0, "main"⟩, .await (.group ⟨0, 1⟩)), (⟨1, "child"⟩, .ret .none),
    (⟨0, "main"⟩, .ret (.list [.none]))]

theorem opens_gathering : World.Opens gathering runGathering 1 (World.initial [none] ()) 0
    ⟨0, "main"⟩ 1 0 gatheringStarts := .direct (.more .refl rfl) rfl

theorem turns_gathering : World.Turns (World.resume gathering 1) 0 gatheringStarts
    (gatheringLog.take 1) gatheringWaits := by
  let w := gatheringStarts.modifyContext 0 fun ctx => { ctx with ready := [] }
  have hd : gatheringStarts.dequeue 0 = some (0, w) := rfl
  have hs : w.step (World.resume gathering 1) 0 0 = (.ok (), gatheringWaits) := rfl
  exact World.Turns.more .refl hd hs

/-- The bodies of two coroutines, as in `gathering`, but the group has the one coroutine as both its
members. -/
def gatheringTwice : Bodies Bool Unit where
  resume
    | true, frame, .start =>
      .spawn "child" false [] fun c => .joinAll 0 [c, c] false fun
        | .ok g => .done (.ok (frame, .await (.group g)))
        | .error r => .raise r
    | body, frame, input => gathering.resume body frame input
  forgets _ := true

theorem gatheringTwice_orderly : gatheringTwice.Orderly := by
  intro body frame input
  cases body with
  | false => exact gathering_orderly false frame input
  | true =>
      cases input with
      | start =>
          intro c r
          cases r <;> exact trivial
      | _ => exact trivial

/-- A world after a turn of its only ready task. -/
def gatheringTwiceTurn (w : World Bool Unit) (t : Nat) : World Bool Unit :=
  ((w.modifyContext 0 fun ctx => { ctx with ready := [] }).step (World.resume gatheringTwice 1) 0 t).2

/-- The coroutine waits for its group, the second member of which was refused. -/
def gatheringTwiceWaits : World Bool Unit := gatheringTwiceTurn gatheringStarts 0

/-- The first member of the group has returned. -/
def gatheringTwiceResumes : World Bool Unit := gatheringTwiceTurn gatheringTwiceWaits 1

/-- The coroutine has failed. -/
def gatheringTwiceEnds : World Bool Unit := gatheringTwiceTurn gatheringTwiceResumes 0

end Coroutines
