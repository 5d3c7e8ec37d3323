import Coroutines.Proofs.Executions

/-!
# Where a failure of a run came from

The turns of a run, newest first, tell how an exception came to the task that failed with it: from the
resume that raised it, handed on to the coroutine that awaited, inside one task or out of a group to the
task that awaited the group, and at last to the root.  The scopes that were live for the exception are
read off these turns (`failedScopes`), without a look at the frames that it has gathered.  What is left
open is what a single resume adds to the scopes of the exception that it was handed.
-/

namespace Coroutines

namespace Record

/-- The scopes in which the frames stand, outermost first. -/
def scopes (r : Record) : List String := r.frames.map (·.site.name)

@[simp] theorem scopes_ofFailure (f : Failure) : (ofFailure f).scopes = [] := rfl

@[simp] theorem scopes_within (r : Record) (frame : CallFrame) :
    (r.within frame).scopes = frame.site.name :: r.scopes := rfl

end Record

/-- A turn of a run that resumed a coroutine: the worlds before and after the resume, and what it ended
with. -/
structure Episode (β σ : Type) where
  task : Nat
  coroutine : CoroutineRef
  input : Input
  entered : World β σ
  step : Step
  left : World β σ

variable {β σ : Type}

namespace Episode

/-- The group that the coroutine came to await, unless the await was refused. -/
def joined? (e : Episode β σ) : Option GroupRef :=
  match e.step with
  | .await (.group g) => if e.left.groupTaken g then none else some g
  | _ => none

theorem joined?_eq_some_iff {e : Episode β σ} {g : GroupRef} :
    e.joined? = some g ↔ e.step = .await (.group g) ∧ e.left.groupTaken g = false := by
  unfold joined?
  split
  · next g' h =>
      cases ht : e.left.groupTaken g' with
      | true =>
          refine ⟨fun h' => (by cases h'), fun h' => ?_⟩
          obtain ⟨hg, hfree⟩ := h'
          cases h.symm.trans hg
          rw [ht] at hfree
          cases hfree
      | false =>
          refine ⟨fun h' => ?_, fun h' => ?_⟩
          · cases h'
            exact ⟨h, ht⟩
          · cases h.symm.trans h'.1
            rfl
  · next h => exact ⟨fun h' => (by cases h'), fun h' => (h g h'.1).elim⟩

end Episode

namespace World

/-- A turn as far as it resumes a coroutine. -/
def episode? (resume : CoroutineRef → Input → World β σ → Except Abort Step × World β σ)
    (w : World β σ) (s t : Nat) : Option (Episode β σ) :=
  match w.takeUp s t with
  | (.ok (some (top, input)), w) =>
    match resume top input w with
    | (.ok step, w') => some ⟨t, top, input, w, step, w'⟩
    | _ => none
  | _ => none

/-- The turns of a run to its end, newest first, before those that it had already taken. -/
def history (resume : CoroutineRef → Input → World β σ → Except Abort Step × World β σ) (s : Nat) :
    (fuel : Nat) → (past : List (Episode β σ)) → World β σ → List (Episode β σ)
  | 0, past, _ => past
  | fuel + 1, past, w =>
    match w.dequeue s with
    | none => past
    | some (t, w) =>
      match w.step resume s t with
      | (.ok (), w') => history resume s fuel ((w.episode? resume s t).toList ++ past) w'
      | (.error _, _) => past

/-- The first member of a group whose task has failed. -/
def firstFailed? (w : World β σ) (g : GroupRef) : Option Nat :=
  (w.groups.get? g.id).bind fun x => x.tasks.find? fun u => (w.taskOutcome? u).any (!·.isOk)

/-- The scopes of the exception that a task is handed, given those of the exceptions that the tasks came
to in the past: the exception of the coroutine that it had just resumed, that of the first member that
failed of the group that it awaits, or else one that no scope raised, as its await was refused. -/
def handedScopes (failed : Nat → List String) (past : List (Episode β σ)) (w : World β σ) (t : Nat) :
    List String :=
  match past.find? (·.task = t) with
  | none => []
  | some e =>
    match e.joined? with
    | some g => ((w.firstFailed? g).map failed).getD []
    | none =>
      match e.step with
      | .raise _ => failed t
      | _ => []

/-- The scopes of the exception that the last resume of a task raised; `own` gives those that were live
when it raised the exception, from those of the exception that it was handed. -/
def failedScopes (own : Episode β σ → List String → List String) :
    List (Episode β σ) → Nat → List String
  | [], _ => []
  | e :: past, t =>
    if e.task = t then own e (handedScopes (failedScopes own past) past e.entered t)
    else failedScopes own past t

/-- The scopes of the exception that a run ends with, those of its root; a run that is refused, or broken
off at its limit, fails in no scope of its own. -/
def runScopes (resume : CoroutineRef → Input → World β σ → Except Abort Step × World β σ)
    (own : Episode β σ → List String → List String) (fuel s : Nat) (c : CoroutineRef)
    (w : World β σ) : List String :=
  match w.start s c with
  | (.error _, _) => []
  | (.ok root, w) =>
    match drain resume s fuel w with
    | (.error _, _) => []
    | (.ok (), _) => failedScopes own (history resume s fuel [] w) root

/-! ### Tasks without a turn -/

section

variable {own : Episode β σ → List String → List String} {past : List (Episode β σ)} {t : Nat}

theorem failedScopes_cons_of_ne {e : Episode β σ} (h : e.task ≠ t) :
    failedScopes own (e :: past) t = failedScopes own past t := if_neg h

/-- A task that was never resumed has failed in no scope. -/
theorem failedScopes_eq_nil (h : ∀ e ∈ past, e.task ≠ t) : failedScopes own past t = [] := by
  induction past with
  | nil => rfl
  | cons e past ih =>
      rw [failedScopes_cons_of_ne (h e List.mem_cons_self)]
      exact ih fun e he => h e (List.mem_cons_of_mem _ he)

theorem find?_cons_of_ne {e : Episode β σ} (h : e.task ≠ t) :
    (e :: past).find? (·.task = t) = past.find? (·.task = t) := by
  rw [List.find?_cons_of_neg (by simpa using h)]

/-- What a task is handed that awaits no group does not depend on the world. -/
theorem handedScopes_congr {failed : Nat → List String}
    (hjoined : ∀ e, past.find? (·.task = t) = some e → e.joined? = none) (w w' : World β σ) :
    handedScopes failed past w t = handedScopes failed past w' t := by
  unfold handedScopes
  cases he : past.find? (·.task = t) with
  | none => rfl
  | some e => simp only [hjoined e he]

/-- A turn of another task leaves it as it is. -/
theorem handedScopes_cons_of_ne {e : Episode β σ} (h : e.task ≠ t)
    (hjoined : ∀ e', past.find? (·.task = t) = some e' → e'.joined? = none) (w w' : World β σ) :
    handedScopes (failedScopes own (e :: past)) (e :: past) w t =
      handedScopes (failedScopes own past) past w' t := by
  unfold handedScopes
  rw [find?_cons_of_ne h]
  cases he : past.find? (·.task = t) with
  | none => rfl
  | some e' => simp only [hjoined e' he, failedScopes_cons_of_ne h]

end

end World

end Coroutines
