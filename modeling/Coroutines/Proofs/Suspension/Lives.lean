import Coroutines.Proofs.Progress.Steady

/-!
# The life of a coroutine

What an execution does to one coroutine: it is claimed and released, and each input that it takes leads
from the row that the resume before left (`Life`).  No other input reaches it while it runs, so the
resumes that a chronicle lists for it follow one another (`Life.of_chronicle`).
-/

namespace Coroutines

variable {β σ : Type}

/-- The handle after a resume, whichever way the body ended. -/
def Handle.after (x : Handle β) (frame : Frame) : Except Abort (Frame × Step) → Handle β
  | .ok (frame, step) => x.left frame step
  | .error (.script r) => x.left frame (.raise r)
  | .error _ => x.broken

/-- The resumes that a coroutine took while its row came to be another. -/
inductive Life (bodies : Bodies β σ) (x : Handle β) : List (Resumption β σ) → Handle β → Prop
  | still : Life bodies x [] x
  | owned {y : Handle β} {log : List (Resumption β σ)} (h : Life bodies x log y)
      (owner : Option Nat) : Life bodies x log { y with owner }
  | resume {y : Handle β} {log : List (Resumption β σ)} (h : Life bodies x log y)
      {r : Resumption β σ} (hin : y.refusal? r.input = none) (hbody : r.body = y.body)
      (hframe : r.frame = y.frame)
      (hp : (bodies.resume r.body r.frame r.input).perform (World.runner bodies r.fuel) r.entered =
        (r.result, r.left)) (forgets : Bool) :
      Life bodies x (log ++ [r]) ((y.entered forgets).after r.frame r.result)

namespace World

variable {w w' : World β σ}

theorem leave_snd (w : World β σ) (c : CoroutineRef) (frame : Frame)
    (result : Except Abort (Frame × Step)) :
    (w.leave c frame result).2 = w.modifyHandle c (·.after frame result) := by
  rcases result with (r | _ | _ | _ | _) | ⟨frame', step⟩ <;> rfl

/-- What the schedulers do to a coroutine changes its owner at most. -/
theorem Arranged.get?_handles (h : w.Arranged w') {i : Nat} {x : Handle β}
    (hx : w.handles.get? i = some x) : ∃ owner, w'.handles.get? i = some { x with owner } := by
  have hmodify : ∀ (v : World β σ) (c : CoroutineRef) (f : Handle β → Handle β) {x : Handle β},
      v.handles.get? i = some x → (∃ owner, f x = { x with owner }) →
      ∃ owner, (v.modifyHandle c f).handles.get? i = some { x with owner } := by
    intro v c f x hx hf
    rw [get?_handles_modifyHandle, hx]
    split
    · obtain ⟨owner, e⟩ := hf
      exact ⟨owner, congrArg some e⟩
    · exact ⟨x.owner, rfl⟩
  induction h generalizing x with
  | rest h => exact ⟨x.owner, h ▸ hx⟩
  | spawn w name body locals => exact ⟨x.owner, Table.get?_push_of_some hx⟩
  | claim w c task =>
      rcases h : w.claim c task with ⟨- | f, w'⟩
      · obtain ⟨y, -, -, -, rfl⟩ := claim_eq_none h
        exact hmodify _ _ _ hx ⟨_, rfl⟩
      · obtain rfl := claim_eq_some h
        exact ⟨x.owner, hx⟩
  | release w c => exact hmodify _ _ _ hx ⟨_, rfl⟩
  | trans _ _ ih ih' =>
      obtain ⟨_, hx'⟩ := ih hx
      obtain ⟨owner, hx''⟩ := ih' hx'
      exact ⟨owner, hx''⟩

end World

namespace Life

variable {bodies : Bodies β σ} {x y z : Handle β} {log log' : List (Resumption β σ)}

theorem trans (h : Life bodies x log y) (h' : Life bodies y log' z) :
    Life bodies x (log ++ log') z := by
  induction h' with
  | still => rwa [List.append_nil]
  | owned _ owner ih => exact ih.owned owner
  | resume _ hin hbody hframe hp forgets ih =>
      rw [← List.append_assoc]
      exact ih.resume hin hbody hframe hp forgets

/-- A coroutine that runs takes no input. -/
theorem of_running (h : Life bodies x log y) (hx : x.status = .running) :
    log = [] ∧ ∃ owner, y = { x with owner } := by
  induction h with
  | still => exact ⟨rfl, x.owner, rfl⟩
  | owned _ owner ih =>
      obtain ⟨hlog, _, rfl⟩ := ih
      exact ⟨hlog, owner, rfl⟩
  | resume _ hin _ _ _ _ ih =>
      obtain ⟨-, owner, rfl⟩ := ih
      rcases Handle.refusal?_eq_none_iff.mp hin with ⟨hs, -⟩ | ⟨hs, -⟩ <;> cases hs.symm.trans hx

/-- **The resumes that a coroutine takes during an execution are a life of it.** -/
theorem of_chronicle {w w' : World β σ} (h : w.Chronicle bodies log w') {i : Nat}
    (hx : w.handles.get? i = some x) : ∃ y, w'.handles.get? i = some y ∧
      Life bodies x (log.filter (·.coroutine.id = i)) y := by
  induction h generalizing x with
  | arrange h =>
      obtain ⟨owner, hx'⟩ := h.get?_handles hx
      exact ⟨_, hx', .owned .still owner⟩
  | trans _ _ ih ih' =>
      obtain ⟨y, hy, h⟩ := ih hx
      obtain ⟨z, hz, h'⟩ := ih' hy
      exact ⟨z, hz, List.filter_append .. ▸ h.trans h'⟩
  | @resume w x' r log hx' hin hbody hframe forgets hentered hp _ ih =>
      by_cases hi : r.coroutine.id = i
      · subst hi
        obtain rfl : x' = x := Option.some.inj (hx'.symm.trans hx)
        have hentry : r.entered.handles.get? r.coroutine.id = some (x'.entered forgets) := by
          rw [hentered, World.get?_modifyHandle_self hx]
        obtain ⟨y, hy, h⟩ := ih hentry
        -- the coroutine runs, so what happens inside its resume leaves it alone
        obtain ⟨hnone, owner, rfl⟩ := h.of_running rfl
        refine ⟨{ (x'.entered forgets).after r.frame r.result with owner }, ?_, ?_⟩
        · rw [World.leave_snd, World.get?_handles_modifyHandle, if_pos rfl, hy]
          rcases r.result with (_ | _ | _ | _ | _) | ⟨_, _ | _ | _⟩ <;> rfl
        · rw [List.filter_append, hnone, List.filter_cons_of_pos (by simp), List.filter_nil]
          exact .owned (.resume .still hin hbody hframe hp forgets) owner
      · have hentry : r.entered.handles.get? i = some x := by
          rw [hentered, World.get?_handles_modifyHandle, if_neg hi, hx]
        obtain ⟨y, hy, h⟩ := ih hentry
        refine ⟨y, (World.get?_handles_leave hi ..).trans hy, ?_⟩
        rwa [List.filter_append, List.filter_cons_of_neg (by simpa using hi), List.filter_nil,
          List.append_nil]

end Life

end Coroutines
