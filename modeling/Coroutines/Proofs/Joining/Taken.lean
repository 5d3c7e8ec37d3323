import Coroutines.Proofs.Joining.Settling
import Coroutines.Proofs.Ownership.Owned

/-!
# A turn taken apart

A turn resumes the coroutine at the head of a task's chain with what the task was handed, and then
the task goes on from the step that the resume ended with (`Turn`).  It leaves the slots of every
group that is awaited filled as they were, or fills one more, and the task that awaits a group gets
its result in the turn that fills the last slot.
-/

namespace Coroutines

namespace World

variable {β σ : Type} {w w' : World β σ} {l : Standing} {base : Nat → Start}

/-- A coroutine has finished with an outcome and belongs to no task. -/
def Retired (w : World β σ) (c : CoroutineRef) (o : Outcome) : Prop :=
  ∃ h, w.handles.get? c.id = some h ∧ h.status.isFinished = true ∧ h.owner = none ∧ h.outcome = some o

theorem Retired.recorded {c : CoroutineRef} {o : Outcome} (h : w.Retired c o) : w.Recorded c o := by
  obtain ⟨x, hx, hfin, -, ho⟩ := h
  exact ⟨x, hx, hfin, ho⟩

/-- A step that ends a coroutine releases it. -/
theorem handles_absorb_of_outcome? (w : World β σ) (s t : Nat) (top : CoroutineRef) {step : Step}
    {o : Outcome} (h : step.outcome? = some o) :
    (w.absorb s t top step).2.handles = (w.release top).handles := by
  cases step with
  | await target => cases h
  | ret v => exact handles_unwind ..
  | raise r => exact handles_unwind ..

/-- A turn of a task of row `x`: its coroutine `top` is resumed and ends the resume with a step, which
leaves the world `v`. -/
structure Turn (bodies : Bodies β σ) (depth s t : Nat) (l : Standing) (base : Nat → Start)
    (w : World β σ) (x : Task) (top : CoroutineRef) (frame : Frame) (step : Step)
    (v w' : World β σ) : Prop where
  row : w.tasks.get? t = some x
  chain : ∃ rest, x.chain = top :: rest
  outcome : x.outcome = none
  ready : l t = some (s, .ready)
  takes : ∃ w₁ w₂, w.dequeue s = some (t, w₁) ∧ w₁.takeUp s t = (.ok (some (top, x.inbox)), w₂) ∧
    resume bodies depth top x.inbox w₂ = (.ok step, v.modifyHandle top (·.left frame step))
  sound : v.Sound (l.set t s (.current top)) base none
  mine : v.tasks.get? t = some { x with state := .running, inbox := .start }
  others : ∀ {u y}, u ≠ t → l u ≠ none → w.tasks.get? u = some y → v.tasks.get? u = some y
  groups : ∀ {g y}, w.groups.get? g = some y → y.awaitedBy ≠ none → v.groups.get? g = some y
  steady : w.Steady (v.modifyHandle top (·.left frame step))
  absorbed : (v.modifyHandle top (·.left frame step)).absorb s t top step = (.ok (), w')

/-- Every turn of a poised run can be taken apart. -/
theorem Poised.apart {bodies : Bodies β σ} (hb : bodies.Orderly) {depth s t root : Nat}
    {c : CoroutineRef} {w₁ : World β σ} (h : w.Poised s root c l base)
    (hd : w.dequeue s = some (t, w₁)) (hs : w₁.step (resume bodies depth) s t = (.ok (), w')) :
    ∃ l', w'.Poised s root c l' base ∧ l'.After l s ∧ ∃ x top frame step v,
      Turn bodies depth s t l base w x top frame step v w' ∧
        w₁.resumed (resume bodies depth) s t = [(top, step)] := by
  have hres : ResumesSound (resume bodies depth) := resumesSound hb depth
  obtain ⟨l', hp, hafter, -⟩ := h.turn hres hd hs
  refine ⟨l', hp, hafter, ?_⟩
  obtain ⟨x, top, rest, y, hx, hchain, ht, hy, hrefuse, hcases⟩ := h.sound.takeUp h.calm hd
  obtain ⟨_, _, -, -, hw₁⟩ := dequeue_eq_some hd
  obtain ⟨x', hx', hh⟩ := h.sound.chained.holds ht
  cases hx.symm.trans hx'
  rcases hcases with ⟨limit, w₂, he, -⟩ | ⟨w₂, he, hhandles, hsound⟩
  · -- over its budget the run takes no turn
    simp only [World.step, he] at hs
    cases hs
  · have hy₂ : w₂.handles.get? top.id = some y := hhandles ▸ hy
    rcases hres hy₂ hrefuse hsound with hr | ⟨frame, step, v, hv, hr⟩
    · simp only [World.step, he] at hs
      split at hs
      · cases hs
      · next e =>
          rw [e] at hr
          cases hr
    · -- runs that the resume starts leave the rows of this run alone
      have hframe := resumesFramed hb depth hy₂ hrefuse hsound
      have hsteady := Steady.resume bodies depth top x.inbox w₂
      rw [hr] at hframe hsteady
      have hx₁ : w₁.tasks.get? t = some x := by rw [hw₁]; exact hx
      have hw₂ : w₂ = (w₁.modifyContext s fun ctx => { ctx with steps := ctx.steps + 1 }).modifyTask t
          fun x => { x with state := .running, inbox := .start } := by
        rcases takeUp_cases hx₁ hchain with ⟨limit, e⟩ | e
        · cases he.symm.trans e
        · exact (Prod.mk.inj (he.symm.trans e)).2
      have hrow : ∀ u, w₂.tasks.get? u = if u = t then
          some { x with state := .running, inbox := .start } else w.tasks.get? u := by
        intro u
        rw [hw₂]
        refine (get?_modifyTask_of_get? (w := w₁.modifyContext s _) hx₁ _ u).trans ?_
        rw [tasks_modifyContext, hw₁, tasks_modifyContext]
      have hgroups : w₂.groups = w.groups := by rw [hw₂, hw₁]; rfl
      simp only [World.step, he, hr] at hs
      refine ⟨x, top, frame, step, v, ⟨hx, ⟨rest, hchain⟩, ?outcome, ht, ⟨w₁, w₂, hd, he, hr⟩, hv, ?mine, ?others,
        ?groups, ?steady, hs⟩, by simp only [resumed, he, hr]⟩
      case outcome =>
        cases ho : x.outcome with
        | none => rfl
        | some o => exact absurd (hh.outcome.mp (by rw [ho]; rfl)) (fun h => by cases h)
      case mine =>
        exact hframe.tasks (by simp) ((hrow t).trans (if_pos rfl))
      case others =>
        intro u z hu hl hz
        refine hframe.tasks ?_ ((hrow u).trans ((if_neg hu).trans hz))
        rwa [Standing.set_of_ne _ _ _ hu]
      case groups =>
        intro g z hz ha
        exact hframe.groups (hgroups ▸ hz) ha
      case steady =>
        exact Steady.trans (.of_handles hhandles) hsteady

namespace Turn

variable {bodies : Bodies β σ} {depth s t : Nat} {x : Task} {top : CoroutineRef} {frame : Frame}
  {step : Step} {v : World β σ}

/-- The changes after the resume. -/
theorem touches (h : Turn bodies depth s t l base w x top frame step v w') :
    Touches (· = t) (fun u => ∃ g, l.set t s (.current top) u = some (s, .blocked g))
      (fun g => ∀ x, v.groups.get? g = some x → x.awaitedBy = none)
      (v.modifyHandle top (·.left frame step)) w' := by
  have := h.sound.touches_absorb (Standing.set_self ..) frame step
  rwa [h.absorbed] at this

theorem steady' (h : Turn bodies depth s t l base w x top frame step v w') : w.Steady w' := by
  have := Steady.absorb (v.modifyHandle top (·.left frame step)) s t top step
  rw [h.absorbed] at this
  exact h.steady.trans this

/-- The other tasks of the runs keep their chains and outcomes. -/
theorem kept (h : Turn bodies depth s t l base w x top frame step v w') {u : Nat} {y : Task}
    (hu : u ≠ t) (hl : l u ≠ none) (hy : w.tasks.get? u = some y) :
    ∃ y', w'.tasks.get? u = some y' ∧ y'.chain = y.chain ∧ y'.outcome = y.outcome :=
  h.touches.kept hu (h.others hu hl hy)

/-- The task of the turn goes on with its whole chain while its coroutine awaits.  A coroutine that ends
is retired, and the task goes on with the rest of its chain or has the outcome of the coroutine. -/
theorem proceeds (h : Turn bodies depth s t l base w x top frame step v w') :
    ∃ x', w'.tasks.get? t = some x' ∧
      (x'.outcome = none ∧ x.chain <:+ x'.chain ∨ ∃ o, step.outcome? = some o ∧ w'.Retired top o ∧
        (x'.outcome = none ∧ x.chain = top :: x'.chain ∧ x'.chain ≠ [] ∨
          x.chain = [top] ∧ x'.outcome = some o)) := by
  obtain ⟨rest, hc⟩ := h.chain
  have habsorb := get?_tasks_absorb (w := v.modifyHandle top (·.left frame step)) (s := s) h.mine hc
    h.outcome step
  rw [h.absorbed] at habsorb
  obtain ⟨x', hx', hcase⟩ := habsorb
  refine ⟨x', hx', hcase.imp_right ?_⟩
  rintro ⟨o, hstep, hcase⟩
  refine ⟨o, hstep, ?_, ?_⟩
  · obtain ⟨-, _, y, -, hy, -⟩ := h.sound.chained.exists_top (Standing.set_self ..) h.mine
    obtain ⟨hfin, hout⟩ := Handle.left_of_outcome? hstep y frame
    have hhandles := handles_absorb_of_outcome? (v.modifyHandle top (·.left frame step)) s t top hstep
    rw [h.absorbed] at hhandles
    refine ⟨(y.left frame step).released, ?_, hfin, rfl, hout⟩
    rw [hhandles]
    exact (get?_release_modifyHandle hy _ _).trans (if_pos rfl)
  · rcases hcase with ⟨ho, rfl, hne⟩ | ⟨rfl, ho⟩
    · exact .inl ⟨ho, hc, hne⟩
    · exact .inr ⟨hc, ho⟩

/-- What the task of the turn has come to: it goes on with its coroutine at the bottom of its chain, or
has the outcome that the coroutine has come to. -/
theorem comesTo (h : Turn bodies depth s t l base w x top frame step v w') :
    ∃ x', w'.tasks.get? t = some x' ∧
      (x'.outcome = none ∧ x'.chain.getLast? = x.chain.getLast? ∨
        x.chain = [top] ∧ ∃ o, step.outcome? = some o ∧ x'.outcome = some o ∧ w'.Recorded top o) := by
  obtain ⟨x', hx', ⟨ho, rest, hrest⟩ | ⟨o, hstep, hr, ⟨ho, hc, hne⟩ | ⟨hc, ho⟩⟩⟩ := h.proceeds
  · obtain ⟨tail, hc⟩ := h.chain
    refine ⟨x', hx', .inl ⟨ho, ?_⟩⟩
    rw [← hrest, hc, List.getLast?_append_cons]
  · refine ⟨x', hx', .inl ⟨ho, ?_⟩⟩
    obtain ⟨d, rest, hd⟩ := List.exists_cons_of_ne_nil hne
    rw [hc, hd, List.getLast?_cons_cons]
  · exact ⟨x', hx', .inr ⟨hc, o, hstep, ho, hr.recorded⟩⟩

end Turn

end World

end Coroutines
