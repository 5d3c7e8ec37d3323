import Coroutines.Proofs.Renumbering.Turns

/-!
# Runs in renumbered worlds

Whatever is done in a world comes to the same in the renumbered one, and leaves the one renumbered, by
induction on how deep runs may nest (`Renumbering.respects_resume`).  That holds of any bodies, and
however they end.
-/

namespace Coroutines

variable {β σ α : Type}

/-- Something to do comes to the same in a world and in the renumbered one. -/
def Renumbering.Respects (r : Renumbering) (f : World β σ → α × World β σ) : Prop :=
  ∀ ⦃num w v⦄, w.Renumbered r num v → World.Corresponds r num w.tasks.size (f w) (f v)

namespace World

variable {w v : World β σ} {r : Renumbering} {num : Nat → Nat}

namespace Renumbered

/-! ### Coroutines -/

/-- What a coroutine is but for its owner. -/
theorem of_anonymous {x y : Handle β} (h : y.anonymous = x.anonymous) : y.name = x.name ∧
    y.body = x.body ∧ y.frame = x.frame ∧ y.status = x.status := by
  simp only [Handle.anonymous, Handle.mk.injEq] at h
  exact ⟨h.1, h.2.1, h.2.2.1, h.2.2.2.1⟩

/-- Changes that leave the owner. -/
theorem mark (h : w.Renumbered r num v) (c : CoroutineRef) {f : Handle β → Handle β}
    (hf : ∀ x, (f x).anonymous = f x.anonymous) :
    (w.modifyHandle c f).Renumbered r num (v.modifyHandle c f) :=
  h.modifyHandle c fun x y e => by rw [hf, hf, e]

theorem enter (h : w.Renumbered r num v) (bodies : Bodies β σ) (c : CoroutineRef) (input : Input) :
    Corresponds r num w.tasks.size (w.enter bodies c input) (v.enter bodies c input) := by
  have he := h.handles c.id
  cases hx : w.handles.get? c.id with
  | none =>
      rw [hx, Option.map_none, Option.map_eq_none_iff] at he
      simp only [World.enter, hx, he]
      exact .of_renumbered h rfl le_rfl
  | some x =>
      obtain ⟨y, hy, hxy⟩ := h.exists_handle hx
      obtain ⟨hname, hbody, hframe, hstatus⟩ := of_anonymous hxy
      have hrefusal : y.refusal? input = x.refusal? input := by
        simp only [Handle.refusal?, hname, hstatus]
      simp only [World.enter, hx, hy, hrefusal, hbody, hframe]
      cases x.refusal? input with
      | some e => exact .of_renumbered h rfl le_rfl
      | none => exact .of_renumbered (h.mark c fun _ => rfl) rfl le_rfl

theorem leave (h : w.Renumbered r num v) (c : CoroutineRef) (frame : Frame)
    (result : Except Abort (Frame × Step)) :
    Corresponds r num w.tasks.size (w.leave c frame result) (v.leave c frame result) := by
  have hleft : ∀ frame' step, (w.modifyHandle c (·.left frame' step)).Renumbered r num
      (v.modifyHandle c (·.left frame' step)) := fun frame' step =>
    h.mark c fun x => by cases step <;> rfl
  unfold World.leave
  split
  · exact .of_renumbered (hleft _ _) rfl le_rfl
  · exact .of_renumbered (hleft _ _) rfl le_rfl
  · exact .of_renumbered (h.mark c fun _ => rfl) rfl le_rfl

/-! ### The start and the end of a run -/

/-- A run is refused for the same reason, or it starts with a root that is new. -/
theorem start (h : w.Renumbered r num v) (s : Nat) (c : CoroutineRef) :
    (∃ f w' v', w.start s c = (.error (.raise f), w') ∧ v.start s c = (.error (.raise f), v') ∧
      Corresponds r num w.tasks.size ((), w') ((), v')) ∨
    ∃ w' v' num', w.start s c = (.ok w.tasks.size, w') ∧
      v.start s c = (.ok (r.row w.tasks.size), v') ∧ w.tasks.size < w'.tasks.size ∧
      (∀ t < w.tasks.size, num' t = num t) ∧ w'.Renumbered r num' v' := by
  have hactive := h.isActive_eq s
  cases ha : w.isActive s with
  | true =>
      rw [ha] at hactive
      exact .inl ⟨.nestedRun, w, v, by simp [World.start, ha], by simp [World.start, hactive],
        .of_renumbered h rfl le_rfl⟩
  | false =>
      rw [ha] at hactive
      have hn := h.newTask s c 0 none (by simp)
      have hold : ∀ t < w.tasks.size, Function.update num w.tasks.size (r.shift s) t = num t :=
        fun t ht => Function.update_of_ne ht.ne _ _
      have hsize : w.tasks.size < (w.newTask s c 0 none).2.tasks.size := by simp [World.newTask]
      obtain ⟨hclaim, hclaimed⟩ := hn.claim c
        ((w.newTask s c 0 none).2.taskId w.tasks.size) ((v.newTask s c 0 none).2.taskId v.tasks.size)
      have htasks := congrArg Table.size (tasks_claim (w.newTask s c 0 none).2 c
        ((w.newTask s c 0 none).2.taskId w.tasks.size))
      rcases hcw : (w.newTask s c 0 none).2.claim c _ with ⟨f | f, w₁⟩ <;>
        rcases hcv : (v.newTask s c 0 none).2.claim c _ with ⟨f' | f', v₁⟩ <;>
        rw [hcw, hcv] at hclaim hclaimed <;> rw [hcw] at htasks <;> cases hclaim
      · have hlt : w.tasks.size < w₁.tasks.size := hsize.trans_eq htasks.symm
        have hact := hclaimed.activate hlt (Function.update_self ..)
        have hw : w.start s c =
            (.ok w.tasks.size, (w₁.activate s w.tasks.size).emit s (.runStart c.name)) := by
          simp only [World.start, ha, Bool.false_eq_true, if_false, newTask_fst, hcw]
        have hv : v.start s c =
            (.ok v.tasks.size, (v₁.activate s v.tasks.size).emit s (.runStart c.name)) := by
          simp only [World.start, hactive, Bool.false_eq_true, if_false, newTask_fst, hcv]
        rw [h.row_size] at hact
        exact .inr ⟨_, _, _, hw, hv.trans (by rw [h.row_size]; rfl), hlt, hold, hact.emit s _⟩
      · have hw : w.start s c = (.error (.raise f), w₁) := by
          simp only [World.start, ha, Bool.false_eq_true, if_false, newTask_fst, hcw]
        have hv : v.start s c = (.error (.raise f), v₁) := by
          simp only [World.start, hactive, Bool.false_eq_true, if_false, newTask_fst, hcv]
        exact .inl ⟨_, _, _, hw, hv, rfl, (hsize.trans_eq htasks.symm).le, _, hold, hclaimed⟩

theorem conclude (h : w.Renumbered r num v) (s root : Nat) (c : CoroutineRef) :
    Corresponds r num w.tasks.size (w.conclude s root c) (v.conclude s (r.row root) c) := by
  have hsteps : ((v.context? s).map RunContext.steps).getD 0 =
      ((w.context? s).map RunContext.steps).getD 0 := by
    rw [h.context?_eq, Option.map_map]
    rfl
  simp only [World.conclude, h.taskOutcome?_eq, hsteps]
  split
  · exact .of_renumbered h rfl le_rfl
  · exact .of_renumbered (h.emit s _) rfl le_rfl

section

variable {resume : CoroutineRef → Input → World β σ → Except Abort Step × World β σ}

/-! ### Turns and runs -/

theorem step (h : w.Renumbered r num v) (hres : ∀ c input, r.Respects (resume c input)) {s t : Nat}
    (ht : t < w.tasks.size) (hnum : num t = r.shift s) :
    Corresponds r num w.tasks.size (w.step resume s t) (v.step resume s (r.row t)) := by
  have htake := h.takeUp s t
  rw [step_eq, step_eq]
  refine htake.andThen fun x num₁ hnum₁ hr₁ => ?_
  cases x with
  | none => exact .of_renumbered hr₁ rfl le_rfl
  | some x =>
      have hresume := hres x.1 x.2 hr₁
      refine hresume.andThen fun step num₂ hnum₂ hr₂ => ?_
      have ht₁ := ht.trans_le htake.size
      exact hr₂.absorb (ht₁.trans_le hresume.size)
        ((hnum₂ t ht₁).trans ((hnum₁ t ht).trans hnum)) x.1 step

theorem drain (h : w.Renumbered r num v) (hres : ∀ c input, r.Respects (resume c input))
    (s fuel : Nat) :
    Corresponds r num w.tasks.size (World.drain resume s fuel w) (World.drain resume s fuel v) := by
  induction fuel generalizing w v num with
  | zero => exact .of_renumbered h rfl le_rfl
  | succ fuel ih =>
      rw [drain_succ, drain_succ]
      rcases hd : w.dequeue s with - | ⟨t, w'⟩
      · rw [h.dequeue_none hd]
        exact .of_renumbered h rfl le_rfl
      · obtain ⟨v', hv, hr, ht, hnum⟩ := h.dequeue_some hd
        have hsize : w'.tasks.size = w.tasks.size := by
          obtain ⟨_, _, -, -, hw⟩ := dequeue_eq_some hd
          rw [hw]
          rfl
        rw [hv, ← hsize]
        exact (hr.step hres ht hnum).andThen fun _ num' _ hr' => ih hr'

theorem runWith (h : w.Renumbered r num v) (hres : ∀ c input, r.Respects (resume c input))
    (fuel s : Nat) (c : CoroutineRef) :
    Corresponds r num w.tasks.size (w.runWith resume fuel s c) (v.runWith resume fuel s c) := by
  rw [runWith_eq, runWith_eq]
  rcases h.start s c with ⟨f, w', v', hw, hv, -, hsize, hworlds⟩ |
    ⟨w', v', num', hw, hv, hlt, hnum, hr⟩
  · rw [hw, hv]
    exact ⟨rfl, hsize, hworlds⟩
  · rw [hw, hv]
    have hended := (hr.drain hres s fuel).andThen (k := fun _ w' => w'.conclude s w.tasks.size c)
      (l := fun _ v' => v'.conclude s (r.row w.tasks.size) c) fun _ _ _ hr' => hr'.conclude s _ c
    have hclosed := hended.bind (k := fun result w' => (result, (w'.release c).deactivate s))
      (l := fun result v' => (result, (v'.release c).deactivate s)) fun _ _ hr' =>
        .of_renumbered ((hr'.release c).deactivate s) rfl le_rfl
    obtain ⟨he, hsize, num'', hnum', hr'⟩ := hclosed
    exact ⟨he, hlt.le.trans hsize, num'', fun t ht => (hnum' t (ht.trans hlt)).trans (hnum t ht), hr'⟩

end

/-! ### Actions -/

theorem perform (h : w.Renumbered r num v) (runner : Runner β σ)
    (hrun : ∀ s c, r.Respects (runner.run s c)) (hres : ∀ c input, r.Respects (runner.resume c input))
    (a : Action β σ α) :
    Corresponds r num w.tasks.size (a.perform runner w) (a.perform runner v) := by
  induction a generalizing w v num with
  | done result => exact .of_renumbered h rfl le_rfl
  | read next ih =>
      simp only [Action.perform, h.shared]
      exact ih _ h
  | modify f next ih =>
      have hm : ({ w with shared := f w.shared } : World β σ).Renumbered r num
          { v with shared := f v.shared } := { h with shared := congrArg f h.shared }
      exact ih hm
  | identity next ih =>
      have hm : w.identity.2.Renumbered r num v.identity.2 :=
        { h with identity := congrArg (· + 1) h.identity }
      simp only [Action.perform]
      rw [show v.identity.1 = w.identity.1 from h.identity]
      exact ih _ hm
  | spawn name body locals next ih =>
      obtain ⟨he, hm⟩ := h.spawn name body locals
      simp only [Action.perform, he]
      exact ih _ hm
  | joinAll s members re next ih =>
      simp only [Action.perform, h.isActive_eq]
      split
      · obtain ⟨he, hm⟩ := h.newGroup members re
        rw [he]
        exact ih _ hm
      · exact ih _ h
  | run s c next ih =>
      rw [perform_run, perform_run]
      refine ((hrun s c h).bind (k := fun r w => (splitScript r, w)) (l := fun r v => (splitScript r, v))
        fun _ _ hr => .of_renumbered hr rfl le_rfl).andThen fun result _ _ hr => ih result hr
  | resume c input next ih =>
      rw [perform_resume, perform_resume]
      refine ((hres c input h).bind (k := fun r w => (splitScript r, w))
        (l := fun r v => (splitScript r, v))
        fun _ _ hr => .of_renumbered hr rfl le_rfl).andThen fun result _ _ hr => ih result hr
  | claim c task next ih =>
      obtain ⟨he, hm⟩ := h.claim c task task
      simp only [Action.perform, he]
      have := ih (w.claim c task).1 hm
      rwa [tasks_claim] at this
  | release c next ih => exact ih (h.release c)

end Renumbered

end World

/-- **Resumes come to the same in renumbered worlds**, by induction on how deep runs may nest. -/
theorem Renumbering.respects_resume (r : Renumbering) (bodies : Bodies β σ) (fuel : Nat)
    (c : CoroutineRef) (input : Input) : r.Respects (World.resume bodies fuel c input) := by
  induction fuel generalizing c input with
  | zero => exact fun _ _ _ h => .of_renumbered h rfl le_rfl
  | succ fuel ih =>
      intro num w v h
      rw [World.resume_eq, World.resume_eq]
      refine (h.enter bodies c input).andThen fun p _ _ hr => ?_
      exact (hr.perform (World.runner bodies fuel)
        (fun s c _ _ _ h => h.runWith ih fuel s c) ih p.2).bind
        (k := fun result w => w.leave c p.1 result) (l := fun result v => v.leave c p.1 result)
        fun _ _ hr' => hr'.leave c p.1 _

/-- **Runs come to the same in renumbered worlds.** -/
theorem Renumbering.respects_run (r : Renumbering) (bodies : Bodies β σ) (fuel s : Nat)
    (c : CoroutineRef) : r.Respects (World.run bodies fuel s c) :=
  fun _ _ _ h => h.runWith (r.respects_resume bodies fuel) fuel s c

/-- **Actions come to the same in renumbered worlds.** -/
theorem Renumbering.respects_perform (r : Renumbering) (bodies : Bodies β σ) (fuel : Nat)
    (a : Action β σ α) : r.Respects (a.perform (World.runner bodies fuel)) :=
  fun _ _ _ h => h.perform _ (r.respects_run bodies fuel) (r.respects_resume bodies fuel) a

end Coroutines
