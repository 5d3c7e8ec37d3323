import Coroutines.Proofs.Moments
import Coroutines.Proofs.Suspension.Lives

/-!
# The frames of coroutines

Whatever is done, a coroutine that was there before or is made on the way has a life of its own: claims,
releases and its own resumes lead from its first row to its row at any moment (`World.Biography`).  So the
frame in which it stands is the one that its own last resume left, and no code that runs meanwhile, in
other coroutines or in none, has changed it (`Life.frame`).
-/

namespace Coroutines

variable {β σ α γ : Type} {bodies : Bodies β σ}

/-! ### Frames -/

/-- The frame that a resume leaves: where its body left off, or where it went on if that ended without
a frame. -/
def Resumption.leaves (r : Resumption β σ) : Frame :=
  match r.result with
  | .ok (frame, _) => frame
  | .error _ => r.frame

/-- The frame after resumes of one coroutine that was in a frame before. -/
def Frame.after (frame : Frame) (log : List (Resumption β σ)) : Frame :=
  (log.getLast?.map Resumption.leaves).getD frame

@[simp] theorem Frame.after_concat (frame : Frame) (log : List (Resumption β σ)) (r : Resumption β σ) :
    frame.after (log ++ [r]) = r.leaves := by
  rw [Frame.after, List.getLast?_concat]
  rfl

/-- **A coroutine stands in the frame that its own last resume left.** -/
theorem Life.frame {x y : Handle β} {log : List (Resumption β σ)} (h : Life bodies x log y) :
    y.frame = x.frame.after log := by
  induction h with
  | still => rfl
  | owned _ _ ih => exact ih
  | @resume y _ _ r _ _ hframe _ _ _ =>
      rw [Frame.after_concat, Resumption.leaves]
      rcases r.result with (_ | _ | _ | _ | _) | ⟨frame, _ | _ | _⟩ <;> first | rfl | exact hframe.symm

theorem Life.body {x y : Handle β} {log : List (Resumption β σ)} (h : Life bodies x log y) :
    y.body = x.body := by
  induction h with
  | still => rfl
  | owned _ _ ih => exact ih
  | @resume y _ _ r _ _ _ _ _ ih =>
      rw [← ih]
      rcases r.result with (_ | _ | _ | _ | _) | ⟨frame, _ | _ | _⟩ <;> rfl

namespace World

variable {w w' w'' : World β σ} {log log' : List (Resumption β σ)}

/-! ### Coroutines that are made on the way -/

/-- The schedulers make coroutines that have not been started. -/
theorem Arranged.made (h : w.Arranged w') {i : Nat} {y : Handle β} (hw : w.handles.get? i = none)
    (hy : w'.handles.get? i = some y) :
    ∃ name body locals owner, y = { Handle.create name body locals with owner } := by
  induction h generalizing y with
  | rest h => cases hw.symm.trans (h ▸ hy)
  | spawn w name body locals =>
      have hrow := (Table.get?_push ..).symm.trans hy
      split at hrow
      · cases hrow
        exact ⟨name, body, locals, none, rfl⟩
      · cases hw.symm.trans hrow
  | claim w c task =>
      rcases h : w.claim c task with ⟨- | f, w'⟩ <;> rw [h] at hy
      · obtain ⟨_, -, -, -, rfl⟩ := claim_eq_none h
        rw [get?_handles_modifyHandle, hw] at hy
        split at hy <;> cases hy
      · obtain rfl := claim_eq_some h
        cases hw.symm.trans hy
  | release w c =>
      rw [World.release, get?_handles_modifyHandle, hw] at hy
      split at hy <;> cases hy
  | @trans _ w₁ _ h h' ih ih' =>
      rcases hrow : w₁.handles.get? i with - | x
      · exact ih' hrow hy
      · obtain ⟨name, body, locals, _, rfl⟩ := ih hw hrow
        obtain ⟨owner, hy'⟩ := h'.get?_handles hrow
        cases hy.symm.trans hy'
        exact ⟨name, body, locals, owner, rfl⟩

/-- Coroutines whose resumes a chronicle lists are there at its end. -/
theorem Chronicle.listed (h : Chronicle bodies w log w') {r : Resumption β σ} (hr : r ∈ log) :
    r.coroutine.id < w'.handles.size := by
  induction h with
  | arrange => cases hr
  | trans _ h' ih ih' =>
      rcases List.mem_append.mp hr with hr | hr
      · exact Nat.lt_of_lt_of_le (ih hr) (Passes.size_handles_le ⟨_, h'⟩)
      · exact ih' hr
  | @resume w x r' log hx _ _ _ forgets hentered _ h ih =>
      have hleave : (r'.left.leave r'.coroutine r'.frame r'.result).2.handles.size =
          r'.left.handles.size := by
        rw [leave_snd]
        exact Table.size_modify ..
      have hentry : r'.entered.handles.size = w.handles.size := hentered ▸ Table.size_modify ..
      rw [hleave]
      rcases List.mem_append.mp hr with hr | hr
      · exact ih hr
      · rw [List.mem_singleton.mp hr]
        exact Nat.lt_of_lt_of_le (hentry ▸ Table.lt_size_of_get? hx) (Passes.size_handles_le ⟨_, h⟩)

/-- What is not there yet has not been resumed. -/
theorem filter_eq_nil_of_listed (h : ∀ r ∈ log, r.coroutine.id < w.handles.size) {i : Nat}
    (hi : w.handles.get? i = none) : log.filter (·.coroutine.id = i) = [] := by
  rw [List.filter_eq_nil_iff]
  rintro r hr hri
  have hlt := h r hr
  have hle := Table.get?_eq_none_iff.mp hi
  simp only [decide_eq_true_eq] at hri
  omega

/-- **A coroutine that is made on the way lives from its first frame on.** -/
theorem Chronicle.born (h : Chronicle bodies w log w') {i : Nat} {y : Handle β}
    (hw : w.handles.get? i = none) (hy : w'.handles.get? i = some y) :
    ∃ name body locals, Life bodies (.create name body locals) (log.filter (·.coroutine.id = i)) y := by
  induction h generalizing y with
  | arrange h =>
      obtain ⟨name, body, locals, owner, rfl⟩ := h.made hw hy
      exact ⟨name, body, locals, .owned .still owner⟩
  | @trans _ w₁ _ _ _ h h' ih ih' =>
      rw [List.filter_append]
      rcases hrow : w₁.handles.get? i with - | x
      · obtain ⟨name, body, locals, hlife⟩ := ih' hrow hy
        rw [filter_eq_nil_of_listed (fun _ => h.listed) hrow, List.nil_append]
        exact ⟨name, body, locals, hlife⟩
      · obtain ⟨name, body, locals, hlife⟩ := ih hw hrow
        obtain ⟨_, hy', hlife'⟩ := Life.of_chronicle h' hrow
        cases hy.symm.trans hy'
        exact ⟨name, body, locals, hlife.trans hlife'⟩
  | @resume w x r _ hx _ _ _ forgets hentered _ _ ih =>
      have hne : r.coroutine.id ≠ i := by
        rintro rfl
        cases hw.symm.trans hx
      have hentry : r.entered.handles.get? i = none := by
        rw [hentered, get?_handles_modifyHandle, if_neg hne, hw]
      obtain ⟨name, body, locals, hlife⟩ := ih hentry ((get?_handles_leave hne ..).symm.trans hy)
      refine ⟨name, body, locals, ?_⟩
      rwa [List.filter_append, List.filter_cons_of_neg (by simpa using hne), List.filter_nil,
        List.append_nil]

/-! ### Lives up to a moment -/

/-- The first row of a coroutine in an execution that begins in a world: the one it has there, or that of
a new coroutine. -/
inductive Origin (w : World β σ) (i : Nat) : Handle β → Prop
  | old {x : Handle β} (hx : w.handles.get? i = some x) : Origin w i x
  | new (hw : w.handles.get? i = none) (name : String) (body : β) (locals : Bindings Value) :
    Origin w i (.create name body locals)

/-- An execution has come from one world to another, and a log has the resumes that were over by then.
The coroutines have lived accordingly, and those whose resumes are not over have been entered. -/
structure Biography (bodies : Bodies β σ) (w : World β σ) (log : List (Resumption β σ)) (w' : World β σ) :
    Prop where
  stay : w.handles.size ≤ w'.handles.size
  listed : ∀ r ∈ log, r.coroutine.id < w'.handles.size
  lives : ∀ ⦃i y⦄, w'.handles.get? i = some y → ∃ x z, w.Origin i x ∧
    Life bodies x (log.filter (·.coroutine.id = i)) z ∧ (y = z ∨ ∃ forgets, y = z.entered forgets)

namespace Biography

theorem refl (w : World β σ) : Biography bodies w [] w where
  stay := Nat.le_refl _
  listed _ hr := nomatch hr
  lives _ y hy := ⟨y, y, .old hy, .still, .inl rfl⟩

/-- Whatever is done next belongs to the lives, too. -/
theorem chronicle (h : Biography bodies w log w') (h' : Chronicle bodies w' log' w'') :
    Biography bodies w (log ++ log') w'' where
  stay := Nat.le_trans h.stay (Passes.size_handles_le ⟨_, h'⟩)
  listed r hr := by
    rcases List.mem_append.mp hr with hr | hr
    · exact Nat.lt_of_lt_of_le (h.listed r hr) (Passes.size_handles_le ⟨_, h'⟩)
    · exact h'.listed hr
  lives i y hy := by
    rw [List.filter_append]
    rcases hrow : w'.handles.get? i with - | y'
    · obtain ⟨name, body, locals, hlife⟩ := h'.born hrow hy
      rw [filter_eq_nil_of_listed h.listed hrow, List.nil_append]
      have hw : w.handles.get? i = none :=
        Table.get?_eq_none_iff.mpr (Nat.le_trans h.stay (Table.get?_eq_none_iff.mp hrow))
      exact ⟨_, y, .new hw name body locals, hlife, .inl rfl⟩
    · obtain ⟨x, z, horigin, hlife, hz⟩ := h.lives hrow
      obtain ⟨_, hy', hlife'⟩ := Life.of_chronicle h' hrow
      cases hy.symm.trans hy'
      rcases hz with rfl | ⟨forgets, rfl⟩
      · exact ⟨x, y, horigin, hlife.trans hlife', .inl rfl⟩
      · -- it runs, so it takes no input meanwhile
        obtain ⟨hnone, owner, rfl⟩ := hlife'.of_running rfl
        rw [hnone, List.append_nil]
        exact ⟨x, { z with owner }, horigin, hlife.owned owner, .inr ⟨forgets, rfl⟩⟩

theorem passes (h : Biography bodies w log w') (h' : Passes bodies w' w'') :
    ∃ log', Biography bodies w (log ++ log') w'' :=
  let ⟨log', h'⟩ := h'
  ⟨log', h.chronicle h'⟩

/-- A coroutine that is entered keeps its frame until its resume is over. -/
theorem enter (h : Biography bodies w log w') {c : CoroutineRef} {input : Input} {frame : Frame}
    {body : Action β σ (Frame × Step)} (he : w'.enter bodies c input = (.ok (frame, body), w'')) :
    Biography bodies w log w'' := by
  obtain ⟨y, hy, hin, -, -, forgets, rfl⟩ := enter_eq_ok he
  have hsize : (w'.modifyHandle c (·.entered forgets)).handles.size = w'.handles.size :=
    Table.size_modify ..
  refine ⟨hsize ▸ h.stay, fun r hr => hsize ▸ h.listed r hr, fun i y' hy' => ?_⟩
  rw [get?_handles_modifyHandle] at hy'
  split at hy'
  · next hi =>
      subst hi
      rw [hy] at hy'
      cases hy'
      obtain ⟨x, z, horigin, hlife, rfl | ⟨_, rfl⟩⟩ := h.lives hy
      · exact ⟨x, y, horigin, hlife, .inr ⟨forgets, rfl⟩⟩
      · rcases Handle.refusal?_eq_none_iff.mp hin with ⟨hs, -⟩ | ⟨hs, -⟩ <;> cases hs
  · exact h.lives hy'

end Biography

/-! ### Moments -/

/-- A request of an action has a chronicle. -/
theorem Passes.advance {depth : Nat} {a a' : Action β σ α}
    (h : a.advance (runner bodies depth) w = some (a', w')) : Passes bodies w w' := by
  cases a with
  | done result => cases h
  | joinAll s members re next =>
      simp only [Action.advance] at h
      split at h <;> cases h
      · exact .of_handles rfl
      · exact .refl w
  | run s c next =>
      simp only [Action.advance] at h
      split at h <;> cases h
      exact .run bodies depth s c w
  | resume c input next =>
      simp only [Action.advance] at h
      split at h <;> cases h
      exact .resume bodies depth c input w
  | spawn name body locals next =>
      cases h
      exact .of_arranged (.spawn w name body locals)
  | claim c task next =>
      cases h
      exact .of_arranged (.claim w c task)
  | release c next =>
      cases h
      exact .of_arranged (.release w c)
  | _ =>
      cases h
      exact .of_handles rfl

theorem Passes.afterTurns {depth s n : Nat}
    (h : World.afterTurns (World.resume bodies depth) s n w = some w') : Passes bodies w w' := by
  induction n generalizing w with
  | zero =>
      cases h
      exact .refl _
  | succ n ih =>
      obtain ⟨⟨t, w₁⟩, hd, h⟩ := Option.bind_eq_some_iff.mp h
      have hstep := Passes.step bodies depth w₁ s t
      rcases hs : w₁.step (World.resume bodies depth) s t with ⟨e | ⟨⟩, w₂⟩ <;>
        simp only [hs] at h hstep
      · cases h
      · exact .trans (.of_handles (handles_dequeue hd)) (hstep.trans (ih h))

/-- So have the turns of a run up to one of them. -/
theorem Passes.takesUp {depth s t : Nat} {rest : Rest β σ γ α} {a : Action β σ α}
    {loop : Rest β σ γ Unit} {top : CoroutineRef} {input : Input}
    (h : TakesUp bodies depth rest a w loop s t top input w') : Passes bodies w w' := by
  obtain ⟨hs, hturns, hd, ht, -⟩ := h
  next root n left c next w₁ w₂ w₃ =>
  have hstart := Arranged.start w s c
  have htake := handles_takeUp w₃ s t
  rw [hs] at hstart
  rw [ht] at htake
  exact .trans (.of_arranged hstart) (.trans (.afterTurns hturns)
    (.trans (.of_handles (handles_dequeue hd)) (.of_handles htake)))

/-- **At every moment of an execution the coroutines have lived by their own resumes.** -/
theorem Visits.biography {a : Action β σ γ} {fuel depth : Nat} {rest : Rest β σ γ α} {a' : Action β σ α}
    (h : Visits bodies a fuel w rest a' depth w') : ∃ log, Biography bodies w log w' := by
  induction h with
  | refl => exact ⟨[], .refl _⟩
  | request _ ha ih =>
      obtain ⟨_, ih⟩ := ih
      obtain ⟨_, h⟩ := ih.passes (.advance ha)
      exact ⟨_, h⟩
  | turn _ ht he ih =>
      obtain ⟨_, ih⟩ := ih
      obtain ⟨_, h⟩ := ih.passes (.takesUp ht)
      exact ⟨_, h.enter he⟩
  | resume _ he ih =>
      obtain ⟨_, ih⟩ := ih
      exact ⟨_, ih.enter he⟩

/-- So they have when it is over. -/
theorem Biography.perform (bodies : Bodies β σ) (fuel : Nat) (a : Action β σ α) (w : World β σ) :
    ∃ log, Biography bodies w log (a.perform (runner bodies fuel) w).2 := by
  have hnone : Biography bodies w [] w := .refl w
  obtain ⟨log, h⟩ := hnone.passes (Passes.perform bodies fuel a w)
  exact ⟨_, h⟩

end World

end Coroutines
