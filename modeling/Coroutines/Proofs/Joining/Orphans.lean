import Coroutines.Proofs.Joining.Once

/-!
# Nothing is left behind

The tasks of a run are a tree, and a task that waits for a group goes on only after all members have
ended.  So the root of a run ends last: once it has an outcome, the queue is empty, every task has an
outcome, every group that was joined has handed over its result, and every coroutine that a task
claimed has retired.
-/

namespace Coroutines

namespace World

variable {β σ : Type} {w w' : World β σ} {l : Standing} {base : Nat → Start}

/-! ### Retired coroutines -/

namespace Retired

variable {c : CoroutineRef} {o : Outcome}

theorem modifyHandle (h : w.Retired c o) {d : CoroutineRef} {f : Handle β → Handle β}
    (hf : ∀ x, (f x).status = x.status ∧ (x.owner = none → (f x).owner = none) ∧
      (f x).outcome = x.outcome) : (w.modifyHandle d f).Retired c o := by
  obtain ⟨x, hx, hfin, hfree, ho⟩ := h
  by_cases e : d.id = c.id
  · obtain ⟨hs, hown, hout⟩ := hf x
    refine ⟨f x, ?_, hs ▸ hfin, hown hfree, hout.trans ho⟩
    rw [get?_handles_modifyHandle, if_pos e, hx, Option.map_some]
  · exact ⟨x, get?_handles_modifyHandle_of_ne _ _ _ (Ne.symm e) hx, hfin, hfree, ho⟩

/-- Nobody claims a coroutine that has retired. -/
theorem of_arranged (h : w.Retired c o) (ha : w.Arranged w') : w'.Retired c o := by
  induction ha with
  | rest e =>
      obtain ⟨x, hx, hr⟩ := h
      exact ⟨x, e ▸ hx, hr⟩
  | spawn w name body locals =>
      obtain ⟨x, hx, hr⟩ := h
      exact ⟨x, Table.get?_push_of_some hx, hr⟩
  | claim w d task =>
      rcases e : w.claim d task with ⟨- | f, w'⟩
      · obtain ⟨y, hy, hs, -, rfl⟩ := claim_eq_none e
        obtain ⟨x, hx, hfin, hr⟩ := h
        refine ⟨x, get?_handles_modifyHandle_of_ne _ _ _ (fun e => ?_) hx, hfin, hr⟩
        rw [← e, hx] at hy
        cases hy
        simp [hs, Status.isFinished] at hfin
      · exact claim_eq_some e ▸ h
  | release w d => exact h.modifyHandle fun _ => ⟨rfl, fun _ => rfl, rfl⟩
  | trans _ _ ih ih' => exact ih' (ih h)

/-- Nobody resumes a coroutine that has retired either. -/
theorem of_chronicle {bodies : Bodies β σ} {log : List (Resumption β σ)} (h : w.Retired c o)
    (hc : Chronicle bodies w log w') : w'.Retired c o := by
  induction hc with
  | arrange ha => exact h.of_arranged ha
  | trans _ _ ih ih' => exact ih' (ih h)
  | @resume w y r _ hy hin _ _ forgets hentered _ _ ih =>
      obtain ⟨x, hx, hfin, hr⟩ := h
      have hne : r.coroutine.id ≠ c.id := fun e => by
        rw [e, hx] at hy
        cases hy
        rcases Handle.refusal?_eq_none_iff.mp hin with ⟨hs, -⟩ | ⟨hs, -⟩ <;>
          simp [hs, Status.isFinished] at hfin
      have hentry : r.entered.Retired c o := by
        rw [hentered]
        exact ⟨x, get?_handles_modifyHandle_of_ne _ _ _ hne.symm hx, hfin, hr⟩
      obtain ⟨z, hz, hz'⟩ := ih hentry
      exact ⟨z, (get?_handles_leave hne ..).trans hz, hz'⟩

/-- **A coroutine that has retired is left alone.** -/
theorem of_passes {bodies : Bodies β σ} (h : w.Retired c o) (hp : Passes bodies w w') :
    w'.Retired c o :=
  let ⟨_, hp⟩ := hp
  h.of_chronicle hp

end Retired

/-! ### The root ends last -/

/-- Whatever stands in a run is a task of it. -/
theorem Sound.taskOf_of_standing (h : w.Sound l base none) {s t : Nat} {p : Place}
    {ctx : RunContext} (hc : w.context? s = some ctx) (ht : l t = some (s, p)) :
    w.TaskOf ctx.root t := by
  -- by induction on the age, since who waits for a member is older
  induction t using Nat.strong_induction_on generalizing p with
  | _ t ih =>
      obtain ⟨y, hy⟩ := h.exists_row (t := t) (by simp [ht])
      cases hg : y.group with
      | none =>
          obtain ⟨ctx', hc', rfl⟩ := h.grouped.rootless ht hy hg
          cases hc.symm.trans hc'
          exact .root
      | some ref =>
          obtain ⟨x, u, q, hx, hm, ha, hlt, hu⟩ := h.grouped.parent ht hy hg
          exact .member (ih u hlt hu) hx ha hm

theorem Poised.taskOf_of_standing {s root t : Nat} {c : CoroutineRef} {p : Place}
    (h : w.Poised s root c l base) (ht : l t = some (s, p)) : w.TaskOf root t := by
  obtain ⟨ctx, hc⟩ := h.active
  exact h.root_eq hc ▸ h.sound.taskOf_of_standing hc ht

/-- A task of a run stands in it. -/
theorem Poised.standing_of_taskOf {s root t : Nat} {c : CoroutineRef} (h : w.Poised s root c l base)
    (ht : w.TaskOf root t) : ∃ p, l t = some (s, p) := by
  obtain ⟨ctx, hc⟩ := h.active
  exact h.sound.standing_of_taskOf hc (h.root_eq hc ▸ ht)

/-- Once the root has ended, every task of the run has. -/
theorem Sound.ended_of_root (h : w.Sound l base none) {s t : Nat} {ctx : RunContext}
    (hroot : l ctx.root = some (s, .ended)) (ht : w.TaskOf ctx.root t) :
    l t = some (s, .ended) := by
  induction ht with
  | root => exact hroot
  | member _ hx ha hu ih => exact h.grouped.settled hx ha ih nofun _ hu

/-- A run whose root has an outcome stands at its end: all its tasks have ended. -/
theorem Poised.ended_of_outcome {s root : Nat} {c : CoroutineRef} (h : w.Poised s root c l base)
    (hout : (w.taskOutcome? root).isSome = true) {t : Nat} (ht : w.TaskOf root t) :
    l t = some (s, .ended) := by
  obtain ⟨ctx, hc⟩ := h.active
  obtain rfl := h.root_eq hc
  obtain ⟨p, hp⟩ := h.sound.queued.root hc
  obtain ⟨x, hx, hh⟩ := h.sound.chained.holds hp
  rw [taskOutcome?_of_get? hx] at hout
  obtain rfl := hh.outcome.mp hout
  exact h.sound.ended_of_root hp ht

theorem Poised.unlisted_of_outcome {s root : Nat} {c : CoroutineRef}
    (h : w.Poised s root c l base) (hout : (w.taskOutcome? root).isSome = true) (t : Nat) :
    ¬ w.Listed s t := by
  intro ht
  have hready := h.sound.listed_iff.mp ht
  obtain ⟨ctx, hc⟩ := h.active
  obtain rfl := h.root_eq hc
  have hended := h.ended_of_outcome hout (h.sound.taskOf_of_standing hc hready)
  rw [hready] at hended
  cases hended

/-! ### What a run has claimed -/

/-- A task of a run has claimed a coroutine: it has it in its chain. -/
def Claimed (w : World β σ) (root : Nat) (d : CoroutineRef) : Prop :=
  ∃ t x, w.TaskOf root t ∧ w.tasks.get? t = some x ∧ d ∈ x.chain

namespace Turn

variable {bodies : Bodies β σ} {depth s t root : Nat} {x : Task} {top : CoroutineRef}
  {frame : Frame} {step : Step} {v : World β σ}

/-- A task of the run stays one. -/
theorem taskOf (h : Turn bodies depth s t l base w x top frame step v w') {u : Nat}
    (hu : w.TaskOf root u) : w'.TaskOf root u := by
  induction hu with
  | root => exact .root
  | @member _ _ g y _ hy ha hu ih =>
      have hv := h.groups hy (by simp [ha])
      exact .member ih (h.touches.groups (fun hfree => by simp [hfree y hv] at ha) hv) ha hu

/-- A coroutine that is claimed stays so until it ends and has retired. -/
theorem claimed (h : Turn bodies depth s t l base w x top frame step v w')
    (hstand : ∀ {u}, w.TaskOf root u → l u ≠ none) {d : CoroutineRef} (hd : w.Claimed root d) :
    w'.Claimed root d ∨ d = top ∧ ∃ o, step.outcome? = some o ∧ w'.Retired d o := by
  obtain ⟨u, y, hu, hy, hd⟩ := hd
  by_cases e : u = t
  · subst e
    cases hy.symm.trans h.row
    obtain ⟨x', hx', ⟨-, hsuffix⟩ | ⟨o, hstep, hr, hcase⟩⟩ := h.proceeds
    · exact .inl ⟨u, x', h.taskOf hu, hx', hsuffix.subset hd⟩
    · obtain ⟨rest, hc⟩ := h.chain
      rw [hc] at hd
      rcases List.mem_cons.mp hd with rfl | hd
      · exact .inr ⟨rfl, o, hstep, hr⟩
      · rcases hcase with ⟨-, hc', -⟩ | ⟨hc', -⟩
        · obtain ⟨-, rfl⟩ := List.cons.inj (hc.symm.trans hc')
          exact .inl ⟨u, x', h.taskOf hu, hx', hd⟩
        · obtain ⟨-, rfl⟩ := List.cons.inj (hc.symm.trans hc')
          cases hd
  · obtain ⟨y', hy', hc, -⟩ := h.kept e (hstand hu) hy
    exact .inl ⟨u, y', h.taskOf hu, hy', hc ▸ hd⟩

end Turn

section

variable {s t root : Nat} {c top : CoroutineRef} {g : GroupRef}

/-- In the turns of a run its tasks stay, and what is claimed stays so until it has retired. -/
theorem Poised.claimed_turns {bodies : Bodies β σ} (hb : bodies.Orderly) {depth : Nat}
    {log : List (CoroutineRef × Step)} (h : w.Poised s root c l base)
    (hturns : Turns (resume bodies depth) s w log w') :
    (∃ l', w'.Poised s root c l' base) ∧ (∀ {u}, w.TaskOf root u → w'.TaskOf root u) ∧
      ∀ {d}, w.Claimed root d → w'.Claimed root d ∨ ∃ o, w'.Retired d o := by
  induction hturns with
  | refl => exact ⟨⟨l, h⟩, id, .inl⟩
  | @more t _ w₁ w₂ w₃ _ hd hs ih =>
      obtain ⟨⟨l₁, hp₁⟩, htasks, hclaimed⟩ := ih
      obtain ⟨l₃, hp₃, -, x, top, frame, step, v, hturn, -⟩ := hp₁.apart hb hd hs
      have hstand : ∀ {u}, w₁.TaskOf root u → l₁ u ≠ none := fun hu => by
        obtain ⟨p, hp⟩ := hp₁.standing_of_taskOf hu
        simp [hp]
      refine ⟨⟨l₃, hp₃⟩, fun hu => hturn.taskOf (htasks hu), fun hd' => ?_⟩
      rcases hclaimed hd' with hd' | ⟨o, hr⟩
      · exact (hturn.claimed hstand hd').imp_right fun ⟨_, o, _, hr⟩ => ⟨o, hr⟩
      · have hone := Passes.of_turns (Turns.more .refl hd hs)
        exact .inr ⟨o, hr.of_passes hone⟩

/-! ### The end of a run -/

/-- Nothing that a run did is left half done: from its first turn in `w` to its end in `w'`. -/
structure Complete (resume : CoroutineRef → Input → World β σ → Except Abort Step × World β σ)
    (s root : Nat) (w w' : World β σ) : Prop where
  /-- The ready queue is empty. -/
  idle : ∃ ctx, w'.context? s = some ctx ∧ ctx.root = root ∧ ctx.ready = []
  /-- Whatever was a task of the run has an outcome. -/
  tasks : ∀ {before after w₁ t}, Turns resume s w before w₁ → Turns resume s w₁ after w' →
    w₁.TaskOf root t → (w'.taskOutcome? t).isSome = true
  /-- Whatever a task of the run had claimed has finished with an outcome and belongs to nobody. -/
  claimed : ∀ {before after w₁ d}, Turns resume s w before w₁ → Turns resume s w₁ after w' →
    w₁.Claimed root d → ∃ o, w'.Retired d o
  /-- A coroutine that had joined a group was resumed with the result. -/
  joined : ∀ {before after w₁ t top g v w₂}, Turns resume s w before w₁ →
    Joins resume s w₁ t top g v w₂ → Turns resume s w₂ after w' → ∃ x step,
      v.groups.get? g.id = some x ∧ (top, step) ∈ after ∧
      Joining resume s t top g x (v.claims x.handles) w₂ after w'

/-- A coroutine that has joined a group was resumed with the result by the time the root has an
outcome. -/
theorem Poised.delivered {bodies : Bodies β σ} (hb : bodies.Orderly) {depth : Nat}
    {after : List (CoroutineRef × Step)} {v w₁ : World β σ} (h : w.Poised s root c l base)
    (hj : Joins (resume bodies depth) s w t top g v w₁)
    (hturns : Turns (resume bodies depth) s w₁ after w')
    (hout : (w'.taskOutcome? root).isSome = true) : ∃ x step,
      v.groups.get? g.id = some x ∧ (top, step) ∈ after ∧
      Joining (resume bodies depth) s t top g x (v.claims x.handles) w₁ after w' := by
  obtain ⟨l₁, p₁, x, ts, hp₁, ht₁, hx, hw₁⟩ := h.joins hb hj
  obtain ⟨l', p', hp', -, -, hjoining, -⟩ :=
    hp₁.joining_turns hb hw₁ (length_claims v x.handles) ht₁ hturns
  cases hjoining with
  | waiting _ _ _ hmore =>
      cases hd : w'.dequeue s with
      | none => exact absurd hd hmore
      | some next =>
          obtain ⟨u, w₂⟩ := next
          obtain ⟨ctx, rest, hc, hready, -⟩ := dequeue_eq_some hd
          refine absurd (hp'.sound.listed_iff.mpr ?_) (hp'.unlisted_of_outcome hout u)
          exact (hp'.sound.queued.ready hc u).mp (by rw [hready]; exact List.mem_cons_self)
  | settled _ hsettled => exact absurd hsettled.2.1 (hp'.unlisted_of_outcome hout t)
  | @resumed _ _ step _ _ _ _ _ _ hbefore hlog hq hd ht hresult hs hstep hafter =>
      exact ⟨x, step, hx, by simp, .resumed hbefore hlog hq hd ht hresult hs hstep hafter⟩

/-- **A run leaves nothing behind.**  The root of a run has an outcome only once all that the run has
started is complete, and the loop of a run that ends does so with an outcome for the root.  The bodies touch
coroutines by running and grouping them only; they may fail with errors of the host elsewhere. -/
theorem no_orphans {bodies : Bodies β σ} (hb : bodies.masked.Orderly) {α : Type}
    {action : Action β σ α} (ha : action.masked.Orderly) {limits : List (Option Number)} {shared : σ}
    {fuel depth : Nat} (ho : Opens bodies action fuel (World.initial limits shared) s c depth root w) :
    (∀ {log w'}, Turns (resume bodies depth) s w log w' → (w'.taskOutcome? root).isSome = true →
      Complete (resume bodies depth) s root w w') ∧
    ∀ {m w'}, drain (resume bodies depth) s m w = (.ok (), w') →
      ∃ log, Turns (resume bodies depth) s w log w' ∧ (w'.taskOutcome? root).isSome = true := by
  obtain ⟨l, base, hp⟩ := poised_between_turns hb ha ho .refl
  refine ⟨fun {log w'} hturns hout => ?_, fun {m w'} hdrain => ?_⟩
  · obtain ⟨⟨l', hp'⟩, -⟩ := hp.claimed_turns hb (turns_masked.mpr hturns)
    obtain ⟨ctx, hc⟩ := hp'.active
    refine ⟨⟨ctx, hc, hp'.root_eq hc, List.eq_nil_iff_forall_not_mem.mpr fun t ht => ?_⟩, ?_, ?_, ?_⟩
    · exact hp'.unlisted_of_outcome hout t
        (hp'.sound.listed_iff.mpr ((hp'.sound.queued.ready hc t).mp ht))
    · intro before after w₁ t hbefore hafter ht
      obtain ⟨⟨l₁, hp₁⟩, -⟩ := hp.claimed_turns hb (turns_masked.mpr hbefore)
      obtain ⟨-, htasks, -⟩ := hp₁.claimed_turns hb (turns_masked.mpr hafter)
      have hended := hp'.ended_of_outcome hout (htasks ht)
      obtain ⟨x, hx, hh⟩ := hp'.sound.chained.holds hended
      rw [taskOutcome?_of_get? hx]
      exact hh.outcome.mpr rfl
    · intro before after w₁ d hbefore hafter hd
      obtain ⟨⟨l₁, hp₁⟩, -⟩ := hp.claimed_turns hb (turns_masked.mpr hbefore)
      obtain ⟨-, -, hclaimed⟩ := hp₁.claimed_turns hb (turns_masked.mpr hafter)
      rcases hclaimed hd with ⟨t, x, ht, hx, hmem⟩ | hr
      · -- a task that has ended has nothing in its chain
        obtain ⟨y, hy, hh⟩ := hp'.sound.chained.holds (hp'.ended_of_outcome hout ht)
        cases hx.symm.trans hy
        rw [hh.empty.mpr rfl] at hmem
        cases hmem
      · exact hr
    · intro before after w₁ t top g v w₂ hbefore hj hafter
      obtain ⟨⟨l₁, hp₁⟩, -⟩ := hp.claimed_turns hb (turns_masked.mpr hbefore)
      obtain ⟨x, step, hx, hmem, hjoining⟩ :=
        hp₁.delivered hb (joins_masked.mpr hj) (turns_masked.mpr hafter) hout
      exact ⟨x, step, hx, hmem, joining_masked.mp hjoining⟩
  · obtain ⟨log, w₁, hturns, ⟨he, hidle⟩ | he | ⟨t, e, w₂, w₃, -, -, he⟩⟩ :=
      drain_cases (resume bodies depth) s m w
    · cases he.symm.trans hdrain
      obtain ⟨⟨l₁, hp₁⟩, -⟩ := hp.claimed_turns hb (turns_masked.mpr hturns)
      have hout := hp₁.sound.root_outcome hp₁.calm hp₁.active hidle
      rw [hp₁.start] at hout
      exact ⟨log, hturns, hout⟩
    · cases he.symm.trans hdrain
    · cases he.symm.trans hdrain

/-- The turns of the gathering coroutine after it has joined its group. -/
theorem turns_gathering_rest : Turns (World.resume gathering 1) 0 gatheringWaits
    (gatheringLog.drop 1) gatheringEnds := by
  have hchild : Turns (World.resume gathering 1) 0 gatheringWaits
      [(⟨1, "child"⟩, .ret .none)] gatheringResumes := by
    have hd : gatheringWaits.dequeue 0 = some (1, gatheringWaits.modifyContext 0 fun ctx =>
      { ctx with ready := [] }) := rfl
    exact .more .refl hd rfl
  have hd : gatheringResumes.dequeue 0 = some (0, gatheringResumes.modifyContext 0 fun ctx =>
    { ctx with ready := [] }) := rfl
  exact hchild.trans (.more .refl hd rfl)

/-- The run of the gathering coroutine leaves nothing behind, not even the member that its group had
claimed. -/
theorem gathering_complete :
    Complete (World.resume gathering 1) 0 0 gatheringStarts gatheringEnds ∧
      gatheringWaits.Claimed 0 ⟨1, "child"⟩ ∧ ∃ o, gatheringEnds.Retired ⟨1, "child"⟩ o := by
  have hcomplete := (no_orphans gathering_orderly.masked runGathering_orderly.masked opens_gathering).1
    (turns_gathering.trans turns_gathering_rest) rfl
  have hclaimed : gatheringWaits.Claimed 0 ⟨1, "child"⟩ :=
    ⟨1, _, .member .root (g := 0) rfl rfl (List.mem_singleton_self 1), rfl, List.mem_singleton_self _⟩
  exact ⟨hcomplete, hclaimed, hcomplete.claimed turns_gathering turns_gathering_rest hclaimed⟩

end

end World

end Coroutines
