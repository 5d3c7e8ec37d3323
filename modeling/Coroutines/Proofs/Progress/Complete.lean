import Coroutines.Proofs.Ownership.Reached
import Coroutines.Proofs.Progress.Steady
import Mathlib.Algebra.BigOperators.Group.Finset.Piecewise
import Mathlib.Algebra.Order.BigOperators.Group.Finset

/-!
# Runs end

A run of orderly bodies is never stuck: while its queue is not empty the next coroutine takes its
input, and once it is empty the root has an outcome.  Where coroutines are finitely many and each
of them ends after finitely many resumes, the run is over after at most as many resumes as these
bounds add up to.
-/

namespace Coroutines

namespace World

variable {β σ : Type} {w w' : World β σ} {l : Standing} {base : Nat → Start}

/-! ### No run is stuck -/

/-- The ways in which a turn ends a run: at the limit of the run, at the bound of the host, or with an error
of the host, where bodies that are not orderly end with one. -/
def Stops (bodies : Bodies β σ) (e : Abort) : Prop :=
  (∃ limit, e = .raise (.budget limit)) ∨ e = .outOfFuel ∨ ¬ bodies.Orderly ∧ e.masked = .outOfFuel

/-- A run between two turns goes on, or its root has an outcome. -/
structure Unstuck (w : World β σ) (bodies : Bodies β σ) (depth s root : Nat) : Prop where
  /-- Once the queue is empty the root has an outcome. -/
  concluded : w.dequeue s = none → (w.taskOutcome? root).isSome = true
  /-- The coroutine that is resumed next takes its input. -/
  admitted : ∀ {t w₁ top input w₂}, w.dequeue s = some (t, w₁) →
    w₁.takeUp s t = (.ok (some (top, input)), w₂) → ∃ x, (w₂.enter bodies top input).1 = .ok x
  /-- A turn ends the run at one of its bounds, or where a body fails with an error of the host. -/
  stops : ∀ {t w₁ e w₂}, w.dequeue s = some (t, w₁) →
    w₁.step (World.resume bodies depth) s t = (.error e, w₂) → Stops bodies e

/-- A turn over orderly bodies ends a run at one of its bounds only. -/
theorem Poised.stops {bodies : Bodies β σ} (hb : bodies.Orderly) {depth s t root : Nat}
    {c : CoroutineRef} {w₁ w₂ : World β σ} {e : Abort} (h : w.Poised s root c l base)
    (hd : w.dequeue s = some (t, w₁)) (hs : w₁.step (World.resume bodies depth) s t = (.error e, w₂)) :
    (∃ limit, e = .raise (.budget limit)) ∨ e = .outOfFuel := by
  rcases h.sound.turn h.calm (resumesSound hb depth) hd with hf | ⟨limit, w₁, he, -⟩ |
    ⟨_, _, w₁, _, he, -⟩
  · rw [hs] at hf
    exact .inr (Except.error.inj hf)
  · rw [hs] at he
    exact .inl ⟨limit, Except.error.inj (congrArg Prod.fst he)⟩
  · rw [hs] at he
    cases he

/-- **A poised run is not stuck.** -/
theorem Poised.unstuck {bodies : Bodies β σ} (hb : bodies.masked.Orderly) {depth s root : Nat}
    {c : CoroutineRef} (h : w.Poised s root c l base) : w.Unstuck bodies depth s root := by
  refine ⟨fun hd => ?_, fun hd ht => ?_, fun {t w₁ e w₂} hd hs => ?_⟩
  · have ho := h.sound.root_outcome h.calm h.active hd
    rwa [h.start] at ho
  · obtain ⟨x, top, rest, y, -, -, -, hy, hr, ⟨limit, w₁, he, -⟩ | ⟨w₁, he, hhandles, -⟩⟩ :=
      h.sound.takeUp h.calm hd
    · rw [ht] at he
      cases he
    · rw [ht] at he
      cases he
      exact ⟨_, by rw [enter, hhandles, hy]; simp only [hr]; rfl⟩
  · by_cases hbodies : bodies.Orderly
    · exact (h.stops hbodies hd hs).imp_right .inl
    · have hmasked := step_akin (resume_masked bodies depth) w₁ s t
      rw [hs] at hmasked
      rcases hs' : w₁.step (World.resume bodies.masked depth) s t with ⟨e' | ⟨⟩, w₂'⟩ <;>
        rw [hs'] at hmasked <;> cases hmasked
      next he =>
        rcases h.stops hb hd hs' with ⟨limit, rfl⟩ | rfl
        · cases e <;> cases he
          exact .inl ⟨limit, rfl⟩
        · exact .inr (.inr ⟨hbodies, he.symm⟩)

/-! ### The number of turns -/

/-- How often a log says that a coroutine was resumed. -/
def resumes (log : List (CoroutineRef × Step)) (i : Nat) : Nat := log.countP (·.1.id = i)

/-- A log is as long as the resumes of its coroutines are many. -/
theorem length_eq_sum_resumes {log : List (CoroutineRef × Step)} {n : Nat}
    (h : ∀ x ∈ log, x.1.id < n) : log.length = ∑ i ∈ Finset.range n, resumes log i := by
  induction log with
  | nil => simp [resumes]
  | cons x log ih =>
      have hx : x.1.id < n := h x List.mem_cons_self
      have hsum : ∑ i ∈ Finset.range n, (if x.1.id = i then 1 else 0) = 1 := by
        rw [Finset.sum_ite_eq, if_pos (Finset.mem_range.mpr hx)]
      rw [List.length_cons, ih fun y hy => h y (List.mem_cons_of_mem x hy)]
      simp only [resumes, List.countP_cons, decide_eq_true_eq, Finset.sum_add_distrib, hsum]

/-- A turn resumes a coroutine that has not finished, and leaves it finished unless it awaits. -/
theorem turn_resumes {bodies : Bodies β σ} {depth s t : Nat} {c : CoroutineRef} {step : Step}
    {w₁ w₂ : World β σ} (hd : w.dequeue s = some (t, w₁))
    (hs : w₁.step (World.resume bodies depth) s t = (.ok (), w₂))
    (hlog : w₁.resumed (World.resume bodies depth) s t = [(c, step)]) :
    w.Steady w₂ ∧ (∃ x, w.handles.get? c.id = some x ∧ x.status.isFixed = false) ∧
      ((∀ target, step ≠ .await target) →
        ∃ x, w₂.handles.get? c.id = some x ∧ x.status.isFixed = true) := by
  obtain ⟨_, _, -, -, hw⟩ := dequeue_eq_some hd
  have hsame : w₁.handles = w.handles := by rw [hw]; rfl
  have htake := handles_takeUp w₁ s t
  have hsteady := Steady.step bodies depth w₁ s t
  rw [hs] at hsteady
  refine ⟨.trans (.of_handles hsame) hsteady, ?_⟩
  simp only [resumed, World.step] at hlog hs
  split at hlog
  · next top input w₃ he =>
      rw [he] at hs htake
      simp only at hs
      split at hlog
      · next step' w₄ hr =>
          cases hlog
          rw [hr] at hs
          obtain ⟨hold, hnew⟩ := finished_of_resume hr
          have habsorb := Steady.absorb w₄ s t c step
          simp only at hs
          rw [hs] at habsorb
          refine ⟨by rwa [htake, hsame] at hold, fun hstep => ?_⟩
          obtain ⟨x, hx, hfin⟩ := hnew hstep
          have hfixed : x.status.isFixed = true := by
            cases e : x.status <;> simp [e, Status.isFinished, Status.isFixed] at hfin ⊢
          obtain ⟨y, hy, e, -⟩ := habsorb hx hfixed
          exact ⟨y, hy, e ▸ hfixed⟩
      · cases hlog
  · cases hlog

/-- Bounds on a run: the coroutines that can ever be created are fewer than `n`, and coroutine `i`
awaits nothing any more from its `k i`-th resume on. -/
structure Bounded (resume : CoroutineRef → Input → World β σ → Except Abort Step × World β σ)
    (s : Nat) (w : World β σ) (n : Nat) (k : Nat → Nat) : Prop where
  created : ∀ {log w'}, Turns resume s w log w' → w'.handles.size ≤ n
  ends : ∀ {log c target w'}, Turns resume s w (log ++ [(c, .await target)]) w' →
    resumes (log ++ [(c, .await target)]) c.id < k c.id
  positive : ∀ i, 0 < k i

/-- No coroutine is resumed more often than its bound says: from the last of these resumes on it has
finished. -/
theorem Poised.resumes_le {bodies : Bodies β σ} (hb : bodies.masked.Orderly) {depth s root n : Nat}
    {c : CoroutineRef} {k : Nat → Nat} {log : List (CoroutineRef × Step)}
    (h : w.Poised s root c l base) (hbound : Bounded (World.resume bodies depth) s w n k)
    (ht : Turns (World.resume bodies depth) s w log w') :
    (∀ i, resumes log i ≤ k i) ∧ (∀ x ∈ log, x.1.id < n) ∧ ∀ i, resumes log i = k i →
      ∃ x, w'.handles.get? i = some x ∧ x.status.isFixed = true := by
  induction ht with
  | refl =>
      refine ⟨fun i => Nat.zero_le _, by simp, fun i hi => ?_⟩
      exact absurd hi (hbound.positive i).ne
  | @more t log w₁ w₂ w₃ hturns hd hs ih =>
      obtain ⟨hle, hmem, hfixed⟩ := ih
      obtain ⟨l₁, hp⟩ := h.turns (resumesSound hb depth) (turns_masked.mpr hturns)
      obtain ⟨l₂, -, d, step, hlog⟩ := hp.turn_masked hb hd hs
      obtain ⟨hsteady, ⟨x, hx, hx'⟩, hfin⟩ := turn_resumes hd hs hlog
      have hmore := hturns.more hd hs
      rw [hlog] at hmore ⊢
      have hcount : ∀ i, resumes (log ++ [(d, step)]) i =
          resumes log i + if d.id = i then 1 else 0 := fun i => by
        simp [resumes, List.countP_append, List.countP_cons]
      have hlt : resumes log d.id < k d.id := by
        refine lt_of_le_of_ne (hle d.id) fun e => ?_
        obtain ⟨y, hy, hy'⟩ := hfixed d.id e
        rw [hx] at hy
        cases hy
        rw [hx'] at hy'
        cases hy'
      refine ⟨fun i => ?_, fun y hy => ?_, fun i hi => ?_⟩
      · rw [hcount]
        split
        · next e => exact e ▸ hlt
        · exact hle i
      · rcases List.mem_append.mp hy with hy | hy
        · exact hmem y hy
        · rw [List.mem_singleton.mp hy]
          exact (Table.lt_size_of_get? hx).trans_le (hbound.created hturns)
      · rw [hcount] at hi
        split at hi
        · next e =>
            subst e
            refine hfin fun target e => ?_
            subst e
            have := hbound.ends hmore
            rw [hcount, if_pos rfl] at this
            omega
        · obtain ⟨y, hy, hy'⟩ := hfixed i hi
          obtain ⟨z, hz, e, -⟩ := hsteady hy hy'
          exact ⟨z, hz, e ▸ hy'⟩

/-- A run takes at most as many turns as the bounds of its coroutines add up to. -/
theorem Poised.length_le {bodies : Bodies β σ} (hb : bodies.masked.Orderly) {depth s root n : Nat}
    {c : CoroutineRef} {k : Nat → Nat} {log : List (CoroutineRef × Step)}
    (h : w.Poised s root c l base) (hbound : Bounded (World.resume bodies depth) s w n k)
    (ht : Turns (World.resume bodies depth) s w log w') :
    log.length ≤ ∑ i ∈ Finset.range n, k i := by
  obtain ⟨hle, hmem, -⟩ := h.resumes_le hb hbound ht
  rw [length_eq_sum_resumes hmem]
  exact Finset.sum_le_sum fun i _ => hle i

/-! ### The loop ends -/

/-- The loop of a run ends in a world: its queue is empty, or its next turn stops it. -/
def LoopEnds (bodies : Bodies β σ) (depth s fuel : Nat) (w w' : World β σ) : Prop :=
  w'.dequeue s = none ∧ drain (World.resume bodies depth) s fuel w = (.ok (), w') ∨
  ∃ t w₁ e, w'.dequeue s = some (t, w₁) ∧ Stops bodies e ∧
    (w₁.step (World.resume bodies depth) s t).1 = .error e ∧
    (drain (World.resume bodies depth) s fuel w).1 = .error e

/-- The loop of a poised run ends in less turns than it may take, or takes them all. -/
theorem Poised.loop {bodies : Bodies β σ} (hb : bodies.masked.Orderly) {depth s root : Nat}
    {c : CoroutineRef} (fuel : Nat) (h : w.Poised s root c l base) :
    ∃ log w', Turns (World.resume bodies depth) s w log w' ∧
      (log.length = fuel ∨ log.length < fuel ∧ LoopEnds bodies depth s fuel w w') := by
  induction fuel generalizing w l with
  | zero => exact ⟨[], w, .refl, .inl rfl⟩
  | succ fuel ih =>
      cases hd : w.dequeue s with
      | none =>
          refine ⟨[], w, .refl, .inr ⟨Nat.succ_pos fuel, .inl ⟨hd, ?_⟩⟩⟩
          simp only [drain, hd]
      | some x =>
          obtain ⟨t, w₁⟩ := x
          rcases hs : w₁.step (World.resume bodies depth) s t with ⟨e | ⟨⟩, w₂⟩
          · refine ⟨[], w, .refl, .inr ⟨Nat.succ_pos fuel, .inr ⟨t, w₁, e, hd, ?_, ?_, ?_⟩⟩⟩
            · exact (h.unstuck hb).stops hd hs
            · rw [hs]
            · simp only [drain, hd, hs]
          · obtain ⟨l', hp, d, step, hlog⟩ := h.turn_masked hb hd hs
            obtain ⟨log, w', hturns, hrest⟩ := ih hp
            have hmore := Turns.more .refl hd hs
            rw [hlog] at hmore
            refine ⟨[(d, step)] ++ log, w', hmore.trans hturns, ?_⟩
            have hdrain : drain (World.resume bodies depth) s (fuel + 1) w =
                drain (World.resume bodies depth) s fuel w₂ := by
              simp only [drain, hd, hs]
            rw [List.length_append, List.length_singleton, LoopEnds, hdrain]
            exact hrest.imp (by omega) (And.imp_left (by omega))

/-- **Runs are never stuck, and they end.**  No action runs into an error of the host unless it or a body
ends with one.  Every run that it opens has, whenever its queue is empty, an outcome for its root, and its
turns end it at its bounds only, or where a body fails with such an error; where coroutines are fewer than
`n` and coroutine `i` ends with its `k i`-th resume at the latest, the loop of the run ends after at most
`∑ k i` resumes. -/
theorem runs_end {bodies : Bodies β σ} (hb : bodies.masked.Orderly) {α : Type} {action : Action β σ α}
    (ha : action.masked.Orderly) (limits : List (Option Number)) (shared : σ) (fuel : Nat) :
    (bodies.Orderly → action.Orderly → ∀ message,
      (perform bodies fuel action (World.initial limits shared)).1 ≠ .error (.host message)) ∧
    ∀ {s c depth root w}, Opens bodies action fuel (World.initial limits shared) s c depth root w →
      (∀ {log w'}, Turns (World.resume bodies depth) s w log w' →
        w'.Unstuck bodies depth s root) ∧
      ∀ {n k}, Bounded (World.resume bodies depth) s w n k →
        (∀ {log w'}, Turns (World.resume bodies depth) s w log w' →
          log.length ≤ ∑ i ∈ Finset.range n, k i) ∧
        ∀ m, ∑ i ∈ Finset.range n, k i < m → ∃ log w',
          Turns (World.resume bodies depth) s w log w' ∧ LoopEnds bodies depth s m w w' := by
  refine ⟨fun hb ha message e => ?_, fun {s c depth root w} ho => ⟨fun ht => ?_, fun hbound => ?_⟩⟩
  · have hk := (Sound.initial limits shared fun _ => ⟨0, ⟨0, ""⟩⟩).perform (runsSound hb fuel) ha
    rcases hk with hk | ⟨⟨r, hk⟩, -⟩
    · exact nomatch e.symm.trans hk
    · simp only [perform] at e
      rw [e] at hk
      cases hk
  · obtain ⟨l, base, hp⟩ := poised_between_turns hb ha ho ht
    exact hp.unstuck hb
  · obtain ⟨l, base, hp⟩ := poised_between_turns hb ha ho .refl
    refine ⟨fun ht => hp.length_le hb hbound ht, fun m hm => ?_⟩
    obtain ⟨log, w', hturns, hlen | ⟨-, he⟩⟩ := hp.loop hb m
    · exact absurd (hlen ▸ hp.length_le hb hbound hturns) (by omega)
    · exact ⟨log, w', hturns, he⟩

/-! ### The gathering coroutine -/

/-- The worlds between the turns of the gathering coroutine. -/
theorem turns_gathering_cases {log : List (CoroutineRef × Step)} {w : World Bool Unit}
    (h : Turns (World.resume gathering 1) 0 gatheringStarts log w) :
    log = [] ∧ w = gatheringStarts ∨ log = gatheringLog.take 1 ∧ w = gatheringWaits ∨
      log = gatheringLog.take 2 ∧ w = gatheringResumes ∨ log = gatheringLog ∧ w = gatheringEnds := by
  -- what the next turn starts from
  have hnext : ∀ {v w₁ : World Bool Unit} {t t' : Nat}, w₁.dequeue 0 = some (t, v) →
      w₁.dequeue 0 = some (t', w₁.modifyContext 0 fun ctx => { ctx with ready := [] }) →
      t = t' ∧ v = w₁.modifyContext 0 fun ctx => { ctx with ready := [] } := by
    intro v w₁ t t' h h'
    rw [h] at h'
    cases h'
    exact ⟨rfl, rfl⟩
  induction h with
  | refl => exact .inl ⟨rfl, rfl⟩
  | more _ hd hs ih =>
      rcases ih with ⟨rfl, rfl⟩ | ⟨rfl, rfl⟩ | ⟨rfl, rfl⟩ | ⟨rfl, rfl⟩
      · obtain ⟨rfl, rfl⟩ := hnext hd rfl
        exact .inr (.inl ⟨rfl, (congrArg Prod.snd hs).symm⟩)
      · obtain ⟨rfl, rfl⟩ := hnext hd rfl
        exact .inr (.inr (.inl ⟨rfl, (congrArg Prod.snd hs).symm⟩))
      · obtain ⟨rfl, rfl⟩ := hnext hd rfl
        exact .inr (.inr (.inr ⟨rfl, (congrArg Prod.snd hs).symm⟩))
      · cases hd

/-- The gathering coroutine ends with its second resume, the member of its group with its first. -/
theorem bounded_gathering : Bounded (World.resume gathering 1) 0 gatheringStarts 2
    fun i => if i = 0 then 2 else 1 := by
  refine ⟨fun h => ?_, fun {log c target w} h => ?_, fun i => ?_⟩
  · rcases turns_gathering_cases h with ⟨-, rfl⟩ | ⟨-, rfl⟩ | ⟨-, rfl⟩ | ⟨-, rfl⟩ <;> decide
  · have hlast : (log ++ [(c, Step.await target)]).getLast? = some (c, .await target) := by simp
    rcases turns_gathering_cases h with ⟨e, -⟩ | ⟨e, -⟩ | ⟨e, -⟩ | ⟨e, -⟩ <;> rw [e] at hlast ⊢
    · cases hlast
    · cases hlast
      decide
    · cases hlast
    · cases hlast
  · split <;> decide

/-- The loop of the gathering coroutine ends, in three turns at most. -/
theorem gathering_run_ends : gatheringWaits.Unstuck gathering 1 0 0 ∧ ∃ log w,
    Turns (World.resume gathering 1) 0 gatheringStarts log w ∧ log.length ≤ 3 ∧
      LoopEnds gathering 1 0 4 gatheringStarts w := by
  obtain ⟨hunstuck, hends⟩ :=
    (runs_end gathering_orderly.masked runGathering_orderly.masked [none] () 1).2 opens_gathering
  obtain ⟨hlen, hloop⟩ := hends bounded_gathering
  obtain ⟨log, w, ht, he⟩ := hloop 4 (by decide)
  exact ⟨hunstuck turns_gathering, log, w, ht, hlen ht, he⟩

end World

end Coroutines
