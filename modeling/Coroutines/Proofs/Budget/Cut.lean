import Coroutines.Proofs.Budget.Blind
import Coroutines.Proofs.Exact
import Mathlib.Order.Basic

/-!
# A limit cuts a run off

A run with a limit of `m` resumes is the beginning of the run without one.  If that run ends within `m`
resumes, the run with the limit is the same run; else it stands, after the first `m` resumes, where
the other goes on with the next one, and ends there.
-/

namespace Coroutines

/-- A number is a whole number of things. -/
def Number.Counts (n : Number) (m : Nat) : Prop := ∃ h, n = .finite (m * Number.one) h

theorem Number.Counts.exceededBy {n : Number} {m k : Nat} (h : n.Counts m) :
    Number.exceededBy k n = decide (m < k) := by
  obtain ⟨-, rfl⟩ := h
  have hone : (0 : Int) < Number.one := Int.natCast_pos.mpr Number.one_pos
  simp only [Number.exceededBy, decide_eq_decide]
  rw [Int.mul_lt_mul_right hone, Int.ofNat_lt]

/-- Whole numbers that are exact count. -/
theorem Number.counts_ofNat {m : Nat} (h : m ≤ maxExact) : (Number.ofNat m).Counts m :=
  ⟨representable_mul_one h, ofInt_of_representable _⟩

namespace World

variable {β σ : Type} {w w' w₁ : World β σ} {s t k m : Nat} {n : Number}
  {resume : CoroutineRef → Input → World β σ → Except Abort Step × World β σ}

/-- The count of resumes in the run of a scheduler. -/
def steps (w : World β σ) (s : Nat) : Nat := ((w.context? s).map RunContext.steps).getD 0

/-- A run without a limit is in progress and has made some resumes. -/
def Unlimited (w : World β σ) (s k : Nat) : Prop := w.gauge s = some (some k, none)

theorem Unlimited.isActive (h : w.Unlimited s k) : w.isActive s = true := by
  rw [isActive_eq_gauge, h]
  rfl

theorem Unlimited.of_gauge (h : w.Unlimited s k) (e : w'.gauge s = w.gauge s) : w'.Unlimited s k :=
  e.trans h

theorem steps_of_gauge {x : Option Number} (h : w.gauge s = some (some k, x)) : w.steps s = k := by
  obtain ⟨y, hy, e⟩ := Option.map_eq_some_iff.mp h
  have hk : y.context.map RunContext.steps = some k := congrArg Prod.fst e
  simp only [steps, context?, hy, Option.bind_some, hk, Option.getD_some]

theorem gauge_counted (w : World β σ) (s : Nat) :
    (w.counted s).gauge s = (w.gauge s).map fun x => (x.1.map (· + 1), x.2) := by
  simp only [gauge, counted, modifyContext, modifyScheduler, Table.get?_modify_self]
  cases w.schedulers.get? s <;> simp [Function.comp_def]

theorem Unlimited.counted (h : w.Unlimited s k) : (w.counted s).Unlimited s (k + 1) := by
  rw [Unlimited, gauge_counted, h]
  rfl

theorem gauge_limited_self : (w.limited s n).gauge s = (w.gauge s).map fun x => (x.1, some n) := by
  simp only [gauge, get?_schedulers_limited, if_true]
  cases w.schedulers.get? s <;> rfl

/-! ### One turn -/

/-- A run without a limit takes a task up, if this has a coroutine to resume. -/
theorem Unlimited.takeUp (h : w.Unlimited s k) (t : Nat) : w.takeUp s t = (.ok none, w) ∨
    ∃ x, w.takeUp s t = (.ok (some x), (w.counted s).taken t) := by
  have hfree : (w.counted s).exceeded? s = none := by
    rw [exceeded?_eq, h.counted]
  rw [takeUp_eq, hfree]
  cases (w.tasks.get? t).bind fun x => x.chain.head?.map (·, x.inbox) with
  | none => exact .inl rfl
  | some x => exact .inr ⟨x, rfl⟩

/-- A run with a limit takes a task up as well, unless it has made as many resumes already. -/
theorem Unlimited.takeUp_limited (h : w.Unlimited s k) (hn : n.Counts m) (t : Nat) :
    (w.limited s n).takeUp s t = match w.takeUp s t with
      | (.ok (some x), w') => if m ≤ k then (.error (.raise (.budget n)),
          ((w.counted s).emit s (.budgetExceeded n)).limited s n) else (.ok (some x), w'.limited s n)
      | (r, w') => (r, w'.limited s n) := by
  have hcounted : (w.limited s n).counted s = (w.counted s).limited s n := modifyContext_limited ..
  have hfree : (w.counted s).exceeded? s = none := by
    rw [exceeded?_eq, h.counted]
  have hlimit : ((w.counted s).limited s n).exceeded? s = if m ≤ k then some n else none := by
    rw [exceeded?_eq, gauge_limited_self, h.counted, Option.map_some]
    simp only [hn.exceededBy, decide_eq_true_eq, Nat.lt_succ_iff]
  rw [takeUp_eq, takeUp_eq, tasks_limited, hcounted, hfree, hlimit]
  cases (w.tasks.get? t).bind fun x => x.chain.head?.map (·, x.inbox) with
  | none => rfl
  | some x => by_cases hk : m ≤ k <;> simp only [hk, if_true, if_false] <;> rfl

/-- A turn counts the resume that it makes. -/
theorem Unlimited.step (hres : ∀ c input, Blind s n (resume c input)) (h : w.Unlimited s k)
    (t : Nat) : ∃ k', (w.step resume s t).2.Unlimited s k' ∧ k ≤ k' ∧
      (w.takeUp s t = (.ok none, w) → k' = k) ∧
      (∀ x w₁, w.takeUp s t = (.ok (some x), w₁) → k' = k + 1) ∧
      ∀ w', w.step resume s t = (.ok (), w') → k' = k + (w.resumed resume s t).length := by
  rcases h.takeUp t with htake | ⟨⟨top, input⟩, htake⟩
  · simp only [World.step, resumed, htake]
    exact ⟨k, h, Nat.le_refl k, fun _ => rfl, (fun _ _ h => by cases h), fun _ _ => rfl⟩
  · have hcounted : ((w.counted s).taken t).Unlimited s (k + 1) := h.counted
    have hgauge := (hres top input).gauge _ hcounted.isActive
    simp only [World.step, resumed, htake]
    refine ⟨k + 1, ?_, Nat.le_succ k, (fun h => by cases h), fun _ _ _ => rfl, ?_⟩
    · rcases hr : resume top input ((w.counted s).taken t) with ⟨e | step, w₁⟩ <;> rw [hr] at hgauge
      · exact hcounted.of_gauge hgauge
      · exact hcounted.of_gauge ((gauge_absorb ..).trans hgauge)
    · rcases resume top input ((w.counted s).taken t) with ⟨e | step, w₁⟩
      · exact (fun _ h => by cases h)
      · exact fun _ _ => rfl

/-- **Below its limit a run takes the same turn as without one.** -/
theorem Unlimited.step_limited (hres : ∀ c input, Blind s n (resume c input))
    (h : w.Unlimited s k) (hn : n.Counts m) (hk : k < m ∨ w.takeUp s t = (.ok none, w)) :
    (w.limited s n).step resume s t = (w.step resume s t).map id (limited · s n) ∧
      (w.limited s n).resumed resume s t = w.resumed resume s t := by
  have hlimited := h.takeUp_limited hn t
  rcases h.takeUp t with htake | ⟨⟨top, input⟩, htake⟩ <;> rw [htake] at hlimited
  · simp only [World.step, resumed, htake, hlimited, Prod.map_apply, id, and_self]
  · have hk' : k < m := hk.resolve_right fun e => by
      rw [htake] at e
      cases e
    simp only [if_neg (Nat.not_le_of_lt hk')] at hlimited
    have hcounted : ((w.counted s).taken t).Unlimited s (k + 1) := h.counted
    have hblind := (hres top input).limited _ hcounted.isActive
    simp only [World.step, resumed, htake, hlimited, hblind]
    rcases resume top input ((w.counted s).taken t) with ⟨e | step, w₁⟩
    · exact ⟨rfl, rfl⟩
    · exact ⟨absorb_limited .., rfl⟩

/-! ### The loop -/

/-- Where a limit ends a run: after turns that the run without the limit takes as well, with `resumes`
resumes in them, and before the next resume, which that run goes on with.  The limit is reported, and
no coroutine, group or task changes. -/
structure CutOff (resume : CoroutineRef → Input → World β σ → Except Abort Step × World β σ)
    (s : Nat) (n : Number) (resumes : Nat) (w : World β σ) (log : List (CoroutineRef × Step))
    (w' v : World β σ) : Prop where
  turns : Turns resume s w log w'
  turns_limited : Turns resume s (w.limited s n) log (w'.limited s n)
  length : log.length = resumes
  next : ∃ t w₁ x w₂, w'.dequeue s = some (t, w₁) ∧ w₁.takeUp s t = (.ok (some x), w₂)
  trace : v.trace = w'.trace.push (s, .budgetExceeded n)
  handles : v.handles = w'.handles
  groups : v.groups = w'.groups
  tasks : v.tasks = w'.tasks
  shared : v.shared = w'.shared

/-- A loop counts its resumes. -/
theorem Unlimited.loop (hres : ∀ c input, Blind s n (resume c input)) (fuel : Nat)
    (h : w.Unlimited s k) : ∃ k', (World.drain resume s fuel w).2.Unlimited s k' ∧ k ≤ k' := by
  induction fuel generalizing w k with
  | zero => exact ⟨k, h, Nat.le_refl k⟩
  | succ fuel ih =>
      simp only [World.drain]
      rcases hd : w.dequeue s with _ | ⟨t, w₁⟩
      · exact ⟨k, h, Nat.le_refl k⟩
      obtain ⟨k₁, hk₁, hle, -⟩ := (h.of_gauge (gauge_dequeue s hd)).step hres t
      rcases hs : w₁.step resume s t with ⟨e | ⟨⟩, w₂⟩ <;> rw [hs] at hk₁ <;> simp only [hs]
      · exact ⟨k₁, hk₁, hle⟩
      · obtain ⟨k', hk', hle'⟩ := ih hk₁
        exact ⟨k', hk', Nat.le_trans hle hle'⟩

/-- A run that has made as many resumes as the limit allows is cut off before the next one, which the
run without the limit goes on with. -/
theorem Unlimited.cut (hres : ∀ c input, Blind s n (resume c input)) (hn : n.Counts m) (fuel : Nat)
    (h : w.Unlimited s m) {t : Nat} {w₁ w₂ : World β σ} {x : CoroutineRef × Input}
    (hd : w.dequeue s = some (t, w₁)) (htake : w₁.takeUp s t = (.ok (some x), w₂)) :
    (∃ k, (World.drain resume s (fuel + 1) w).2.Unlimited s k ∧ m < k) ∧
      ∃ v, CutOff resume s n 0 w [] w v ∧
        World.drain resume s (fuel + 1) (w.limited s n) = (.error (.raise (.budget n)), v) := by
  have h₁ : w₁.Unlimited s m := h.of_gauge (gauge_dequeue s hd)
  obtain ⟨k₁, hk₁, -, -, hsome, -⟩ := h₁.step hres t
  have hlt := hsome _ _ htake
  constructor
  · rcases hs : w₁.step resume s t with ⟨e | ⟨⟩, w₃⟩ <;> rw [hs] at hk₁ <;>
      simp only [World.drain, hd, hs]
    · exact ⟨k₁, hk₁, by omega⟩
    · obtain ⟨k', hk', hle⟩ := hk₁.loop hres fuel
      exact ⟨k', hk', by omega⟩
  · have hlimited := h₁.takeUp_limited hn t
    rw [htake] at hlimited
    simp only [Nat.le_refl, if_true] at hlimited
    obtain ⟨_, _, -, -, hw₁⟩ := dequeue_eq_some hd
    refine ⟨((w₁.counted s).emit s (.budgetExceeded n)).limited s n,
      ⟨.refl, .refl, rfl, ⟨t, w₁, x, _, hd, htake⟩, ?_, ?_, ?_, ?_, ?_⟩, ?run⟩
    case run =>
      simp only [World.drain, dequeue_limited, hd, Option.map_some, Prod.map_apply, id, World.step,
        hlimited]
    all_goals rw [hw₁]; rfl

/-- **The loop of a run with a limit**: it is that of the run without one, if this makes no more resumes
than the limit allows, and is cut off at the limit else. -/
theorem Unlimited.drain (hres : ∀ c input, Blind s n (resume c input)) (hn : n.Counts m)
    (fuel : Nat) (h : w.Unlimited s k) (hk : k ≤ m) :
    ∃ k', (World.drain resume s fuel w).2.Unlimited s k' ∧ k ≤ k' ∧
      (k' ≤ m → World.drain resume s fuel (w.limited s n) =
        (World.drain resume s fuel w).map id (limited · s n)) ∧
      (m < k' → ∃ log w' v, CutOff resume s n (m - k) w log w' v ∧
        World.drain resume s fuel (w.limited s n) = (.error (.raise (.budget n)), v)) := by
  induction fuel generalizing w k with
  | zero => exact ⟨k, h, Nat.le_refl k, fun _ => rfl, fun hlt => absurd hk (Nat.not_le_of_lt hlt)⟩
  | succ fuel ih =>
      rcases hd : w.dequeue s with _ | ⟨t, w₁⟩
      · simp only [World.drain, dequeue_limited, hd]
        exact ⟨k, h, Nat.le_refl k, fun _ => rfl, fun hlt => absurd hk (Nat.not_le_of_lt hlt)⟩
      have h₁ : w₁.Unlimited s k := h.of_gauge (gauge_dequeue s hd)
      by_cases hcut : k < m ∨ w₁.takeUp s t = (.ok none, w₁)
      · -- the turn is taken with the limit as well
        have hd' : (w.limited s n).dequeue s = some (t, w₁.limited s n) := by
          rw [dequeue_limited, hd]
          rfl
        obtain ⟨k₁, hk₁, hle, hnone, hsome, hlog⟩ := h₁.step hres t
        obtain ⟨hstep, hresumed⟩ := h₁.step_limited hres hn hcut
        have hkm : k₁ ≤ m := by
          rcases h₁.takeUp t with e | ⟨x, e⟩
          · exact (hnone e).trans_le hk
          · have hlt : k < m := hcut.resolve_right fun e' => by
              rw [e] at e'
              cases e'
            exact (hsome _ _ e).trans_le hlt
        simp only [World.drain, hd, hd', hstep]
        rcases hs : w₁.step resume s t with ⟨e | ⟨⟩, w₂⟩
        · rw [hs] at hk₁
          exact ⟨k₁, hk₁, hle, fun _ => rfl, fun hlt => absurd hkm (Nat.not_le_of_lt hlt)⟩
        · rw [hs] at hk₁
          obtain ⟨k', hk', hle', hsame, hcutoff⟩ := ih hk₁ hkm
          refine ⟨k', hk', Nat.le_trans hle hle', hsame, fun hlt => ?_⟩
          obtain ⟨log, w₃, v, hcutoff, hv⟩ := hcutoff hlt
          have hfirst := Turns.more .refl hd hs
          have hfirst' := Turns.more .refl hd' (hstep.trans (by rw [hs]; rfl))
          rw [hresumed] at hfirst'
          refine ⟨_, w₃, v, { hcutoff with
            turns := hfirst.trans hcutoff.turns
            turns_limited := hfirst'.trans hcutoff.turns_limited
            length := ?_ }, hv⟩
          have := hlog w₂ hs
          rw [List.length_append, List.nil_append, hcutoff.length]
          omega
      · -- the run has made as many resumes as the limit allows
        obtain ⟨hmk, hnot⟩ := not_or.mp hcut
        obtain rfl : m = k := Nat.le_antisymm (Nat.le_of_not_lt hmk) hk
        obtain ⟨x, htake⟩ := (h₁.takeUp t).resolve_left hnot
        obtain ⟨⟨k', hk', hlt⟩, v, hcutoff, hv⟩ := h.cut hres hn fuel hd htake
        exact ⟨k', hk', Nat.le_of_lt hlt, fun hle => absurd hlt (Nat.not_lt_of_le hle), fun _ =>
          ⟨[], w, v, (Nat.sub_self m).symm ▸ hcutoff, hv⟩⟩

/-- Turns within the limit are taken with it as well. -/
theorem Unlimited.turns (hres : ∀ c input, Blind s n (resume c input)) (hn : n.Counts m)
    (h : w.Unlimited s k) {log : List (CoroutineRef × Step)} (ht : Turns resume s w log w') :
    w'.Unlimited s (k + log.length) ∧ (k + log.length ≤ m →
      Turns resume s (w.limited s n) log (w'.limited s n)) := by
  induction ht with
  | refl => exact ⟨h, fun _ => .refl⟩
  | @more t log w₁ w₂ w₃ _ hd hs ih =>
      obtain ⟨hk, hturns⟩ := ih
      have h₂ : w₂.Unlimited s (k + log.length) := hk.of_gauge (gauge_dequeue s hd)
      obtain ⟨k₃, hk₃, hle, hnone, hsome, hlog⟩ := h₂.step hres t
      rw [hs] at hk₃
      have hlen := hlog w₃ hs
      rw [List.length_append, ← Nat.add_assoc, ← hlen]
      refine ⟨hk₃, fun hkm => ?_⟩
      have hd' : (w₁.limited s n).dequeue s = some (t, w₂.limited s n) := by
        rw [dequeue_limited, hd]
        rfl
      have hroom : k + log.length < m ∨ w₂.takeUp s t = (.ok none, w₂) := by
        refine (h₂.takeUp t).symm.imp (fun ⟨x, e⟩ => ?_) id
        have := hsome _ _ e
        omega
      obtain ⟨hstep, hresumed⟩ := h₂.step_limited hres hn hroom
      rw [← hresumed]
      exact (hturns (Nat.le_trans hle hkm)).more hd' (hstep.trans (by rw [hs]; rfl))

/-! ### The run -/

/-- A run that starts without a limit has made no resume. -/
theorem unlimited_of_start {c : CoroutineRef} {root : Nat}
    (hw : ∀ x, w.schedulers.get? s = some x → x.maxSteps = none)
    (h : w.start s c = (.ok root, w')) : w'.Unlimited s 0 := by
  unfold start at h
  split at h
  · cases h
  · next hidle =>
      simp only at h
      split at h
      · cases h
      · next w₂ hclaim =>
          cases h
          obtain ⟨⟨x, hx⟩, -⟩ := idle_of_isActive (by simpa using hidle)
          have hg := gauge_claim (w := (w.newTask s c 0 none).2) s c
            ((w.newTask s c 0 none).2.taskId (w.newTask s c 0 none).1)
          rw [hclaim, gauge_newTask] at hg
          simp only [gauge, hx, Option.map_some] at hg
          obtain ⟨y, hy, e⟩ := Option.map_eq_some_iff.mp hg
          have hm : y.maxSteps = none := (congrArg Prod.snd e).trans (hw x hx)
          simp only [Unlimited, gauge, schedulers_emit, activate, modifyScheduler,
            Table.get?_modify_self, hy, Option.map_some, hm]

/-- **A limit of `m` resumes cuts a run off exactly there.**  In the world with the limit a run starts as
without it, and takes the same turns as long as these make at most `m` resumes.  If the whole run without
the limit makes at most `m`, the run with it is the same and ends in the same way.  Else the run with the
limit ends where the other goes on with its next resume, with the failure of its budget, which no
coroutine, task or group gets to know of; after that its root is released and the scheduler idle, as at
the end of every run. -/
theorem run_limited {bodies : Bodies β σ} (hn : n.Counts m)
    (hw : ∀ x, w.schedulers.get? s = some x → x.maxSteps = none) (depth fuel : Nat)
    (c : CoroutineRef) :
    (w.limited s n).start s c = (w.start s c).map id (limited · s n) ∧
    (∀ e w₁, w.start s c = (.error e, w₁) →
      (w.limited s n).runWith (World.resume bodies depth) fuel s c =
        (w.runWith (World.resume bodies depth) fuel s c).map id (limited · s n)) ∧
    ∀ root w₁, w.start s c = (.ok root, w₁) →
      (∀ log w₂, Turns (World.resume bodies depth) s w₁ log w₂ → w₂.steps s = log.length ∧
        (log.length ≤ m →
          Turns (World.resume bodies depth) s (w₁.limited s n) log (w₂.limited s n))) ∧
      ((World.drain (World.resume bodies depth) s fuel w₁).2.steps s ≤ m →
        (w.limited s n).runWith (World.resume bodies depth) fuel s c =
          (w.runWith (World.resume bodies depth) fuel s c).map id (limited · s n)) ∧
      (m < (World.drain (World.resume bodies depth) s fuel w₁).2.steps s →
        ∃ log w₂ v, CutOff (World.resume bodies depth) s n m w₁ log w₂ v ∧
          (w.limited s n).runWith (World.resume bodies depth) fuel s c =
            (.error (.script ⟨.budget n, []⟩), (v.release c).deactivate s)) := by
  have hres : ∀ c input, Blind s n (World.resume bodies depth c input) := Blind.resume bodies depth
  have hstart := start_limited w s n s c
  refine ⟨hstart, fun e w₁ h => ?_, fun root w₁ h => ?_⟩
  · simp only [runWith, hstart, h]
    rfl
  · rw [h] at hstart
    have hfree := unlimited_of_start hw h
    obtain ⟨k', hk', -, hsame, hcut⟩ := hfree.drain hres hn fuel (Nat.zero_le m)
    rw [steps_of_gauge hk']
    refine ⟨fun log w₂ ht => ?_, fun hle => ?_, fun hlt => ?_⟩
    · obtain ⟨hsteps, hturns⟩ := hfree.turns hres hn ht
      rw [Nat.zero_add] at hsteps hturns
      exact ⟨steps_of_gauge hsteps, hturns⟩
    · simp only [runWith, hstart, h, Prod.map_apply, id, hsame hle]
      rcases World.drain (World.resume bodies depth) s fuel w₁ with ⟨e | ⟨⟩, w₂⟩
      · simp
      · simp [conclude_limited]
    · obtain ⟨log, w₂, v, hcutoff, hv⟩ := hcut hlt
      refine ⟨log, w₂, v, hcutoff, ?_⟩
      simp only [runWith, hstart, Prod.map_apply, id, hv]
      rfl

/-- The gathering coroutine makes three resumes; a limit of two cuts it off before the last. -/
theorem gathering_cut_off : (Number.ofNat 2).Counts 2 ∧ ∃ log w v,
    CutOff (World.resume gathering 1) 0 (.ofNat 2) 2 gatheringStarts log w v ∧
      ((((World.initial [none] ()).spawn "main" true []).2.limited 0 (.ofNat 2)).runWith
          (World.resume gathering 1) 4 0 ⟨0, "main"⟩) =
        (.error (.script ⟨.budget (.ofNat 2), []⟩), (v.release ⟨0, "main"⟩).deactivate 0) := by
  have hn : (Number.ofNat 2).Counts 2 := Number.counts_ofNat (by decide)
  have hsteps : 2 < (World.drain (World.resume gathering 1) 0 4 gatheringStarts).2.steps 0 := by
    decide
  refine ⟨hn, ?_⟩
  exact ((@run_limited _ _ ((World.initial [none] ()).spawn "main" true []).2 0 _ _ gathering hn
    (fun x hx => by cases hx; rfl) 1 4 ⟨0, "main"⟩).2.2 0 gatheringStarts rfl).2.2 hsteps

end World

end Coroutines
