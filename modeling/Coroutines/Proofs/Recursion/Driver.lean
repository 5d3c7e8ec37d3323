import Coroutines.Proofs.Recursion.Bounds
import Coroutines.Proofs.Recursion.Machine

/-!
# Runs without groups are plain recursion

A recursive driver needs no tasks, no queue and no chain: it resumes a coroutine, and drives what that
awaits to its end before it goes on (`World.Drives`).  Where nobody awaits a group, a run makes the
resumes of the driver, one after the other, and ends as the driver does (`World.run_recursive`).
-/

namespace Coroutines

namespace World

variable {β σ : Type}

/-- Drives a coroutine on with an input to its end, with a record of the inputs that coroutines were
resumed with.  A coroutine that is awaited is claimed for `task` and driven from its start; one that
cannot be claimed counts as an exception at the await. -/
inductive Drives (resume : CoroutineRef → Input → World β σ → Except Abort Step × World β σ)
    (task : Nat) : CoroutineRef → Input → World β σ → List (CoroutineRef × Input) →
      Except Abort Outcome → World β σ → Prop
  | ret {c : CoroutineRef} {input : Input} {v : Value} {w w₁ : World β σ}
      (h : resume c input w = (.ok (.ret v), w₁)) :
      Drives resume task c input w [(c, input)] (.ok (.ok v)) (w₁.release c)
  | raise {c : CoroutineRef} {input : Input} {r : Record} {w w₁ : World β σ}
      (h : resume c input w = (.ok (.raise r), w₁)) :
      Drives resume task c input w [(c, input)] (.ok (.error r)) (w₁.release c)
  | refused {c c' : CoroutineRef} {input : Input} {f : Failure} {log : List (CoroutineRef × Input)}
      {result : Except Abort Outcome} {w w₁ w₂ w₃ : World β σ}
      (h : resume c input w = (.ok (.await (.coroutine c')), w₁))
      (hc : w₁.claim c' task = (some f, w₂))
      (hn : Drives resume task c (.throw (.ofFailure f)) w₂ log result w₃) :
      Drives resume task c input w ((c, input) :: log) result w₃
  | awaited {c c' : CoroutineRef} {input : Input} {outcome : Outcome}
      {log log' : List (CoroutineRef × Input)} {result : Except Abort Outcome}
      {w w₁ w₂ w₃ w₄ : World β σ} (h : resume c input w = (.ok (.await (.coroutine c')), w₁))
      (hc : w₁.claim c' task = (none, w₂)) (hd : Drives resume task c' .start w₂ log (.ok outcome) w₃)
      (hn : Drives resume task c outcome.input w₃ log' result w₄) :
      Drives resume task c input w ((c, input) :: (log ++ log')) result w₄
  /-- A resume that ends without a step ends everything. -/
  | broken {c : CoroutineRef} {input : Input} {e : Abort} {w w₁ : World β σ}
      (h : resume c input w = (.error e, w₁)) :
      Drives resume task c input w [(c, input)] (.error e) w₁
  | brokenInside {c c' : CoroutineRef} {input : Input} {e : Abort}
      {log : List (CoroutineRef × Input)} {w w₁ w₂ w₃ : World β σ}
      (h : resume c input w = (.ok (.await (.coroutine c')), w₁))
      (hc : w₁.claim c' task = (none, w₂)) (hd : Drives resume task c' .start w₂ log (.error e) w₃) :
      Drives resume task c input w ((c, input) :: log) (.error e) w₃

section

variable {resume resume' : CoroutineRef → Input → World β σ → Except Abort Step × World β σ}
  {task : Nat} {c : CoroutineRef} {input : Input} {log : List (CoroutineRef × Input)}
  {result : Except Abort Outcome} {w w' : World β σ}

/-- What the driver comes to within a bound it comes to within every greater one. -/
theorem Drives.prolong (hres : ∀ c input, Prolongs (resume c input) (resume' c input))
    (h : Drives resume task c input w log result w') (hresult : result ≠ .error .outOfFuel) :
    Drives resume' task c input w log result w' := by
  have hok : ∀ {c input w step w₁}, resume c input w = (.ok step, w₁) →
      resume' c input w = (.ok step, w₁) := fun {c input w step w₁} h =>
    (hres c input w (by rw [h]; nofun)).trans h
  induction h with
  | ret h => exact .ret (hok h)
  | raise h => exact .raise (hok h)
  | refused h hc _ ih => exact .refused (hok h) hc (ih hresult)
  | awaited h hc _ _ ih ih' => exact .awaited (hok h) hc (ih nofun) (ih' hresult)
  | @broken c input e w w₁ h =>
      have hends : (resume c input w).1 ≠ .error .outOfFuel := by
        rw [h]
        exact fun e' => hresult (congrArg _ (Except.error.inj e'))
      exact .broken ((hres c input w hends).trans h)
  | brokenInside h hc _ ih => exact .brokenInside (hok h) hc (ih hresult)

/-- How the stack machine goes on after a coroutine has come to its end. -/
def onward (resume : CoroutineRef → Input → World β σ → Except Abort Step × World β σ) (id fuel steps : Nat)
    (rest : List CoroutineRef) (w : World β σ) :
    Except Abort Outcome → List (CoroutineRef × Input) × Except Abort Outcome × World β σ
  | .ok outcome => machine resume id none fuel steps (.handOn rest outcome) w
  | .error e => ([], .error e, w)

/-- A resume of the stack machine without a limit. -/
theorem machine_step {step : Step} (h : resume c input w = (.ok step, w')) (rest : List CoroutineRef)
    (fuel steps : Nat) : machine resume task none (fuel + 1) steps (.busy c rest input) w =
      ((c, input) :: (machine resume task none fuel (steps + 1) (w'.goOn task c rest step).1
          (w'.goOn task c rest step).2).1,
        (machine resume task none fuel (steps + 1) (w'.goOn task c rest step).1
          (w'.goOn task c rest step).2).2) := by
  simp only [machine, excess, Option.filter_none, h]

/-- **The stack machine makes the resumes of the driver**, whatever waits below. -/
theorem Drives.machine (h : Drives resume task c input w log result w') (rest : List CoroutineRef)
    (fuel steps : Nat) :
    World.machine resume task none (log.length + fuel) steps (.busy c rest input) w =
      (log ++ (onward resume task fuel (steps + log.length) rest w' result).1,
        (onward resume task fuel (steps + log.length) rest w' result).2) := by
  induction h generalizing rest fuel steps with
  | ret h =>
      rw [List.length_singleton, Nat.add_comm, machine_step h]
      rfl
  | raise h =>
      rw [List.length_singleton, Nat.add_comm, machine_step h]
      rfl
  | broken h =>
      rw [List.length_singleton, Nat.add_comm]
      simp only [World.machine, excess, Option.filter_none, h]
      rfl
  | @refused c c' input f log result w w₁ w₂ w₃ h hc _ ih =>
      have hsteps : steps + 1 + log.length = steps + (log.length + 1) := by omega
      rw [List.length_cons, Nat.add_right_comm, machine_step h]
      simp only [goOn, hc, ih, hsteps, List.cons_append]
  | @awaited c c' input outcome log log' result w w₁ w₂ w₃ w₄ h hc _ _ ih ih' =>
      have hsteps : steps + 1 + log.length + log'.length = steps + (log.length + log'.length + 1) := by
        omega
      have hfuel : log.length + log'.length + 1 + fuel = log.length + (log'.length + fuel) + 1 := by
        omega
      -- the outcome reaches the coroutine that waits next in the stack
      have hnext : onward resume task (log'.length + fuel) (steps + 1 + log.length) (c :: rest) w₃
          (.ok outcome) = _ := ih' rest fuel (steps + 1 + log.length)
      rw [List.length_cons, List.length_append, hfuel, machine_step h]
      simp only [goOn, hc, ih, hnext, hsteps, List.cons_append, List.append_assoc]
  | @brokenInside c c' input e log w w₁ w₂ w₃ h hc _ ih =>
      rw [List.length_cons, Nat.add_right_comm, machine_step h]
      simp only [goOn, hc, ih, onward, List.cons_append]

/-! ### The run -/

/-- **A run without groups is plain recursion.**  If bodies await no group and a scheduler without a limit
starts a run of a coroutine, then whenever the driver comes to an end from there, the run makes the same
resumes in the same order, gives the outcome that the driver comes to, and leaves all coroutines and
what bodies share as the driver leaves them, with the first coroutine released. -/
theorem run_recursive {bodies : Bodies β σ} (hg : bodies.GroupFree) {s root : Nat}
    (hlimit : w.limitOf s = none) (hstart : w.start s c = (.ok root, w')) {depth : Nat} {v : World β σ}
    (hdrive : Drives (World.resume bodies depth) (w.nextNumber s) c .start w' log result v)
    (hresult : result ≠ .error .outOfFuel) :
    ∃ m, ∀ fuel, m ≤ fuel →
      inputs (World.resume bodies fuel) s fuel w' = log ∧
      (w.run bodies fuel s c).1 = given result ∧
      (w.run bodies fuel s c).2.handles = (v.release c).handles ∧
      (w.run bodies fuel s c).2.shared = v.shared := by
  refine ⟨max depth (log.length + 1), fun fuel hfuel => ?_⟩
  obtain ⟨k, hk⟩ : ∃ k, fuel = log.length + (k + 1) := ⟨fuel - log.length - 1, by omega⟩
  have hdrive' := hdrive.prolong (Prolongs.resume bodies (m := fuel) (by omega)) hresult
  have hunaware := Unaware.resume hg fuel
  -- the run ends as the stack machine does, and this as the driver does
  have hmachine := hdrive'.machine [] (k + 1) 0
  have hend : (onward (World.resume bodies fuel) (w.nextNumber s) (k + 1) (0 + log.length) [] v
      result) = ([], result, v) := by
    cases result <;> rfl
  rw [← hk, hend, List.append_nil] at hmachine
  obtain ⟨-, -, hstands, -⟩ := stands_start hstart
  obtain ⟨hinputs, -⟩ := hstands.drain hunaware (hg fuel) (.refl w') fuel
  obtain ⟨u, hrun, hlook, -⟩ := runWith_machine hunaware (hg fuel) hstart (.refl w') fuel
  rw [hlimit, hmachine] at hinputs hrun hlook
  simp only [run, hrun]
  exact ⟨hinputs, trivial, hlook.handles, hlook.shared⟩

end

/-! ### A coroutine that awaits itself -/

/-- Bodies whose actions never end with the await of a group await none. -/
theorem groupFree_of_perform {bodies : Bodies β σ}
    (h : ∀ runner body frame input (w : World β σ) frame' g,
      ((bodies.resume body frame input).perform runner w).1 ≠ .ok (frame', .await (.group g))) :
    bodies.GroupFree := by
  intro fuel c input w g hr
  cases fuel with
  | zero => cases hr
  | succ fuel =>
      rw [resume_eq] at hr
      rcases he : w.enter bodies c input with ⟨e | ⟨frame, body⟩, w₁⟩ <;> rw [he] at hr
      · cases hr
      · obtain ⟨x, -, -, rfl, rfl, -⟩ := enter_eq_ok he
        have hbody := h (runner bodies fuel) x.body x.frame input w₁
        simp only [andThen] at hr
        rcases hp : (bodies.resume x.body x.frame input).perform (runner bodies fuel) w₁ with
          ⟨(_ | _ | _ | _ | _) | ⟨frame', step⟩, w₂⟩ <;> rw [hp] at hr hbody <;> cases hr
        exact hbody frame' g rfl

end World

/-- The bodies of two coroutines: `true` awaits a new coroutine, then itself, and returns when that is
refused; `false` returns at once. -/
def selfish : Bodies Bool Unit where
  resume
    | true, frame, .start =>
      .spawn "child" false [] fun c => .done (.ok (frame, .await (.coroutine c)))
    | true, frame, .value _ => .done (.ok (frame, .await (.coroutine ⟨0, "main"⟩)))
    | true, frame, .throw _ => .done (.ok (frame, .ret (.str "refused")))
    | false, frame, _ => .done (.ok (frame, .ret .none))
  forgets _ := true

theorem selfish_groupFree : selfish.GroupFree := by
  refine World.groupFree_of_perform fun runner body frame input w frame' g h => ?_
  cases body <;> cases input <;> cases h

/-- The world in which the first coroutine is to be run. -/
def selfishBefore : World Bool Unit := ((World.initial [none] ()).spawn "main" true []).2

def selfishLog : List (CoroutineRef × Input) :=
  [(⟨0, "main"⟩, .start), (⟨1, "child"⟩, .start), (⟨0, "main"⟩, .value .none),
    (⟨0, "main"⟩, .throw (.ofFailure .coroutineBusy))]

theorem selfish_drives : ∃ v, World.Drives (World.resume selfish 1) 1 ⟨0, "main"⟩ .start
    (selfishBefore.start 0 ⟨0, "main"⟩).2 selfishLog (.ok (.ok (.str "refused"))) v :=
  ⟨_, .awaited rfl rfl (.ret rfl) (.refused rfl rfl (.ret rfl))⟩

theorem selfish_recursive : selfish.GroupFree ∧ selfishBefore.limitOf 0 = none ∧
    ∃ (v : World Bool Unit) (m : Nat), ∀ fuel, m ≤ fuel →
    World.inputs (World.resume selfish fuel) 0 fuel (selfishBefore.start 0 ⟨0, "main"⟩).2 = selfishLog ∧
    (selfishBefore.run selfish fuel 0 ⟨0, "main"⟩).1 = .ok (.str "refused") ∧
    (selfishBefore.run selfish fuel 0 ⟨0, "main"⟩).2.handles = (v.release ⟨0, "main"⟩).handles ∧
    (selfishBefore.run selfish fuel 0 ⟨0, "main"⟩).2.shared = v.shared := by
  obtain ⟨v, hv⟩ := selfish_drives
  have hlimit : selfishBefore.limitOf 0 = none := rfl
  obtain ⟨m, hm⟩ := World.run_recursive selfish_groupFree hlimit rfl hv nofun
  exact ⟨selfish_groupFree, hlimit, v, m, hm⟩

end Coroutines
