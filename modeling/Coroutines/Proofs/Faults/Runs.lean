import Coroutines.Proofs.Faults.Requests
import Coroutines.Proofs.Ownership.Bodies
import Coroutines.Proofs.Progress.Steady

/-!
# Runs without errors of the host

Bodies are `Safe` if they end with errors of the host only where they go on from a place that they cannot
be left at.  A coroutine that is suspended stands where its last resume left it (`World.Resting`), a
scheduler resumes a coroutine with inputs that it takes, finds outcomes in a group that it settles, and
never stalls, as its world is sound.  So no error of the host comes out of any resume, turn or run, by
induction on how deep runs may nest.
-/

namespace Coroutines

variable {β σ : Type}

/-- Bodies that are left at places of a kind when they await, and go on from such places without errors
of the host. -/
structure Bodies.Safe (bodies : Bodies β σ) (At : β → Frame → Prop) : Prop where
  leaves : ∀ body frame input, (bodies.resume body frame input).Asks (fun _ => True)
    fun r => ∀ target, r.2 = .await target → At body r.1
  usual : ∀ body frame input, (input.isStart = false → At body frame) →
    (bodies.resume body frame input).Asks (fun e => e.isHost = false) fun _ => True

/-- Safe bodies are orderly but for errors of the host. -/
theorem Bodies.Safe.orderly {bodies : Bodies β σ} {At : β → Frame → Prop} (h : bodies.Safe At) :
    bodies.masked.Orderly := fun body frame input => (h.leaves body frame input).orderly

/-- What breaks off an action is a usual result as well if the request's was. -/
theorem Usual.splitScript {α γ : Type} {result : Except Abort α} {e : Abort} (h : Usual result)
    (he : splitScript result = .error e) : Usual (.error e : Except Abort γ) := by
  rcases result with (_ | _ | _ | _ | _) | _ <;> cases he <;> exact h

namespace World

variable {At : β → Frame → Prop} {bodies : Bodies β σ} {w w' : World β σ} {l : Standing}
variable {base : Nat → Start}

/-! ### Where suspended coroutines stand -/

/-- The coroutines that are suspended stand at places of a kind. -/
def Resting (At : β → Frame → Prop) (w : World β σ) : Prop :=
  ∀ ⦃i x⦄, w.handles.get? i = some x → x.status = .suspended → At x.body x.frame

namespace Resting

theorem of_handles (h : w.Resting At) (e : w'.handles = w.handles) : w'.Resting At :=
  fun _ _ hx => h (e ▸ hx)

/-- A coroutine may change unless it comes to be suspended. -/
theorem modifyHandle (h : w.Resting At) (c : CoroutineRef) {f : Handle β → Handle β}
    (hf : ∀ x, w.handles.get? c.id = some x → (f x).status = .suspended →
      At (f x).body (f x).frame) : (w.modifyHandle c f).Resting At := by
  intro i x hx hs
  rw [get?_handles_modifyHandle] at hx
  split at hx
  · next e =>
      obtain ⟨y, hy, rfl⟩ := Option.map_eq_some_iff.mp hx
      exact hf y (e ▸ hy) hs
  · exact h hx hs

theorem of_arranged (h : w.Resting At) (ha : w.Arranged w') : w'.Resting At := by
  induction ha with
  | rest e => exact h.of_handles e
  | spawn w name body locals =>
      intro i x hx hs
      have hx := (Table.get?_push ..).symm.trans hx
      split at hx
      · cases hx
        cases hs
      · exact h hx hs
  | claim w c task =>
      rcases e : w.claim c task with ⟨- | f, v⟩
      · obtain ⟨x, -, -, -, rfl⟩ := claim_eq_none e
        exact h.modifyHandle c fun y hy hs => @h _ y hy hs
      · obtain rfl := claim_eq_some e
        exact h
  | release w c => exact h.modifyHandle c fun y hy hs => @h _ y hy hs
  | trans _ _ ih ih' => exact ih' (ih h)

/-- **Whatever happens to coroutines, those that are suspended stand where their bodies are left.** -/
theorem of_chronicle (hb : bodies.Safe At) {log : List (Resumption β σ)} (h : w.Resting At)
    (hc : Chronicle bodies w log w') : w'.Resting At := by
  induction hc with
  | arrange ha => exact h.of_arranged ha
  | trans _ _ ih ih' => exact ih' (ih h)
  | @resume w x r _ hx _ hbody _ forgets hentered hp hinner ih =>
      have hin : r.entered.Resting At := by
        rw [hentered]
        exact h.modifyHandle _ fun y _ hs => by cases hs
      -- the coroutine runs until it leaves off, with the body that it had
      have hrow : r.entered.handles.get? r.coroutine.id = some (x.entered forgets) := by
        rw [hentered, get?_modifyHandle_self hx]
      obtain ⟨y, hy, -, -, hsame⟩ := Steady.of_chronicle hinner hrow rfl
      have hleft := ih hin
      rcases hr : r.result with e | ⟨frame, step⟩
      · cases e <;> exact hleft.modifyHandle _ fun z _ hs => by cases hs
      · refine hleft.modifyHandle _ fun z hz hs => ?_
        cases step with
        | ret v => cases hs
        | raise record => cases hs
        | await target =>
            rw [hy] at hz
            cases hz
            rw [hr] at hp
            have hat := (hb.leaves r.body r.frame r.input).value hp target rfl
            rw [hbody] at hat
            show At y.body frame
            rw [hsame]
            exact hat

theorem of_passes (hb : bodies.Safe At) (h : w.Resting At) (hp : Passes bodies w w') :
    w'.Resting At :=
  let ⟨_, hc⟩ := hp
  h.of_chronicle hb hc

end Resting

/-! ### Runs and resumes -/

/-- No error of the host comes out of a resume that a scheduler asks for. -/
def ResumesUsual (At : β → Frame → Prop)
    (resume : CoroutineRef → Input → World β σ → Except Abort Step × World β σ) : Prop :=
  ∀ {w : World β σ} {l : Standing} {base : Nat → Start} {c : CoroutineRef} {input : Input}
    {y : Handle β}, w.handles.get? c.id = some y → y.refusal? input = none →
    (∀ forgets, (w.modifyHandle c (·.entered forgets)).Sound l base none) → w.Resting At →
    Usual (resume c input w).1

/-- No error of the host comes out of a run in a sound world. -/
def RunsUsual (At : β → Frame → Prop)
    (run : Nat → CoroutineRef → World β σ → Except Abort Value × World β σ) : Prop :=
  ∀ {w : World β σ} {l : Standing} {base : Nat → Start} (s : Nat) (c : CoroutineRef),
    w.Sound l base none → w.Resting At → Usual (run s c w).1

section

variable {resume masked : CoroutineRef → Input → World β σ → Except Abort Step × World β σ}

/-- No error of the host comes out of a turn. -/
theorem ResumesUsual.step {s t : Nat} (hres : ResumesUsual At resume)
    (hakin : ∀ c input w, Akin (resume c input w) (masked c input w))
    (hsound : ResumesSound masked) (h : w.Sound l base none) (hcalm : l.Calm s)
    (hrest : w.Resting At) (hd : w.dequeue s = some (t, w')) :
    Usual (w'.step resume s t).1 := by
  obtain ⟨x, top, rest, y, -, -, -, hy, hrefuse, ⟨limit, w₁, he, -⟩ | ⟨w₁, he, hhandles, hs⟩⟩ :=
    h.takeUp hcalm hd
  · simp only [World.step, he]
    rfl
  · have husual := hres (hhandles ▸ hy) hrefuse hs (hrest.of_handles hhandles)
    rcases hr : resume top x.inbox w₁ with ⟨e | step, w₂⟩
    · rw [hr] at husual
      simp only [World.step, he, hr]
      exact husual
    · have hm := hakin top x.inbox w₁
      rw [hr] at hm
      have hm := hm.eq_of_ok
      rcases hsound (hhandles ▸ hy) hrefuse hs with ho | ⟨frame, step', w₃, hs₃, hm'⟩
      · rw [hm] at ho
        cases ho
      · rw [hm] at hm'
        cases hm'
        obtain ⟨w₄, l', ha, -⟩ := hs₃.absorb (Standing.set_self ..) frame step
        simp only [World.step, he, hr, ha]
        trivial

/-- No error of the host comes out of the loop of a run. -/
theorem ResumesUsual.drain {s : Nat} (fuel : Nat) (hres : ResumesUsual At resume)
    (hakin : ∀ c input w, Akin (resume c input w) (masked c input w))
    (hsound : ResumesSound masked) (hpass : ∀ s t (w : World β σ), w.Resting At →
      (w.step resume s t).2.Resting At) (h : w.Sound l base none) (hcalm : l.Calm s)
    (hrest : w.Resting At) : Usual (World.drain resume s fuel w).1 := by
  induction fuel generalizing w l with
  | zero => rfl
  | succ fuel ih =>
      rcases hd : w.dequeue s with - | ⟨t, w₀⟩
      · simp only [World.drain, hd]
        trivial
      · have husual := hres.step hakin hsound h hcalm hrest hd
        have hrest₀ := hpass s t w₀ (hrest.of_handles (handles_dequeue hd))
        rcases hs : w₀.step resume s t with ⟨e | ⟨⟩, w₁⟩
        · rw [hs] at husual
          simp only [World.drain, hd, hs]
          exact husual
        · have hm := step_akin hakin w₀ s t
          rw [hs] at hm hrest₀
          have hm := hm.eq_of_ok
          have hnext : World.drain resume s (fuel + 1) w = World.drain resume s fuel w₁ := by
            simp only [World.drain, hd, hs]
          rw [hnext]
          rcases h.turn hcalm hsound hd with hf | ⟨limit, w₂, he, -⟩ |
            ⟨c, step, w₂, l', he, -, hs', -, hcalm'⟩
          · rw [hm] at hf
            cases hf
          · rw [hm] at he
            cases he
          · rw [hm] at he
            cases he
            exact ih hs' hcalm' hrest₀

/-- No error of the host comes out of a run: its loop has none, and its root has an outcome when the
queue is empty. -/
theorem ResumesUsual.runWith (fuel : Nat) (hres : ResumesUsual At resume)
    (hakin : ∀ c input w, Akin (resume c input w) (masked c input w))
    (hsound : ResumesSound masked) (hpass : ∀ s t (w : World β σ), w.Resting At →
      (w.step resume s t).2.Resting At) :
    RunsUsual At fun s c (w : World β σ) => w.runWith resume fuel s c := by
  intro w l base s c h hrest
  have harranged := Arranged.start w s c
  rcases h.start s c with ⟨f, w', he, hs⟩ | ⟨w', he, hidle, hs⟩
  · simp only [World.runWith, he]
    rfl
  · rw [he] at harranged
    have hcalm := Standing.calm_set_ready hidle w.tasks.size
    have husual := hres.drain fuel hakin hsound hpass hs hcalm (hrest.of_arranged harranged)
    rcases hd : World.drain resume s fuel w' with ⟨e | ⟨⟩, w₁⟩
    · rw [hd] at husual
      simp only [World.runWith, he, hd]
      exact husual
    · have hm := drain_akin hakin s fuel w'
      rw [hd] at hm
      have hm := hm.eq_of_ok
      rcases hs.drain fuel hcalm (hs.queued.active (Standing.set_self ..)) hsound with
        hf | ⟨w₂, l', -, -, -, ⟨hd', ho⟩ | ⟨limit, w₃, hd', -⟩⟩
      · rw [hm] at hf
        cases hf
      · rw [hm] at hd'
        cases hd'
        rw [Function.update_self] at ho
        obtain ⟨outcome, ho⟩ := Option.isSome_iff_exists.mp ho
        simp only [World.runWith, he, hd, conclude, ho]
        cases outcome <;> trivial
      · rw [hm] at hd'
        cases hd'

end

/-- No error of the host comes out of an action that ends with none itself, if none comes out of the
runs that it asks for. -/
theorem RunsUsual.perform {α : Type} {runner : Runner β σ} (masked : Runner β σ) {a : Action β σ α}
    {post : α → Prop} (hrun : RunsUsual At runner.run)
    (hakin : ∀ s c w, Akin (runner.run s c w) (masked.run s c w)) (hsound : RunsSound masked.run)
    (hpass : ∀ s c (w : World β σ), w.Resting At → (runner.run s c w).2.Resting At)
    (ha : a.Asks (fun e => e.isHost = false) post) (h : w.Sound l base none)
    (hrest : w.Resting At) : Usual (a.perform runner w).1 := by
  induction a generalizing w with
  | done result =>
      cases result with
      | ok x => trivial
      | error e => exact ha
  | read next ih => exact ih _ (ha _) h hrest
  | modify f next ih => exact ih ha (h.of_tables rfl rfl rfl fun _ => rfl) (hrest.of_handles rfl)
  | identity next ih =>
      exact ih _ (ha _) (h.of_tables rfl rfl rfl fun _ => rfl) (hrest.of_handles rfl)
  | spawn name body locals next ih =>
      exact ih _ (ha _) (h.spawn name body locals) (hrest.of_arranged (.spawn w name body locals))
  | joinAll s members re next ih =>
      simp only [Action.perform]
      split
      · exact ih _ (ha _) (h.newGroup members re) (hrest.of_handles rfl)
      · exact ih _ (ha _) h hrest
  | run s c next ih =>
      have husual := hrun s c h hrest
      have hrest' := hpass s c w hrest
      simp only [Action.perform]
      rcases hr : splitScript (runner.run s c w).1 with e | r
      · exact husual.splitScript hr
      · rcases (hakin s c w).eq_or with he | ⟨e, e', v, he, -, he', -⟩
        · have hkeep := hsound s c h
          rw [he] at hkeep
          rcases hkeep with hf | ⟨-, hs⟩
          · rw [hf] at hr
            cases hr
          · exact ih _ (ha _) hs hrest'
        · rw [he] at hr
          cases hr.symm.trans he'
  | resume c input next ih => exact ha.elim
  | claim c task next ih => exact ha.elim
  | release c next ih => exact ha.elim

/-- **No error of the host comes out of a resume of a safe body**, by induction on how deep runs may
nest. -/
theorem resumesUsual (hb : bodies.Safe At) (fuel : Nat) :
    ResumesUsual At (World.resume bodies fuel) := by
  induction fuel with
  | zero => exact fun _ _ _ _ => rfl
  | succ fuel ih =>
      intro w l base c input y hy hrefuse hs hrest
      let forgets := !input.isStart && bodies.forgets y.body
      have henter : w.enter bodies c input = (.ok (y.frame, bodies.resume y.body y.frame input),
          w.modifyHandle c (·.entered forgets)) := by
        simp only [enter, hy, hrefuse]
        rfl
      have hrun : RunsUsual At (runner bodies fuel).run :=
        ih.runWith fuel (resume_masked bodies fuel) (resumesSound hb.orderly fuel)
          fun s t w h => h.of_passes hb (.step bodies fuel w s t)
      have hat : input.isStart = false → At y.body y.frame := by
        intro hin
        rcases Handle.refusal?_eq_none_iff.mp hrefuse with ⟨-, hstart⟩ | ⟨hstatus, -⟩
        · rw [hin] at hstart
          cases hstart
        · exact hrest hy hstatus
      have hrest' : (w.modifyHandle c (·.entered forgets)).Resting At :=
        hrest.modifyHandle c fun x _ h => by cases h
      have husual := hrun.perform (runner bodies.masked fuel) (run_masked bodies fuel)
        (runsSound hb.orderly fuel) (fun s c w h => h.of_passes hb (.run bodies fuel s c w))
        (hb.usual y.body y.frame input hat) (hs forgets) hrest'
      rw [resume_succ, resumeWith]
      simp only [henter]
      generalize (bodies.resume y.body y.frame input).perform (runner bodies fuel) _ = result
        at husual
      obtain ⟨e | step, w'⟩ := result
      · cases e with
        | host message => cases husual
        | _ => trivial
      · trivial

/-- No error of the host comes out of a run of safe bodies. -/
theorem runsUsual (hb : bodies.Safe At) (fuel : Nat) : RunsUsual At (runner bodies fuel).run :=
  ResumesUsual.runWith fuel (resumesUsual hb fuel) (resume_masked bodies fuel) (resumesSound hb.orderly fuel)
    fun s t w h => h.of_passes hb (.step bodies fuel w s t)

/-- **No error of the host comes out of an action outside any body** that ends with none itself. -/
theorem Sound.usual_perform {α : Type} {a : Action β σ α} {post : α → Prop} (hb : bodies.Safe At)
    (fuel : Nat) (ha : a.Asks (fun e => e.isHost = false) post) (h : w.Sound l base none)
    (hrest : w.Resting At) : Usual (a.perform (runner bodies fuel) w).1 :=
  RunsUsual.perform (runner bodies.masked fuel) (runsUsual hb fuel) (run_masked bodies fuel)
    (runsSound hb.orderly fuel) (fun s c w h => h.of_passes hb (.run bodies fuel s c w)) ha h hrest

end World

end Coroutines
