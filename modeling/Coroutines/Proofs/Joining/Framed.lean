import Coroutines.Proofs.Joining.Touches
import Coroutines.Proofs.Ownership.Bodies

/-!
# What stays while coroutines run

While a coroutine of one run is resumed, nothing happens to the tasks of the runs in progress: the
runs that its body asks for have tasks of their own.  A turn changes tasks of its own run only, and
a group that is awaited never changes again.
-/

namespace Coroutines

namespace World

variable {β σ : Type} {w w' w'' : World β σ} {l : Standing} {base : Nat → Start}

/-- The tasks that stand in runs, and the groups that are awaited, are the same in two worlds. -/
structure Framed (l : Standing) (w w' : World β σ) : Prop where
  tasks : ∀ {u x}, l u ≠ none → w.tasks.get? u = some x → w'.tasks.get? u = some x
  groups : ∀ {g x}, w.groups.get? g = some x → x.awaitedBy ≠ none → w'.groups.get? g = some x

namespace Framed

theorem of_rows (htasks : ∀ {u x}, w.tasks.get? u = some x → w'.tasks.get? u = some x)
    (hgroups : ∀ {g x}, w.groups.get? g = some x → w'.groups.get? g = some x) : Framed l w w' :=
  ⟨fun _ => htasks, fun hx _ => hgroups hx⟩

theorem of_tables (htasks : w'.tasks = w.tasks) (hgroups : w'.groups = w.groups) :
    Framed l w w' := .of_rows (fun hx => htasks ▸ hx) fun hx => hgroups ▸ hx

theorem refl (w : World β σ) : Framed l w w := .of_tables rfl rfl

theorem trans (h : Framed l w w') (h' : Framed l w' w'') : Framed l w w'' :=
  ⟨fun hl hx => h'.tasks hl (h.tasks hl hx), fun hx ha => h'.groups (h.groups hx ha) ha⟩

theorem mono (l' : Standing) (h : Framed l w w') (hl : ∀ u, l' u ≠ none → l u ≠ none) :
    Framed l' w w' := ⟨fun hu => h.tasks (hl _ hu), h.groups⟩

/-- A start makes a task and takes no other. -/
theorem start (w : World β σ) (s : Nat) (c : CoroutineRef) : Framed l w (w.start s c).2 := by
  have hnew : Framed l w (w.newTask s c 0 none).2 := .of_rows Table.get?_push_of_some id
  simp only [World.start]
  split
  · exact .refl w
  · split
    · next e => exact hnew.trans (.of_tables (by rw [claim_eq_some e]) (by rw [claim_eq_some e]))
    · next e =>
        obtain ⟨x, -, -, -, rfl⟩ := claim_eq_none e
        exact hnew.trans (.of_tables rfl rfl)

theorem conclude (w : World β σ) (s root : Nat) (c : CoroutineRef) :
    Framed l w (w.conclude s root c).2 := by
  unfold World.conclude
  split <;> exact .of_tables rfl rfl

end Framed

/-! ### Actions -/

/-- Runs leave the tasks of the runs in progress as they are. -/
def RunsFramed (run : Nat → CoroutineRef → World β σ → Except Abort Value × World β σ) : Prop :=
  ∀ {w : World β σ} {l : Standing} {base : Nat → Start} (s : Nat) (c : CoroutineRef),
    w.Sound l base none → Framed l w (run s c w).2

/-- Resumes leave the tasks of the runs in progress as they are. -/
def ResumesFramed (resume : CoroutineRef → Input → World β σ → Except Abort Step × World β σ) :
    Prop :=
  ∀ {w : World β σ} {l : Standing} {base : Nat → Start} {c : CoroutineRef} {input : Input}
    {y : Handle β}, w.handles.get? c.id = some y → y.refusal? input = none →
    (∀ forgets, (w.modifyHandle c (·.entered forgets)).Sound l base none) →
    Framed l w (resume c input w).2

/-- An orderly action leaves the tasks of the runs in progress as they are if the runs that it asks
for do. -/
theorem Sound.framed {α : Type} {runner : Runner β σ} {a : Action β σ α}
    (h : w.Sound l base none) (hrun : RunsSound runner.run) (hframe : RunsFramed runner.run)
    (ha : a.Orderly) : Framed l w (a.perform runner w).2 := by
  induction a generalizing w with
  | done result => exact .refl w
  | read next ih => exact ih _ h (ha _)
  | modify f next ih =>
      have h' := h.advance (a := .modify f next) hrun ha rfl
      have hsame : Framed l w { w with shared := f w.shared } := .of_tables rfl rfl
      exact hsame.trans (ih h' ha)
  | identity next ih =>
      have h' := h.advance (a := .identity next) hrun ha rfl
      have hsame : Framed l w w.identity.2 := .of_tables rfl rfl
      exact hsame.trans (ih _ h' (ha _))
  | spawn name body locals next ih =>
      have hsame : Framed l w (w.spawn name body locals).2 := .of_tables rfl rfl
      exact hsame.trans (ih _ (h.spawn name body locals) (ha _))
  | joinAll s members re next ih =>
      simp only [Action.perform]
      split
      · have hnew : Framed l w (w.newGroup members re).2 := .of_rows id Table.get?_push_of_some
        exact hnew.trans (ih _ (h.newGroup members re) (ha _))
      · exact ih _ h (ha _)
  | run s c next ih =>
      have hf := hframe s c h
      simp only [Action.perform]
      rcases hrun s c h with hk | ⟨⟨r, hr⟩, hk⟩
      · simp only [hk, splitScript]
        exact hf
      · simp only [hr]
        exact hf.trans (ih _ hk (ha _))
  | resume c input next ih => exact ha.elim
  | claim c task next ih => exact ha.elim
  | release c next ih => exact ha.elim

/-! ### Turns -/

/-- A task that goes on hands an input to a task that waits for a group, if to any. -/
theorem Sound.touches_absorb {s t : Nat} {top : CoroutineRef} (h : w.Sound l base none)
    (ht : l t = some (s, .current top)) (frame : Frame) (step : Step) :
    Touches (· = t) (fun u => ∃ g, l u = some (s, .blocked g))
      (fun g => ∀ x, w.groups.get? g = some x → x.awaitedBy = none)
      (w.modifyHandle top (·.left frame step))
      ((w.modifyHandle top (·.left frame step)).absorb s t top step).2 := by
  refine .absorb (w.modifyHandle top (·.left frame step)) ?_ s top step ?_ ?_
  · rfl
  · intro z ref x u hz hg hx ha
    obtain ⟨x', u', q, hx', hm, ha', -, hu⟩ := h.grouped.parent ht hz hg
    cases hx.symm.trans hx'
    cases ha.symm.trans ha'
    -- a group with a member that has not ended is waited for
    by_contra hn
    have he := h.grouped.settled hx ha hu (fun e => hn ⟨_, e ▸ hu⟩) t hm
    rw [ht] at he
    cases he
  · intro g _ hfree z hz
    simp only [groupTaken, groups_modifyHandle, hz] at hfree
    simpa using hfree

/-- A turn leaves the tasks of other runs as they are. -/
theorem Sound.framed_turn {resume : CoroutineRef → Input → World β σ → Except Abort Step × World β σ}
    {s t : Nat} (h : w.Sound l base none) (hcalm : l.Calm s) (hres : ResumesSound resume)
    (hframe : ResumesFramed resume) (hd : w.dequeue s = some (t, w')) :
    Framed (l.without s) w (w'.step resume s t).2 := by
  obtain ⟨x, top, rest, y, hx, hc, ht, hy, hrefuse, hcases⟩ := h.takeUp hcalm hd
  obtain ⟨_, _, -, -, hw'⟩ := dequeue_eq_some hd
  have hsame : Framed (l.without s) w w' := by
    rw [hw']
    exact .of_tables rfl rfl
  have hout : ∀ {u}, l.without s u ≠ none → u ≠ t ∧ ∀ q, l u ≠ some (s, q) := by
    intro u hu
    have hn : ∀ q, l u ≠ some (s, q) := fun q e => hu (by simp [Standing.without, e])
    exact ⟨fun e => hn _ (e ▸ ht), hn⟩
  rcases hcases with ⟨limit, w₁, he, -, hgroups, htasks, -⟩ | ⟨w₁, he, hhandles, hsound⟩
  · simp only [World.step, he]
    exact .of_tables htasks hgroups
  · have htake := Touches.takeUp (T := (· = t)) (A := fun _ => False) (G := fun _ => False) w' rfl s
    rw [he] at htake
    have htake : Framed (l.without s) w' w₁ :=
      ⟨fun hu => htake.same (hout hu).1 id, fun hx _ => htake.groups id hx⟩
    have hresume := (hframe (hhandles ▸ hy) hrefuse hsound).mono (l.without s) fun u hu e => by
      rw [Standing.set_of_ne _ _ _ (hout hu).1] at e
      exact hu (by simp [Standing.without, e])
    simp only [World.step, he]
    rcases hres (hhandles ▸ hy) hrefuse hsound with hr | ⟨frame, step, w₂, hs, hr⟩
    · split
      · next e =>
          rw [e] at hresume
          exact (hsame.trans htake).trans hresume
      · next e =>
          rw [e] at hr
          cases hr
    · rw [hr] at hresume
      simp only [hr]
      refine ((hsame.trans htake).trans hresume).trans ?_
      have habsorb := hs.touches_absorb (Standing.set_self ..) frame step
      refine ⟨fun {u x} hu hx => habsorb.same (hout hu).1 ?_ hx,
        fun hx ha => habsorb.groups (fun hn => ha (hn _ hx)) hx⟩
      rintro ⟨g, hg⟩
      rw [Standing.set_of_ne _ _ _ (hout hu).1] at hg
      exact (hout hu).2 _ hg

theorem Sound.framed_drain
    {resume : CoroutineRef → Input → World β σ → Except Abort Step × World β σ} {s : Nat}
    (fuel : Nat) (h : w.Sound l base none) (hcalm : l.Calm s) (hres : ResumesSound resume)
    (hframe : ResumesFramed resume) : Framed (l.without s) w (World.drain resume s fuel w).2 := by
  induction fuel generalizing w l with
  | zero => exact .refl w
  | succ fuel ih =>
      cases hd : w.dequeue s with
      | none =>
          simp only [World.drain, hd]
          exact .refl w
      | some x =>
          obtain ⟨t, w'⟩ := x
          have hturn := h.framed_turn hcalm hres hframe hd
          simp only [World.drain, hd]
          split
          · next w₁ e =>
              rw [e] at hturn
              rcases h.turn hcalm hres hd with hf | ⟨limit, w₂, he, -⟩ |
                ⟨c, step, w₂, l', he, -, hs, hafter, hcalm'⟩
              · rw [e] at hf
                cases hf
              · rw [e] at he
                cases he
              · rw [e] at he
                cases he
                exact hturn.trans (hafter.outside ▸ ih hs hcalm')
          · next e =>
              rw [e] at hturn
              exact hturn

/-! ### Runs -/

theorem ResumesFramed.runWith
    {resume : CoroutineRef → Input → World β σ → Except Abort Step × World β σ}
    (hframe : ResumesFramed resume) (hres : ResumesSound resume) (fuel : Nat) :
    RunsFramed fun s c (w : World β σ) => w.runWith resume fuel s c := by
  intro w l base s c h
  have hstart := Framed.start (l := l) w s c
  rcases h.start s c with ⟨f, w', he, -⟩ | ⟨w', he, hidle, hs⟩
  · rw [he] at hstart
    simp only [World.runWith, he]
    exact hstart
  · have hcalm := Standing.calm_set_ready hidle w.tasks.size
    have hwithout := Standing.without_set_ready hidle h.size_eq_none
    have hdrain := hwithout ▸ hs.framed_drain fuel hcalm hres hframe
    rw [he] at hstart
    simp only [World.runWith, he]
    have hover : ∀ v : World β σ, Framed l v ((v.release c).deactivate s) := fun _ =>
      .of_tables rfl rfl
    refine hstart.trans (Framed.trans ?_ (hover _))
    split
    · next w₁ e =>
        rw [e] at hdrain
        exact Framed.trans hdrain (.conclude ..)
    · next e =>
        rw [e] at hdrain
        exact hdrain

/-- **Resumes of orderly bodies leave the tasks of the runs in progress as they are**, by induction on
how deep runs may nest. -/
theorem resumesFramed {bodies : Bodies β σ} (hb : bodies.Orderly) (fuel : Nat) :
    ResumesFramed (resume bodies fuel) := by
  induction fuel with
  | zero => exact fun _ _ _ => .refl _
  | succ fuel ih =>
      intro w l base c input y hy hrefuse hs
      have hrun : RunsSound (runner bodies fuel).run := runsSound hb fuel
      have henter : w.enter bodies c input = (.ok (y.frame, bodies.resume y.body y.frame input),
          w.modifyHandle c (·.entered (!input.isStart && bodies.forgets y.body))) := by
        simp only [enter, hy, hrefuse]
      have hp := (hs (!input.isStart && bodies.forgets y.body)).framed hrun
        (ih.runWith (resumesSound hb fuel) fuel) (hb y.body y.frame input)
      show Framed l w (w.resumeWith bodies (Action.perform (runner bodies fuel)) c input).2
      simp only [resumeWith, henter]
      have henters : Framed l w (w.modifyHandle c
          (·.entered (!input.isStart && bodies.forgets y.body))) := .of_tables rfl rfl
      refine henters.trans (hp.trans ?_)
      unfold leave
      split <;> exact .of_tables rfl rfl

end World

end Coroutines
