import Coroutines.Proofs.Joining.Framed
import Coroutines.Proofs.Chronicle

/-!
# What is owned when a run is broken off

The bound of the host ends a resume in the middle of its body, and with it every run that goes on around
it.  The tasks that stand in these runs own the coroutines of their chains even then: nobody has released
one, since the runs inside the body had coroutines of their own.
-/

namespace Coroutines

namespace World

variable {β σ : Type} {w w' w'' : World β σ} {l : Standing} {base : Nat → Start}

/-- The tasks that stand in runs own the coroutines of their chains later on. -/
def Retains (l : Standing) (w w' : World β σ) : Prop :=
  ∀ ⦃u x d⦄, l u ≠ none → w.tasks.get? u = some x → d ∈ x.chain → w'.Belongs d x.id

theorem Sound.retains (h : w.Sound l base none) : Retains l w w := by
  intro u x d hu hx hd
  obtain ⟨_, _, -, hh⟩ := h.chained.holds_row hu hx
  exact hh.owned d hd

theorem belongs_modifyHandle {c d : CoroutineRef} {n : Nat} {f : Handle β → Handle β}
    (hf : ∀ x, (f x).owner = x.owner) : (w.modifyHandle c f).Belongs d n ↔ w.Belongs d n := by
  simp only [Belongs, get?_handles_modifyHandle]
  split
  · simp [hf]
  · exact Iff.rfl

namespace Retains

/-- The tasks had the same chains before. -/
theorem of_rows (h : Retains l w' w'') (hrows : ∀ {u x}, l u ≠ none → w.tasks.get? u = some x →
    ∃ x', w'.tasks.get? u = some x' ∧ x'.chain = x.chain ∧ x'.id = x.id) : Retains l w w'' := by
  intro u x d hu hx hd
  obtain ⟨x', hx', hc, hid⟩ := hrows hu hx
  exact hid ▸ h hu hx' (hc ▸ hd)

theorem of_framed (h : Retains l w' w'') (hf : Framed l w w') : Retains l w w'' :=
  h.of_rows fun hu hx => ⟨_, hf.tasks hu hx, rfl, rfl⟩

theorem mono {l' : Standing} (h : Retains l w w') (hl : ∀ u, l' u ≠ none → l u ≠ none) :
    Retains l' w w' := fun _ _ _ hu => h (hl _ hu)

theorem of_handles (h : Retains l w w') (e : w''.handles = w'.handles) : Retains l w w'' :=
  fun _ _ _ hu hx hd => (h hu hx hd).of_get? (by rw [e])

theorem modifyHandle (h : Retains l w w') (c : CoroutineRef) {f : Handle β → Handle β}
    (hf : ∀ x, (f x).owner = x.owner) : Retains l w (w'.modifyHandle c f) :=
  fun _ _ _ hu hx hd => (belongs_modifyHandle hf).mpr (h hu hx hd)

/-- The release of a coroutine that is in no chain. -/
theorem release (h : Retains l w w') {c : CoroutineRef} (hc : ∀ ⦃u x d⦄, l u ≠ none →
    w.tasks.get? u = some x → d ∈ x.chain → c.id ≠ d.id) : Retains l w (w'.release c) := by
  intro u x d hu hx hd
  obtain ⟨y, hy, ho⟩ := h hu hx hd
  exact ⟨y, get?_handles_modifyHandle_of_ne _ _ _ (hc hu hx hd).symm hy, ho⟩

end Retains

/-! ### Actions -/

/-- A run that is broken off leaves the tasks of the runs around it their coroutines. -/
def RunsRetain (run : Nat → CoroutineRef → World β σ → Except Abort Value × World β σ) : Prop :=
  ∀ {w : World β σ} {l : Standing} {base : Nat → Start} (s : Nat) (c : CoroutineRef),
    w.Sound l base none → (run s c w).1 = .error .outOfFuel → Retains l w (run s c w).2

/-- A resume that is broken off leaves the tasks of the runs around it their coroutines. -/
def ResumesRetain (resume : CoroutineRef → Input → World β σ → Except Abort Step × World β σ) :
    Prop :=
  ∀ {w : World β σ} {l : Standing} {base : Nat → Start} {c : CoroutineRef} {input : Input}
    {y : Handle β}, w.handles.get? c.id = some y → y.refusal? input = none →
    (∀ forgets, (w.modifyHandle c (·.entered forgets)).Sound l base none) →
    (resume c input w).1 = .error .outOfFuel → Retains l w (resume c input w).2

theorem Sound.retains_perform {α : Type} {runner : Runner β σ} {a : Action β σ α}
    (h : w.Sound l base none) (hrun : RunsSound runner.run) (hframe : RunsFramed runner.run)
    (hretain : RunsRetain runner.run) (ha : a.Orderly)
    (he : (a.perform runner w).1 = .error .outOfFuel) : Retains l w (a.perform runner w).2 := by
  induction a generalizing w with
  | done result => exact h.retains
  | read next ih => exact ih _ h (ha _) he
  | modify f next ih =>
      have hsame : Framed l w { w with shared := f w.shared } := .of_tables rfl rfl
      exact (ih (h.advance (a := .modify f next) hrun ha rfl) ha he).of_framed hsame
  | identity next ih =>
      have hsame : Framed l w w.identity.2 := .of_tables rfl rfl
      exact (ih _ (h.advance (a := .identity next) hrun ha rfl) (ha _) he).of_framed hsame
  | spawn name body locals next ih =>
      have hsame : Framed l w (w.spawn name body locals).2 := .of_tables rfl rfl
      exact (ih _ (h.spawn name body locals) (ha _) he).of_framed hsame
  | joinAll s members re next ih =>
      simp only [Action.perform] at he ⊢
      split
      · next hs =>
          rw [if_pos hs] at he
          have hnew : Framed l w (w.newGroup members re).2 := .of_rows id Table.get?_push_of_some
          exact (ih _ (h.newGroup members re) (ha _) he).of_framed hnew
      · next hs =>
          rw [if_neg hs] at he
          exact ih _ h (ha _) he
  | run s c next ih =>
      simp only [Action.perform] at he ⊢
      rcases hrun s c h with hk | ⟨⟨r, hr⟩, hk⟩
      · simp only [hk, splitScript]
        exact hretain s c h hk
      · simp only [hr] at he ⊢
        exact (ih _ hk (ha _) he).of_framed (hframe s c h)
  | resume c input next ih => exact ha.elim
  | claim c task next ih => exact ha.elim
  | release c next ih => exact ha.elim

/-! ### Turns -/

section

variable {resume : CoroutineRef → Input → World β σ → Except Abort Step × World β σ} {s : Nat}

/-- A turn that fails leaves all tasks their coroutines, those of its own run as well. -/
theorem Sound.retains_failed {t : Nat} {e : Abort} (h : w.Sound l base none) (hcalm : l.Calm s)
    (hres : ResumesSound resume) (hretain : ResumesRetain resume)
    (hd : w.dequeue s = some (t, w')) (hs : w'.step resume s t = (.error e, w'')) :
    Retains l w w'' := by
  obtain ⟨x, top, rest, y, hx, hc, ht, hy, hrefuse, ⟨limit, w₁, he, hhandles, -⟩ |
    ⟨w₁, he, hhandles, hsound⟩⟩ := h.takeUp hcalm hd
  · simp only [World.step, he] at hs
    cases hs
    exact h.retains.of_handles hhandles
  · have hlive : ∀ {u}, l u ≠ none → l.set t s (.current top) u ≠ none := fun {u} hu => by
      rw [Standing.set_apply]
      split
      · exact Option.some_ne_none _
      · exact hu
    have hrows : ∀ {u z}, w.tasks.get? u = some z →
        ∃ z', w₁.tasks.get? u = some z' ∧ z'.chain = z.chain ∧ z'.id = z.id := by
      intro u z hz
      obtain ⟨ctx, queue, -, -, rfl⟩ := dequeue_eq_some hd
      rcases takeUp_cases (w := w.modifyContext s fun ctx => { ctx with ready := queue }) (s := s)
        hx hc with ⟨limit, e'⟩ | e'
      · cases he.symm.trans e'
      · cases he.symm.trans e'
        refine ⟨if t = u then { z with state := .running, inbox := .start } else z, ?_, ?_, ?_⟩
        · rw [get?_tasks_modifyTask, tasks_modifyContext, tasks_modifyContext, hz]
          split <;> rfl
        · split <;> rfl
        · split <;> rfl
    simp only [World.step, he] at hs
    rcases hres (hhandles ▸ hy) hrefuse hsound with hr | ⟨frame, step, v, hv, hr⟩
    · have hkeep := (hretain (hhandles ▸ hy) hrefuse hsound hr).mono fun _ => hlive
      split at hs
      · next e' =>
          cases hs
          rw [e'] at hkeep
          exact hkeep.of_rows fun _ hz => hrows hz
      · next e' =>
          rw [e'] at hr
          cases hr
    · obtain ⟨w₂, l', ha, -⟩ := hv.absorb (Standing.set_self ..) frame step
      simp only [hr, ha] at hs
      cases hs

/-- The turns of a run leave the tasks of other runs alone. -/
theorem Sound.turns {log : List (CoroutineRef × Step)} (h : w.Sound l base none) (hcalm : l.Calm s)
    (hres : ResumesSound resume) (hframe : ResumesFramed resume)
    (hs : ∃ ctx, w.context? s = some ctx) (ht : Turns resume s w log w') :
    ∃ l', w'.Sound l' base none ∧ l'.Calm s ∧ l'.without s = l.without s ∧
      (∃ ctx, w'.context? s = some ctx) ∧ Framed (l.without s) w w' := by
  induction ht with
  | refl => exact ⟨l, h, hcalm, rfl, hs, .refl w⟩
  | more _ hd hstep ih =>
      obtain ⟨l₁, h₁, hcalm₁, hout₁, ⟨ctx, hc⟩, hframed⟩ := ih
      have hturn := h₁.framed_turn hcalm₁ hres hframe hd
      rcases h₁.turn hcalm₁ hres hd with hf | ⟨limit, v, he, -⟩ |
        ⟨c, step, v, l₂, he, -, h₂, hafter, hcalm₂⟩
      · rw [hstep] at hf
        cases hf
      · rw [hstep] at he
        cases he
      · rw [hstep] at he hturn
        cases he
        obtain ⟨p, hp⟩ := h₁.queued.root hc
        obtain ⟨p', hp'⟩ := hafter.stays _ p hp
        exact ⟨l₂, h₂, hcalm₂, hafter.outside.trans hout₁, h₂.queued.active hp',
          hframed.trans (hout₁ ▸ hturn)⟩

/-! ### Runs -/

theorem ResumesRetain.runWith (hretain : ResumesRetain resume) (hres : ResumesSound resume)
    (hframe : ResumesFramed resume) (fuel : Nat) :
    RunsRetain fun s c (w : World β σ) => w.runWith resume fuel s c := by
  intro w l base s c h he
  rcases h.start s c with ⟨f, w', hstart, -⟩ | ⟨w', hstart, hidle, hs⟩
  · simp only [World.runWith, hstart] at he
    cases he
  · have hcalm := Standing.calm_set_ready hidle w.tasks.size
    have hwithout := Standing.without_set_ready hidle h.size_eq_none
    have hframed := Framed.start (l := l) w s c
    rw [hstart] at hframed
    obtain ⟨log, w₁, hturns, hcases⟩ := drain_cases resume s fuel w'
    obtain ⟨l₁, h₁, hcalm₁, hout, hactive, hframed₁⟩ :=
      hs.turns hcalm hres hframe (hs.queued.active (Standing.set_self ..)) hturns
    rw [hwithout] at hout hframed₁
    -- the tasks of the other runs stand where they stood
    have hother : ∀ u, l u ≠ none → ∃ s' p, l₁ u = some (s', p) ∧ s' ≠ s := by
      intro u hu
      obtain ⟨⟨s', p⟩, hp⟩ := Option.ne_none_iff_exists'.mp hu
      rw [← hout] at hp
      exact ⟨s', p, Standing.without_eq_some_iff.mp hp⟩
    have hover : ∀ {v : World β σ}, Retains l₁ w₁ v → Retains l w ((v.release c).deactivate s) := by
      intro v hv
      have hlive : ∀ u, l u ≠ none → l₁ u ≠ none := fun u hu => by
        obtain ⟨s', p, hp, -⟩ := hother u hu
        simp [hp]
      have hfree : Retains l w₁ (v.release c) := (hv.mono hlive).release fun u x d hu hx hd => by
        obtain ⟨s', p, hp, e⟩ := hother u hu
        have hne := h₁.ne_of_base hactive e hp hx hd
        rwa [Function.update_self] at hne
      exact (hfree.of_framed (hframed.trans hframed₁)).of_handles rfl
    simp only [World.runWith, hstart] at he ⊢
    rcases hcases with ⟨hd, -⟩ | hd | ⟨t, e, w₂, w₃, hdeq, hstep, hd⟩
    · simp only [hd, conclude] at he
      split at he
      · cases he
      · next o _ => cases o <;> cases he
    · simp only [hd]
      exact hover h₁.retains
    · simp only [hd]
      exact hover (h₁.retains_failed hcalm₁ hres hretain hdeq hstep)

end

/-- **A resume of orderly bodies that is broken off leaves the tasks of the runs around it their
coroutines**, by induction on how deep runs may nest. -/
theorem resumesRetain {bodies : Bodies β σ} (hb : bodies.Orderly) (fuel : Nat) :
    ResumesRetain (resume bodies fuel) := by
  induction fuel with
  | zero =>
      intro w l base c input y _ _ hs _ u x d hu hx hd
      have howned : (w.modifyHandle c (·.entered true)).Belongs d x.id := (hs true).retains hu hx hd
      exact (belongs_modifyHandle (f := (·.entered true)) fun _ => rfl).mp howned
  | succ fuel ih =>
      intro w l base c input y hy hrefuse hs he
      have henter : w.enter bodies c input = (.ok (y.frame, bodies.resume y.body y.frame input),
          w.modifyHandle c (·.entered (!input.isStart && bodies.forgets y.body))) := by
        simp only [enter, hy, hrefuse]
      have hp := (hs (!input.isStart && bodies.forgets y.body)).retains_perform (runsSound hb fuel)
        (ResumesFramed.runWith (resumesFramed hb fuel) (resumesSound hb fuel) fuel)
        (ih.runWith (resumesSound hb fuel) (resumesFramed hb fuel) fuel) (hb y.body y.frame input)
      rw [resume_succ, resumeWith, henter] at he ⊢
      simp only at he ⊢
      generalize (bodies.resume y.body y.frame input).perform (runner bodies fuel) _ = result
        at hp he
      obtain ⟨result, v⟩ := result
      rcases v.leave_cases c y.frame result with ⟨e, hsplit, rfl⟩ | ⟨frame, step, hleave⟩
      · rw [leave_of_splitScript hsplit] at he ⊢
        cases he
        have hkeep : Retains l (w.modifyHandle c
          (·.entered (!input.isStart && bodies.forgets y.body))) v := hp rfl
        exact (hkeep.of_rows fun _ hx => ⟨_, hx, rfl, rfl⟩).modifyHandle c fun _ => rfl
      · rw [hleave] at he
        cases he

end World

end Coroutines
