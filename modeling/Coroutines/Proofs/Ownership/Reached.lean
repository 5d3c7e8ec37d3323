import Coroutines.Proofs.Crashes
import Coroutines.Proofs.Ownership.Bodies

/-!
# Soundness wherever a run stands

Every run that is opened from a sound world, however deep inside other runs, finds a sound world
at each of its turns.
-/

namespace Coroutines

namespace World

variable {β σ : Type} {w w' : World β σ} {l : Standing} {base : Nat → Start}

/-- A run stands between two turns: the world is sound, and no task of the run is being resumed. -/
structure Poised (w : World β σ) (s root : Nat) (c : CoroutineRef) (l : Standing)
    (base : Nat → Start) : Prop where
  sound : w.Sound l base none
  calm : l.Calm s
  active : ∃ ctx, w.context? s = some ctx
  start : base s = ⟨root, c⟩

theorem Poised.root_eq {s root : Nat} {c : CoroutineRef} (h : w.Poised s root c l base)
    {ctx : RunContext} (hc : w.context? s = some ctx) : ctx.root = root := by
  rw [(h.sound.chained.base hc).1, h.start]

/-- A run that starts in a sound world is poised. -/
theorem Sound.poised {s root : Nat} {c : CoroutineRef} (h : w.Sound l base none)
    (hs : w.start s c = (.ok root, w')) : ∃ l' base', w'.Poised s root c l' base' := by
  rcases h.start s c with ⟨f, w₁, he, -⟩ | ⟨w₁, he, hidle, hsound⟩
  · rw [hs] at he
    cases he
  · rw [hs] at he
    cases he
    exact ⟨_, _, hsound, Standing.calm_set_ready hidle _, hsound.queued.active (Standing.set_self ..),
      Function.update_self ..⟩

/-- A turn leaves a run poised. -/
theorem Poised.turn {resume : CoroutineRef → Input → World β σ → Except Abort Step × World β σ}
    {s t root : Nat} {c : CoroutineRef} {w₁ w₂ : World β σ} (h : w.Poised s root c l base)
    (hres : ResumesSound resume) (hd : w.dequeue s = some (t, w₁))
    (hs : w₁.step resume s t = (.ok (), w₂)) :
    ∃ l', w₂.Poised s root c l' base ∧ l'.After l s ∧
      ∃ d step, w₁.resumed resume s t = [(d, step)] := by
  rcases h.sound.turn h.calm hres hd with hf | ⟨limit, w₃, he, -⟩ |
    ⟨d, step, w₃, l', he, hlog, hsound, hafter, hcalm⟩
  · rw [hs] at hf
    cases hf
  · rw [hs] at he
    cases he
  · rw [hs] at he
    cases he
    obtain ⟨ctx, hc⟩ := h.active
    obtain ⟨p, hp⟩ := h.sound.queued.root hc
    obtain ⟨p', hp'⟩ := hafter.stays _ p hp
    exact ⟨l', ⟨hsound, hcalm, hsound.queued.active hp', h.start⟩, hafter, d, step, hlog⟩

/-- A run stays poised turn after turn. -/
theorem Poised.turns {resume : CoroutineRef → Input → World β σ → Except Abort Step × World β σ}
    {s root : Nat} {c : CoroutineRef} {log : List (CoroutineRef × Step)}
    (h : w.Poised s root c l base) (hres : ResumesSound resume)
    (ht : Turns resume s w log w') : ∃ l', w'.Poised s root c l' base := by
  induction ht with
  | refl => exact ⟨l, h⟩
  | more _ hd hs ih =>
      obtain ⟨l', hp⟩ := ih
      obtain ⟨l'', hp', -⟩ := hp.turn hres hd hs
      exact ⟨l'', hp'⟩

/-- The same holds when errors of the host keep the bodies from being orderly. -/
theorem Poised.turn_masked {bodies : Bodies β σ} (hb : bodies.masked.Orderly) {depth s t root : Nat}
    {c : CoroutineRef} {w₁ w₂ : World β σ} (h : w.Poised s root c l base)
    (hd : w.dequeue s = some (t, w₁)) (hs : w₁.step (resume bodies depth) s t = (.ok (), w₂)) :
    ∃ l', w₂.Poised s root c l' base ∧ ∃ d step, w₁.resumed (resume bodies depth) s t = [(d, step)] := by
  have hs' := step_akin (resume_masked bodies depth) w₁ s t
  rw [hs] at hs'
  obtain ⟨l', hp, -, d, step, hlog⟩ := h.turn (resumesSound hb depth) hd hs'.eq_of_ok
  exact ⟨l', hp, d, step, (resumed_akin (resume_masked bodies depth) hs).trans hlog⟩

/-- What is left of an orderly action is orderly, in a world that is still sound. -/
theorem Sound.reaches {α : Type} {runner : Runner β σ} {action a : Action β σ α}
    (h : w.Sound l base none) (hrun : RunsSound runner.run) (ha : action.Orderly)
    (hr : action.Reaches runner w a w') : a.Orderly ∧ w'.Sound l base none := by
  induction hr with
  | refl => exact ⟨ha, h⟩
  | more _ he ih => exact ⟨ih.1.advance he, ih.2.advance hrun ih.1 he⟩

/-- The coroutine that a turn resumes finds a sound world, in which it runs. -/
theorem Poised.entered {bodies : Bodies β σ} {s t root : Nat} {c top : CoroutineRef}
    {input : Input} {frame : Frame} {body : Action β σ (Frame × Step)} {w₁ w₂ w₃ : World β σ}
    (h : w.Poised s root c l base) (hd : w.dequeue s = some (t, w₁))
    (ht : w₁.takeUp s t = (.ok (some (top, input)), w₂))
    (he : w₂.enter bodies top input = (.ok (frame, body), w₃)) :
    w₃.Sound (l.set t s (.current top)) base none ∧ ∃ β, body = bodies.resume β frame input := by
  obtain ⟨x, top', rest, y, -, -, -, hy, hrefuse, ⟨limit, w', he', -⟩ | ⟨w', he', hhandles, hsound⟩⟩ :=
    h.sound.takeUp h.calm hd
  · rw [ht] at he'
    cases he'
  · rw [ht] at he'
    cases he'
    simp only [World.enter, hhandles, hy, hrefuse, Prod.mk.injEq, Except.ok.injEq] at he
    obtain ⟨⟨rfl, rfl⟩, rfl⟩ := he
    exact ⟨hsound _, y.body, rfl⟩

/-- Every run that orderly bodies open starts in a sound world. -/
theorem Sound.opened {bodies : Bodies β σ} (hb : bodies.Orderly) {α : Type}
    {action : Action β σ α} {fuel depth s root : Nat} {c : CoroutineRef} (ha : action.Orderly)
    (h : w.Sound l base none) (ho : Opens bodies action fuel w s c depth root w') :
    ∃ (w₀ : World β σ) (l₀ : Standing) (base₀ : Nat → Start), w₀.Sound l₀ base₀ none ∧
      w₀.start s c = (.ok root, w') := by
  induction ho generalizing l base with
  | direct hr hs =>
      obtain ⟨-, h'⟩ := h.reaches (runsSound hb _) ha hr
      exact ⟨_, l, base, h', hs⟩
  | nested _ hturns hd ht he _ ih ih' =>
      obtain ⟨w₀, l₀, base₀, h₀, hs₀⟩ := ih ha h
      obtain ⟨l₁, base₁, hp₁⟩ := h₀.poised hs₀
      obtain ⟨l₂, hp₂⟩ := hp₁.turns (resumesSound hb _) hturns
      obtain ⟨hs, body, rfl⟩ := hp₂.entered hd ht he
      exact ih' (hb _ _ _) hs

/-- **Every run that orderly bodies open finds a sound world at its first turn.** -/
theorem Sound.opens {bodies : Bodies β σ} (hb : bodies.Orderly) {α : Type}
    {action : Action β σ α} {fuel depth s root : Nat} {c : CoroutineRef} (ha : action.Orderly)
    (h : w.Sound l base none) (ho : Opens bodies action fuel w s c depth root w') :
    ∃ l' base', w'.Poised s root c l' base' := by
  obtain ⟨w₀, l₀, base₀, h₀, hs⟩ := h.opened hb ha ho
  exact h₀.poised hs

/-- **A run is poised between any two of its turns**, when nothing but errors of the host keeps its bodies
from being orderly. -/
theorem poised_between_turns {bodies : Bodies β σ} (hb : bodies.masked.Orderly) {α : Type}
    {action : Action β σ α} (ha : action.masked.Orderly) {limits : List (Option Number)} {shared : σ}
    {fuel depth s root : Nat} {c : CoroutineRef} {log : List (CoroutineRef × Step)}
    (ho : Opens bodies action fuel (World.initial limits shared) s c depth root w)
    (ht : Turns (resume bodies depth) s w log w') : ∃ l base, w'.Poised s root c l base := by
  obtain ⟨l, base, hp⟩ := (Sound.initial limits shared fun _ => ⟨0, c⟩).opens hb ha ho.masked
  obtain ⟨l', hp'⟩ := hp.turns (resumesSound hb depth) (turns_masked.mpr ht)
  exact ⟨l', base, hp'⟩

end World

end Coroutines
