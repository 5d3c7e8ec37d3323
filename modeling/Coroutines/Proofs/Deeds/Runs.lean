import Coroutines.Proofs.Deeds.Trace
import Mathlib.Data.List.DropRight

/-!
# What runs report

Where there is one scheduler, runs follow one another, and each reports its start, what its turns do and,
if it comes to its end, how it ended and how many turns it made (`World.Solitary.reported`).
-/

namespace Coroutines

variable {β σ : Type}

/-- The deeds since the last begin of a run. -/
def lastRun (log : List (Deed β)) : List (Deed β) := log.rtakeWhile fun d => !d.isBegin

section

variable {log log' : List (Deed β)} {es es' : List Event} {bound : Nat}

theorem turns_of_calls (h : ∀ d ∈ log, d.isCall = true) : log.countP Deed.isTurn = 0 := by
  refine List.countP_eq_zero.mpr fun d hd => ?_
  have := h d hd
  cases d with
  | call => exact Bool.false_ne_true
  | _ => cases this

theorem lastRun_append (h : ∀ d ∈ log', d.isBegin = false) :
    lastRun (log ++ log') = lastRun log ++ log' := by
  have hall : ∀ d ∈ log'.reverse, (!d.isBegin) = true := fun d hd => by
    rw [h d (List.mem_reverse.mp hd)]
    rfl
  rw [lastRun, List.rtakeWhile, List.reverse_append, List.takeWhile_append_of_pos hall,
    List.reverse_append, List.reverse_reverse]
  rfl

theorem lastRun_append_of_begin {d : Deed β} (hd : d ∈ log') (hb : d.isBegin = true) :
    lastRun (log ++ log') = lastRun log' := by
  have hsome : (log'.reverse.takeWhile fun d => !d.isBegin).length ≠ log'.reverse.length := by
    intro e
    have hall := List.takeWhile_eq_self_iff.mp ((List.takeWhile_prefix _).eq_of_length e) d
      (List.mem_reverse.mpr hd)
    rw [hb] at hall
    cases hall
  rw [lastRun, List.rtakeWhile, List.reverse_append, List.takeWhile_append, if_neg hsome]
  rfl

theorem lastRun_begin (h : ∀ d ∈ log', d.isBegin = false) (s : Nat) (c : CoroutineRef) :
    lastRun (.begin s c :: log') = log' :=
  (lastRun_append h : lastRun ([.begin s c] ++ log') = lastRun [.begin s c] ++ log')

/-- Events tell of a log of runs that follow one another, of so many turns at most. -/
structure TellsRuns (bound : Nat) (log : List (Deed β)) (es : List Event) : Prop where
  tallies : Tallies log es
  /-- Without a run there are calls only. -/
  calls : (∀ d ∈ log, d.isBegin = false) → (∀ d ∈ log, d.isCall = true) ∧ es = []
  /-- The end of the last run tells the number of its turns. -/
  last : ∀ s ok, .conclude s ok ∈ lastRun log → (lastRun log).countP Deed.isTurn ≤ bound ∧
    ∃ before, es = before ++ [.runEnd ok ((lastRun log).countP Deed.isTurn)]

namespace TellsRuns

theorem of_calls (h : ∀ d ∈ log, d.isCall = true) : TellsRuns bound log [] where
  tallies := .calls h
  calls := fun _ => ⟨h, rfl⟩
  last := by
    intro s ok hd
    have := h _ ((List.rtakeWhile_suffix _ _).mem hd)
    cases this

theorem append (h : TellsRuns bound log es) (h' : TellsRuns bound log' es') :
    TellsRuns bound (log ++ log') (es ++ es') where
  tallies := h.tallies.append h'.tallies
  calls := by
    intro hnone
    obtain ⟨hl, rfl⟩ := h.calls fun d hd => hnone d (List.mem_append_left _ hd)
    obtain ⟨hl', rfl⟩ := h'.calls fun d hd => hnone d (List.mem_append_right _ hd)
    exact ⟨fun d hd => (List.mem_append.mp hd).elim (hl d) (hl' d), rfl⟩
  last := by
    intro s ok hd
    by_cases hnone : ∀ d ∈ log', d.isBegin = false
    · obtain ⟨hl', rfl⟩ := h'.calls hnone
      rw [lastRun_append hnone] at hd ⊢
      rw [List.append_nil, List.countP_append, turns_of_calls hl']
      refine h.last s ok ((List.mem_append.mp hd).resolve_right fun hd' => ?_)
      cases hl' _ hd'
    · push Not at hnone
      obtain ⟨d, hmem, hbegin⟩ := hnone
      rw [lastRun_append_of_begin hmem (Bool.not_eq_false _ ▸ hbegin)] at hd ⊢
      obtain ⟨hle, before, rfl⟩ := h'.last s ok hd
      exact ⟨hle, es ++ before, (List.append_assoc ..).symm⟩

/-- A run whose loop is over, and that has come to its end or not. -/
theorem run (ht : Tallies log es) (hin : ∀ d ∈ log, d.isBegin = false ∧ d.isConclude = false)
    (hle : log.countP Deed.isTurn ≤ bound)
    (s : Nat) (c : CoroutineRef) (name : String) (claim release : Call β) {tail : List (Deed β)}
    {ends : List Event} (h : tail = [] ∧ ends = [] ∨
      ∃ ok, tail = [.conclude s ok] ∧ ends = [.runEnd ok (log.countP Deed.isTurn)]) :
    TellsRuns bound (.call claim :: .begin s c :: (log ++ tail ++ [.call release]))
      (.runStart name :: (es ++ ends)) := by
  have hall : Tallies (.call claim :: .begin s c :: (log ++ tail ++ [.call release]))
      (.runStart name :: (es ++ ends)) := by
    have hbegin : Tallies [.call claim, .begin s c] [.runStart name] := ⟨rfl, rfl, rfl⟩
    have hends : Tallies tail ends := by
      obtain ⟨rfl, rfl⟩ | ⟨ok, rfl, rfl⟩ := h <;> exact ⟨rfl, rfl, rfl⟩
    have hrelease : Tallies [.call release] [] := ⟨rfl, rfl, rfl⟩
    have := hbegin.append ((ht.append hends).append hrelease)
    rwa [List.append_nil] at this
  have hbegin : ∀ d ∈ log ++ tail ++ [.call release], d.isBegin = false := by
    intro d hd
    rcases List.mem_append.mp hd with hd | hd
    · rcases List.mem_append.mp hd with hd | hd
      · exact (hin d hd).1
      · obtain ⟨rfl, -⟩ | ⟨ok, rfl, -⟩ := h
        · cases hd
        · exact List.mem_singleton.mp hd ▸ rfl
    · exact List.mem_singleton.mp hd ▸ rfl
  have hlast : lastRun (.call claim :: .begin s c :: (log ++ tail ++ [.call release])) =
      log ++ tail ++ [.call release] := by
    rw [← List.singleton_append, lastRun_append_of_begin (List.mem_cons_self ..) rfl,
      lastRun_begin hbegin]
  refine ⟨hall, fun hnone => ?_, fun s' ok hd => ?_⟩
  · have := hnone (.begin s c) (List.mem_cons_of_mem _ (List.mem_cons_self ..))
    cases this
  · rw [hlast] at hd ⊢
    rcases List.mem_append.mp hd with hd | hd
    · rcases List.mem_append.mp hd with hd | hd
      · have := (hin _ hd).2
        cases this
      · obtain ⟨rfl, -⟩ | ⟨ok', rfl, rfl⟩ := h
        · cases hd
        · cases List.mem_singleton.mp hd
          have hturns : (log ++ [Deed.conclude s ok] ++ [Deed.call release]).countP Deed.isTurn =
              log.countP Deed.isTurn := by
            rw [List.countP_append, List.countP_append]
            rfl
          rw [hturns]
          exact ⟨hle, .runStart name :: es, rfl⟩
    · cases List.mem_singleton.mp hd

end TellsRuns

end

namespace World

variable {w w' w₁ w₂ : World β σ} {s t k : Nat} {limit : Option Number} {bodies : Bodies β σ} {fuel : Nat}

/-- A run of a scheduler is in progress, with some resumes, and no scheduler is idle. -/
structure AtWork (s k : Nat) (limit : Option Number) (w : World β σ) : Prop where
  busy : w.Busy
  gauge : w.gauge s = some (some k, limit)

theorem turns_absorbDeeds (w : World β σ) (s t : Nat) (top : CoroutineRef) (step : Step) :
    (w.absorbDeeds s t top step).countP Deed.isTurn = 0 := by
  cases step with
  | await target =>
    cases target with
    | coroutine c => rfl
    | group g =>
      simp only [absorbDeeds, suspendDeeds]
      split
      · rfl
      · rw [groupDeeds, List.countP_cons_of_neg Bool.false_ne_true]
        exact turns_of_calls fun d hd => Inside.isCall_memberDeeds _ _ _ _ _ d hd
  | ret v => rfl
  | raise r => rfl

namespace AtWork

theorem of_gauge (h : AtWork s k limit w) (e : ∀ s', w'.gauge s' = w.gauge s') :
    AtWork s k limit w' where
  busy s' := by
    rw [isActive_eq_gauge, e, ← isActive_eq_gauge]
    exact h.busy s'
  gauge := (e s).trans h.gauge

theorem counted (h : AtWork s k limit w) : AtWork s (k + 1) limit (w.counted s) where
  busy s' := by
    rw [isActive_eq_gauge]
    by_cases hs : s = s'
    · subst hs
      rw [gauge_counted, h.gauge]
      rfl
    · have hsame : (w.counted s).gauge s' = w.gauge s' := gauge_modifyScheduler_of_ne s' hs
      rw [hsame, ← isActive_eq_gauge]
      exact h.busy s'
  gauge := by
    rw [gauge_counted, h.gauge]
    rfl

/-- A turn of a run reports what the step does that it ends with. -/
theorem step (bodies : Bodies β σ) (fuel : Nat) (h : AtWork s k limit w) (t : Nat) :
    Inside w (w.turnDeeds (World.resume bodies fuel) (resumeDeeds bodies fuel) s t)
        (w.step (World.resume bodies fuel) s t).2 ∧
      (w.turnDeeds (World.resume bodies fuel) (resumeDeeds bodies fuel) s t).countP Deed.isTurn ≤ 1 ∧
      ∃ j, AtWork s j limit (w.step (World.resume bodies fuel) s t).2 ∧
        ((w.step (World.resume bodies fuel) s t).1 = .ok () → j = k +
          (w.turnDeeds (World.resume bodies fuel) (resumeDeeds bodies fuel) s t).countP Deed.isTurn) := by
  have htake := takeUp_eq w s t
  rcases hx : (w.tasks.get? t).bind fun x => x.chain.head?.map (·, x.inbox) with - | ⟨top, input⟩ <;>
    simp only [hx] at htake
  · simp only [World.step, turnDeeds, htake]
    exact ⟨.refl w, Nat.zero_le 1, k, h, fun _ => rfl⟩
  · rcases hn : (w.counted s).exceeded? s with - | n <;> simp only [hn] at htake
    · have hwork : AtWork s (k + 1) limit ((w.counted s).taken t) := h.counted.of_gauge fun _ => rfl
      have hquiet := Quiet.resume bodies fuel top input _ hwork.busy
      have hwatch : Inside w (resumeDeeds bodies fuel top input ((w.counted s).taken t))
          (((w.counted s).taken t).resume bodies fuel top input).2 := .calls hquiet.calls hquiet.trace
      have hafter : AtWork s (k + 1) limit
          (((w.counted s).taken t).resume bodies fuel top input).2 :=
        hwork.of_gauge fun s' => by simp only [World.gauge, hquiet.schedulers]
      simp only [World.step, turnDeeds, htake]
      have hcalls := turns_of_calls hquiet.calls
      rcases hr : ((w.counted s).taken t).resume bodies fuel top input with ⟨e | step, w'⟩ <;>
        rw [hr] at hwatch hafter <;> dsimp only
      · exact ⟨hwatch, hcalls ▸ Nat.zero_le 1, k + 1, hafter, fun e => by cases e⟩
      · have hone : (resumeDeeds bodies fuel top input ((w.counted s).taken t) ++
            .turn s top step :: w'.absorbDeeds s t top step).countP Deed.isTurn = 1 := by
          rw [List.countP_append, hcalls, List.countP_cons_of_pos rfl, turns_absorbDeeds]
        exact ⟨hwatch.append (.absorb w' s t top step), Nat.le_of_eq hone, k + 1,
          hafter.of_gauge fun s' => gauge_absorb .., fun _ => by rw [hone]⟩
    · have hcut : Inside w [] ((w.counted s).emit s (.budgetExceeded n)) :=
        (Inside.emit _ s rfl).congr rfl rfl
      simp only [World.step, turnDeeds, htake]
      exact ⟨hcut, Nat.zero_le 1, k + 1, h.counted.of_gauge fun _ => rfl, fun e => by cases e⟩

/-- The loop of a run reports what its turns do, and a run that comes to an empty queue has counted them. -/
theorem drain (bodies : Bodies β σ) (fuel : Nat) (h : AtWork s k limit w) (m : Nat) :
    Inside w (drainDeeds (World.resume bodies fuel) (resumeDeeds bodies fuel) s m w)
        (World.drain (World.resume bodies fuel) s m w).2 ∧
      (drainDeeds (World.resume bodies fuel) (resumeDeeds bodies fuel) s m w).countP Deed.isTurn ≤ m ∧
      ∃ j, AtWork s j limit (World.drain (World.resume bodies fuel) s m w).2 ∧
        ((World.drain (World.resume bodies fuel) s m w).1 = .ok () → j = k +
          (drainDeeds (World.resume bodies fuel) (resumeDeeds bodies fuel) s m w).countP
            Deed.isTurn) := by
  induction m generalizing w k with
  | zero => exact ⟨.refl w, Nat.le_refl 0, k, h, fun e => by cases e⟩
  | succ m ih =>
    rcases hd : w.dequeue s with - | ⟨t, w₁⟩ <;> simp only [World.drain, drainDeeds, hd]
    · exact ⟨.refl w, Nat.zero_le _, k, h, fun _ => rfl⟩
    · have htrace : w₁.trace = w.trace := by
        obtain ⟨_, _, -, -, rfl⟩ := dequeue_eq_some hd
        rfl
      obtain ⟨hin, hone, j, hwork, hcount⟩ := (h.of_gauge fun s' => gauge_dequeue s' hd).step
        bodies fuel t
      rcases hs : w₁.step (World.resume bodies fuel) s t with ⟨e | ⟨⟩, w₂⟩ <;>
        rw [hs] at hin hwork hcount <;> dsimp only
      · exact ⟨hin.congr htrace.symm rfl, by omega, j, hwork, fun e => by cases e⟩
      · obtain ⟨hin', hle, i, hwork', hcount'⟩ := ih hwork
        refine ⟨(hin.append hin').congr htrace.symm rfl, ?_, i, hwork', fun hok => ?_⟩
        · rw [List.countP_append, Nat.add_comm m]
          exact Nat.add_le_add hone hle
        · rw [hcount' hok, hcount rfl, List.countP_append, Nat.add_assoc]

end AtWork

/-- There is one scheduler at most. -/
def Solitary (w : World β σ) : Prop := ∀ s, s ≠ 0 → w.gauge s = none

theorem Solitary.of_gauge (h : w.Solitary) (e : ∀ s, w'.gauge s = w.gauge s) : w'.Solitary :=
  fun s hs => (e s).trans (h s hs)

theorem Solitary.run (h : w.Solitary) (s : Nat) (c : CoroutineRef) :
    (w.run bodies fuel s c).2.Solitary :=
  fun s' hs => keeping_gauge_run (keeping_gauge s' none) s c (h s' hs)

theorem Solitary.resume (h : w.Solitary) (c : CoroutineRef) (input : Input) :
    (w.resume bodies fuel c input).2.Solitary :=
  fun s' hs => keeping_gauge s' none c input (h s' hs)

/-- Starting a run of the only scheduler sets it to work. -/
theorem Solitary.start (h : w.Solitary) {c : CoroutineRef} {root : Nat}
    (hs : w.start s c = (.ok root, w₁)) : ∃ limit, AtWork s 0 limit w₁ := by
  obtain ⟨limit, hidle⟩ := idle_of_start hs
  have hgauge : ∀ s', w₁.gauge s' = if s = s' then some (some 0, limit) else w.gauge s' := by
    intro s'
    have hstart := gauge_start w s' s c
    rw [hs] at hstart
    refine hstart.trans ?_
    by_cases e : s = s'
    · subst e
      rw [if_pos ⟨rfl, rfl⟩, if_pos rfl, hidle]
      rfl
    · rw [if_neg fun h => e h.1, if_neg e]
  refine ⟨limit, fun s' => ?_, (hgauge s).trans (if_pos rfl)⟩
  rw [isActive_eq_gauge, hgauge]
  split
  · rfl
  · next hne =>
    have hzero : s = 0 := by
      by_contra hs'
      rw [h s hs'] at hidle
      cases hidle
    rw [h s' fun e => hne (hzero.trans e.symm)]
    rfl

/-- What is reported on the way to another world tells of the runs on the way. -/
def Reported (bound : Nat) (w : World β σ) (log : List (Deed β)) (w' : World β σ) : Prop :=
  ∃ es, w'.story = w.story ++ es ∧ TellsRuns bound log es

namespace Reported

variable {log log' : List (Deed β)} {bound : Nat}

theorem append {w'' : World β σ} (h : Reported bound w log w') (h' : Reported bound w' log' w'') :
    Reported bound w (log ++ log') w'' := by
  obtain ⟨es, hs, ht⟩ := h
  obtain ⟨es', hs', ht'⟩ := h'
  exact ⟨es ++ es', by rw [hs', hs, List.append_assoc], ht.append ht'⟩

theorem of_calls (h : ∀ d ∈ log, d.isCall = true) (hs : w'.trace = w.trace) : Reported bound w log w' :=
  ⟨[], by rw [story, story, hs, List.append_nil], .of_calls h⟩

theorem refl (w : World β σ) : Reported bound w [] w := of_calls (fun _ h => absurd h List.not_mem_nil) rfl

theorem call (w : World β σ) (c : CoroutineRef) (act : Act) (hs : w'.trace = w.trace) :
    Reported bound w [w.callDeed c act w'] w' :=
  of_calls (fun _ hd => List.mem_singleton.mp hd ▸ rfl) hs

/-- A run reports its start, if it starts. -/
theorem start_cases (w : World β σ) (s : Nat) (c : CoroutineRef) :
    (∃ e, (w.start s c).1 = .error e ∧ (w.start s c).2.trace = w.trace ∧
        ∀ d ∈ w.startDeeds s c, d.isCall = true) ∨
      ∃ root claim, (w.start s c).1 = .ok root ∧ w.startDeeds s c = [.call claim, .begin s c] ∧
        (w.start s c).2.story = w.story ++ [.runStart c.name] := by
  by_cases ha : w.isActive s = true
  · simp only [World.start, startDeeds, if_pos ha]
    exact .inl ⟨_, rfl, trivial, fun _ h => absurd h List.not_mem_nil⟩
  · simp only [World.start, startDeeds, if_neg ha]
    have htrace := Inside.trace_claim (w.newTask s c 0 none).2 c
      ((w.newTask s c 0 none).2.taskId (w.newTask s c 0 none).1)
    rcases hc : (w.newTask s c 0 none).2.claim c
      ((w.newTask s c 0 none).2.taskId (w.newTask s c 0 none).1) with ⟨- | f, w₁⟩ <;> rw [hc] at htrace
    · refine .inr ⟨_, _, rfl, rfl, (story_emit _ s _).trans (congrArg (· ++ _) ?_)⟩
      exact congrArg (fun trace => trace.toList.map Prod.snd) htrace
    · exact .inl ⟨_, rfl, htrace, fun d hd => List.mem_singleton.mp hd ▸ rfl⟩

/-- How a run that has come to an empty queue ends. -/
theorem conclude_cases (w : World β σ) (s root : Nat) (c : CoroutineRef) :
    w.concludeDeeds s root = [] ∧ (w.conclude s root c).2 = w ∨
      ∃ ok, w.concludeDeeds s root = [.conclude s ok] ∧
        (w.conclude s root c).2 = w.emit s (.runEnd ok (w.steps s)) := by
  unfold World.conclude concludeDeeds
  cases w.taskOutcome? root with
  | none => exact .inl ⟨rfl, rfl⟩
  | some outcome => exact .inr ⟨outcome.isOk, rfl, rfl⟩

/-- A run of the only scheduler. -/
theorem run (h : w.Solitary) (bodies : Bodies β σ) (hf : fuel ≤ bound) (s : Nat) (c : CoroutineRef) :
    Reported bound w (w.runDeeds (World.resume bodies fuel) (resumeDeeds bodies fuel) fuel s c)
      (w.run bodies fuel s c).2 := by
  simp only [World.run, World.runWith, runDeeds]
  rcases hs : w.start s c with ⟨e | root, w₁⟩
  · obtain ⟨-, -, htrace, hcalls⟩ | ⟨root, -, hok, -⟩ := start_cases w s c
    · rw [hs] at htrace
      exact of_calls hcalls htrace
    · rw [hs] at hok
      cases hok
  · obtain ⟨e, herr, -⟩ | ⟨-, claim, -, hdeeds, hstory⟩ := start_cases w s c
    · rw [hs] at herr
      cases herr
    rw [hs] at hstory
    obtain ⟨limit, hwork⟩ := h.start hs
    obtain ⟨⟨⟨es, hes, ht⟩, hin⟩, hle, j, hdone, hcount⟩ := hwork.drain bodies fuel fuel
    rw [Nat.zero_add] at hcount
    have hrun : ∀ {tail : List (Deed β)} {ends : List Event} {v : World β σ} (release : Call β),
        v.story = (World.drain (World.resume bodies fuel) s fuel w₁).2.story ++ ends →
        (tail = [] ∧ ends = [] ∨ ∃ ok, tail = [.conclude s ok] ∧ ends = [.runEnd ok
          ((drainDeeds (World.resume bodies fuel) (resumeDeeds bodies fuel) s fuel w₁).countP
            Deed.isTurn)]) →
        Reported bound w ([.call claim, .begin s c] ++
          drainDeeds (World.resume bodies fuel) (resumeDeeds bodies fuel) s fuel w₁ ++
          (tail ++ [.call release])) v := by
      intro tail ends v release hv hends
      refine ⟨.runStart c.name :: (es ++ ends), ?_, ?_⟩
      · rw [hv, hes, hstory, List.append_assoc, List.append_assoc]
        rfl
      · have := TellsRuns.run ht hin (Nat.le_trans hle hf) s c c.name claim release hends
        rwa [List.append_assoc] at this
    rw [hdeeds]
    rcases hr : World.drain (World.resume bodies fuel) s fuel w₁ with ⟨e | ⟨⟩, w₂⟩ <;>
      rw [hr] at hdone hcount hrun <;> simp only [hr]
    · -- the loop was broken off
      exact hrun _ (List.append_nil _).symm (.inl ⟨rfl, rfl⟩)
    · obtain ⟨hnone, hsame⟩ | ⟨ok, hsome, hend⟩ := conclude_cases w₂ s root c
      · rw [hnone, hsame]
        exact hrun _ (List.append_nil _).symm (.inl ⟨rfl, rfl⟩)
      · rw [hsome, hend, steps_of_gauge hdone.gauge, hcount rfl]
        exact hrun _ (story_emit ..) (.inr ⟨ok, rfl, rfl⟩)

theorem perform {α : Type} {runner : Runner β σ} {watch : Watch β σ}
    (hrun : ∀ s c (w : World β σ), w.Solitary →
      Reported bound w (watch.run s c w) (runner.run s c w).2 ∧ (runner.run s c w).2.Solitary)
    (hres : ∀ c input (w : World β σ), w.Solitary →
      Reported bound w (watch.resume c input w) (runner.resume c input w).2 ∧
        (runner.resume c input w).2.Solitary)
    (a : Action β σ α) (w : World β σ) (h : w.Solitary) :
    Reported bound w (a.deeds runner watch w) (a.perform runner w).2 := by
  induction a generalizing w with
  | done result => exact refl w
  | read next ih => exact ih _ w h
  | modify f next ih => exact ih { w with shared := f w.shared } h
  | identity next ih => exact ih w.identity.1 w.identity.2 h
  | spawn name body locals next ih =>
    have hmade : Reported bound w [w.makeDeed name body locals] (w.spawn name body locals).2 :=
      call w _ _ rfl
    exact hmade.append (ih _ _ h)
  | joinAll s members re next ih =>
    simp only [Action.deeds, Action.perform]
    split
    · exact ih (.ok (w.newGroup members re).1) (w.newGroup members re).2 h
    · exact ih _ w h
  | run s c next ih =>
    obtain ⟨hr, hkept⟩ := hrun s c w h
    simp only [Action.deeds, Action.perform]
    rcases splitScript (runner.run s c w).1 with e | r
    · exact hr
    · exact hr.append (ih r _ hkept)
  | resume c input next ih =>
    obtain ⟨hr, hkept⟩ := hres c input w h
    simp only [Action.deeds, Action.perform]
    rcases splitScript (runner.resume c input w).1 with e | r
    · exact hr
    · exact hr.append (ih r _ hkept)
  | claim c task next ih =>
    have hclaim : Reported bound w [w.claimDeed c task] (w.claim c task).2 :=
      call w _ _ (Inside.trace_claim w c task)
    exact hclaim.append (ih _ _ (h.of_gauge fun s => gauge_claim ..))
  | release c next ih =>
    have hrelease : Reported bound w [w.releaseDeed c] (w.release c) := call w _ _ rfl
    exact hrelease.append (ih _ h)

/-- **What bodies do outside any run is reported as well**, by induction on how deep they may nest. -/
theorem resume (bodies : Bodies β σ) (hf : fuel ≤ bound) (c : CoroutineRef) (input : Input)
    (w : World β σ) (h : w.Solitary) :
    Reported bound w (resumeDeeds bodies fuel c input w) (World.resume bodies fuel c input w).2 := by
  induction fuel generalizing c input w with
  | zero => exact refl w
  | succ fuel ih =>
    rw [resume_succ, World.resumeWith, resumeDeeds]
    rcases he : w.enter bodies c input with ⟨reason | ⟨frame, action⟩, w₁⟩
    · obtain rfl := enter_eq_error he
      exact call w₁ c _ rfl
    · obtain ⟨x, -, -, rfl, -, forgets, rfl⟩ := enter_eq_ok he
      have henter : Reported bound w [w.callDeed c (.enter input) (w.modifyHandle c (·.entered forgets))]
          (w.modifyHandle c (·.entered forgets)) := call w c _ rfl
      have hbody : Reported bound (w.modifyHandle c (·.entered forgets))
          (action.deeds (runner bodies fuel) (watch bodies fuel) _)
          (action.perform (runner bodies fuel) _).2 :=
        perform (fun s c w hw => ⟨run hw bodies (Nat.le_of_succ_le hf) s c, hw.run s c⟩)
          (fun c input w hw => ⟨ih (Nat.le_of_succ_le hf) c input w hw, hw.resume c input⟩) action _ h
      have hleave : ∀ (w : World β σ) (result : Except Abort (Frame × Step)),
          Reported bound w [w.callDeed c (.leave result) (w.leave c x.frame result).2]
            (w.leave c x.frame result).2 := by
        intro w result
        rw [leave_snd]
        exact call w c _ rfl
      exact (henter.append hbody).append (hleave _ _)

end Reported

/-- **Where there is one scheduler at most, the events of an action tell of the runs that it makes.** -/
theorem Solitary.reported {α : Type} (h : w.Solitary) (bodies : Bodies β σ) (fuel : Nat)
    (a : Action β σ α) : Reported fuel w (w.deeds bodies fuel a) (w.perform bodies fuel a).2 :=
  .perform (fun s c _ hw => ⟨.run hw bodies (Nat.le_refl fuel) s c, hw.run s c⟩)
    (fun c input w hw => ⟨.resume bodies (Nat.le_refl fuel) c input w hw, hw.resume c input⟩) a w h

end World

end Coroutines
