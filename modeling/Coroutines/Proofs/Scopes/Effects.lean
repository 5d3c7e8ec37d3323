import Coroutines.Proofs.Checked.Laws
import Coroutines.Proofs.Moments

/-!
# The effects of code

Two effects of an action outlast it besides those on the coroutines that it runs: it changes the shared
state, and it makes coroutines.  A law about these two alone (`Law.effects`) asks of an action only that
its own changes keep a property of the shared state and that the coroutines it makes are of some kind
(`Action.Heeds`).  Nothing that the schedulers do touches the shared state, so such a property holds not
only after an action but at every moment on the way, in every turn of every run that the action asks for
(`World.Visits.shared`), and so it is with the coroutines that are made (`World.Visits.heeds`).
-/

namespace Coroutines

variable {β σ α γ : Type} {L : Law β σ} {S : σ → Prop} {P : β → Bindings Value → Prop}

namespace Law

/-- The law that holds the shared state to one property and new coroutines to another, and allows
everything else. -/
def effects (S : σ → Prop) (P : β → Bindings Value → Prop) : Law β σ := ⟨fun _ => True, fun _ => True, P, S⟩

theorem effects_closed : (effects S P).Closed := ⟨fun _ => trivial, fun _ => trivial, fun _ => trivial⟩

theorem effects_outcome (o : Outcome) : (effects S P).outcome o := by
  cases o <;> trivial

theorem effects_input (input : Input) : (effects S P).input input := by
  cases input <;> trivial

theorem effects_step (step : Step) : (effects S P).step step := by
  cases step <;> trivial

end Law

/-- A world is lawful if its shared state has the property, and the kind of coroutines does not matter. -/
theorem World.lawful_effects_iff {w : World β σ} : w.Lawful (.effects S fun _ _ => True) ↔ S w.shared :=
  ⟨fun h => h.shared, fun h => ⟨fun _ => trivial, fun _ _ => Law.effects_outcome _,
    fun _ => Law.effects_input _, fun _ _ => Law.effects_outcome _, h⟩⟩

/-! ### Actions -/

namespace Action

/-- The changes that an action itself makes to the shared state keep a property of it, and the coroutines
that it makes are of some kind. -/
abbrev Heeds (S : σ → Prop) (P : β → Bindings Value → Prop) (a : Action β σ α) : Prop :=
  a.Upholds (.effects S P) (fun _ => True) fun _ => True

namespace Heeds

theorem done (result : Except Abort α) : (Action.done result : Action β σ α).Heeds S P := by
  rcases result with (_ | _ | _ | _ | _) | _ <;> trivial

protected theorem bind {a : Action β σ α} {k : α → Action β σ γ} (h : a.Heeds S P)
    (hk : ∀ x, (k x).Heeds S P) : (a.bind k).Heeds S P := Upholds.bind h fun x _ => hk x

protected theorem catchScript {a : Action β σ α} {handler : Record → Action β σ α} (h : a.Heeds S P)
    (hh : ∀ r, (handler r).Heeds S P) : (a.catchScript handler).Heeds S P :=
  Upholds.catchScript h fun r _ => hh r

end Heeds

/-- What is left of an action after a request upholds the law that the action did, if runs come to allowed
ends. -/
theorem Upholds.advance {post : α → Prop} {err : Record → Prop} {runner : Runner β σ} {a a' : Action β σ α}
    {w w' : World β σ} (hL : L.Closed) (ha : a.Upholds L post err) (hs : L.shared w.shared)
    (hvalue : ∀ {s c v}, (runner.run s c w).1 = .ok v → L.value v)
    (hrecord : ∀ {s c r}, (runner.run s c w).1 = .error (.script r) → L.record r)
    (h : a.advance runner w = some (a', w')) : a'.Upholds L post err := by
  cases a with
  | done result => cases h
  | read next =>
      cases h
      exact ha _ hs
  | modify f next =>
      cases h
      exact ha.2
  | identity next =>
      cases h
      exact ha _
  | spawn name body locals next =>
      cases h
      exact ha.2 _
  | joinAll s members re next =>
      simp only [Action.advance] at h
      split at h <;> cases h
      · exact ha.1 _
      · exact ha.2 _ (hL.usage rfl)
  | run s c next =>
      simp only [Action.advance] at h
      rcases e : (runner.run s c w).1 with (r | _ | _ | _ | _) | v <;> rw [e] at h <;> cases h
      · exact ha.2 r (hrecord e)
      · exact ha.1 v (hvalue e)
  | resume c input next => exact ha.elim
  | claim c task next => exact ha.elim
  | release c next => exact ha.elim

/-- A request keeps a world lawful, if runs do. -/
theorem Upholds.lawful_advance {post : α → Prop} {err : Record → Prop} {runner : Runner β σ}
    {a a' : Action β σ α} {w w' : World β σ} (ha : a.Upholds L post err) (hw : w.Lawful L)
    (hrun : ∀ s c, (runner.run s c w).2.Lawful L) (h : a.advance runner w = some (a', w')) :
    w'.Lawful L := by
  cases a with
  | done result => cases h
  | read next =>
      cases h
      exact hw
  | modify f next =>
      cases h
      exact ⟨hw.bodies, hw.recorded, hw.handed, hw.ended, ha.1 _ hw.shared⟩
  | identity next =>
      cases h
      exact hw.of_tables rfl rfl rfl
  | spawn name body locals next =>
      cases h
      exact hw.spawn name ha.1
  | joinAll s members re next =>
      simp only [Action.advance] at h
      split at h <;> cases h
      · exact hw.of_tables rfl rfl rfl
      · exact hw
  | run s c next =>
      simp only [Action.advance] at h
      split at h <;> cases h
      exact hrun s c
  | resume c input next => exact ha.elim
  | claim c task next => exact ha.elim
  | release c next => exact ha.elim

end Action

/-! ### Moments -/

namespace World

variable {bodies : Bodies β σ} {depth fuel s t : Nat} {w w' : World β σ}

theorem Lawful.dequeue (h : w.Lawful L) (hd : w.dequeue s = some (t, w')) : w'.Lawful L := by
  obtain ⟨_, _, -, -, rfl⟩ := dequeue_eq_some hd
  exact h.of_tables rfl rfl rfl

theorem Lawful.run (h : w.Lawful L) (hL : L.Closed) (hb : bodies.Upholds L) (c : CoroutineRef) :
    Ends L L.value L.record (World.run bodies fuel s c w) :=
  h.runWith hL (fun c _ _ hw hin => hw.resume hL hb fuel c hin) fuel s c

theorem Lawful.afterTurns {n : Nat} (h : w.Lawful L) (hL : L.Closed) (hb : bodies.Upholds L)
    (hn : afterTurns (World.resume bodies depth) s n w = some w') : w'.Lawful L := by
  induction n generalizing w with
  | zero =>
      cases hn
      exact h
  | succ n ih =>
      obtain ⟨⟨t, w₁⟩, hd, hn⟩ := Option.bind_eq_some_iff.mp hn
      have hstep := (h.dequeue hd).step hL (fun c _ _ hw hin => hw.resume hL hb depth c hin) s t
      rcases hs : w₁.step (World.resume bodies depth) s t with ⟨e | ⟨⟩, w₂⟩ <;>
        simp only [hs] at hn hstep
      · cases hn
      · exact ih hstep.lawful hn

/-- A run comes to its turns in lawful worlds and with allowed inputs. -/
theorem Lawful.takesUp {rest : Rest β σ γ α} {a : Action β σ α} {loop : Rest β σ γ Unit}
    {top : CoroutineRef} {input : Input} (h : w.Lawful L) (hL : L.Closed) (hb : bodies.Upholds L)
    (ht : TakesUp bodies depth rest a w loop s t top input w') : w'.Lawful L ∧ L.input input := by
  obtain ⟨hs, hturns, hd, ht, -⟩ := ht
  next root n left c next w₁ w₂ w₃ =>
  have hstart := h.start hL s c
  rw [hs] at hstart
  have htake := ((hstart.lawful.afterTurns hL hb hturns).dequeue hd).takeUp hL s t
  rw [ht] at htake
  exact ⟨htake.lawful, htake.value _ rfl top input rfl⟩

/-- A coroutine that is entered goes on with what upholds the law. -/
theorem Lawful.enter {c : CoroutineRef} {input : Input} {frame : Frame} {body : Action β σ (Frame × Step)}
    (h : w.Lawful L) (hb : bodies.Upholds L) (hin : L.input input)
    (he : w.enter bodies c input = (.ok (frame, body), w')) :
    (∃ post err, body.Upholds L post err) ∧ w'.Lawful L := by
  obtain ⟨x, hx, -, -, rfl, _, rfl⟩ := enter_eq_ok he
  exact ⟨⟨_, _, hb x.body x.frame input (h.bodies hx) hin⟩, h.mark c fun _ => ⟨rfl, rfl, rfl⟩⟩

/-- **Everything is lawful at every moment of an action that upholds a law**, and so is what is left to
carry out there. -/
theorem Visits.lawful {a : Action β σ γ} {post : γ → Prop} {err : Record → Prop} {rest : Rest β σ γ α}
    {a' : Action β σ α} (hL : L.Closed) (hb : bodies.Upholds L) (ha : a.Upholds L post err)
    (hw : w.Lawful L) (h : Visits bodies a fuel w rest a' depth w') :
    (∃ post err, a'.Upholds L post err) ∧ w'.Lawful L := by
  induction h with
  | refl => exact ⟨⟨_, _, ha⟩, hw⟩
  | request _ hadvance ih =>
      obtain ⟨⟨post, err, ha'⟩, hw'⟩ := ih
      exact ⟨⟨post, err, ha'.advance hL hw'.shared (fun {s c} => (hw'.run hL hb c).value _)
        (fun {s c} => (hw'.run hL hb c).raised _) hadvance⟩,
        ha'.lawful_advance hw' (fun s c => (hw'.run hL hb c).lawful) hadvance⟩
  | turn _ ht he ih =>
      obtain ⟨-, hw'⟩ := ih
      obtain ⟨hw'', hin⟩ := hw'.takesUp hL hb ht
      exact hw''.enter hb hin he
  | resume _ _ ih =>
      obtain ⟨⟨_, _, ha'⟩, -⟩ := ih
      exact ha'.elim

/-- **A property of the shared state that all code keeps holds at every moment of it.** -/
theorem Visits.shared {a : Action β σ γ} {rest : Rest β σ γ α} {a' : Action β σ α}
    (hb : bodies.Upholds (.effects S fun _ _ => True)) (ha : a.Heeds S fun _ _ => True) (hw : S w.shared)
    (h : Visits bodies a fuel w rest a' depth w') : S w'.shared :=
  lawful_effects_iff.mp (h.lawful Law.effects_closed hb ha (lawful_effects_iff.mpr hw)).2

/-- It holds after the code. -/
theorem shared_perform {a : Action β σ γ} (hb : bodies.Upholds (.effects S fun _ _ => True))
    (ha : a.Heeds S fun _ _ => True) (hw : S w.shared) : S (a.perform (runner bodies fuel) w).2.shared :=
  lawful_effects_iff.mp ((lawful_effects_iff.mpr hw).perform Law.effects_closed
    (fun _ c _ hw => hw.run Law.effects_closed hb c) ha).lawful

/-- **What is left to carry out at a moment makes coroutines of some kind only**, if the bodies of
coroutines do. -/
theorem Visits.heeds {a : Action β σ γ} {rest : Rest β σ γ α} {a' : Action β σ α}
    (hb : ∀ body frame input, (bodies.resume body frame input).Heeds (fun _ => True) P)
    (ha : a.Heeds (fun _ => True) P) (h : Visits bodies a fuel w rest a' depth w') :
    a'.Heeds (fun _ => True) P := by
  have henter {w w' : World β σ} {c : CoroutineRef} {input : Input} {frame : Frame}
      {body : Action β σ (Frame × Step)} (he : w.enter bodies c input = (.ok (frame, body), w')) :
      body.Heeds (fun _ => True) P := by
    obtain ⟨x, -, -, -, rfl, -⟩ := enter_eq_ok he
    exact hb x.body x.frame input
  induction h with
  | refl => exact ha
  | request _ hadvance ih =>
      exact ih.advance Law.effects_closed trivial (fun _ => trivial) (fun _ => trivial) hadvance
  | turn _ _ he _ => exact henter he
  | resume _ he _ => exact henter he

end World

end Coroutines
