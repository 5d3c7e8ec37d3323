import Coroutines.Proofs.Checked.Values
import Coroutines.Proofs.Budget.Blind

/-!
# Simulations of script work

Script work that makes and runs no coroutine depends on the shared state and on the next identity only
(`Action.exec`).  A simulation relates such work to other work that ends in the same way, up to what
the frames of an exception say besides the scopes that they belong to; it is closed under everything
that scripts are composed of.
-/

namespace Coroutines

/-! ### Ends that are the same -/

/-- Exceptions with one failure that passed the same scopes. -/
structure Record.Same (r r' : Record) : Prop where
  failure : r.failure = r'.failure
  scopes : (r.frames.map fun f => f.site.name) = r'.frames.map fun f => f.site.name

theorem Record.Same.refl (r : Record) : r.Same r := ⟨rfl, rfl⟩

theorem Record.Same.symm {r r' : Record} (h : r.Same r') : r'.Same r :=
  ⟨h.failure.symm, h.scopes.symm⟩

theorem Record.Same.trans {r r' r'' : Record} (h : r.Same r') (h' : r'.Same r'') : r.Same r'' :=
  ⟨h.failure.trans h'.failure, h.scopes.trans h'.scopes⟩

/-- Exceptions stay the same when both pass one more frame of the same scope. -/
theorem Record.Same.within {r r' : Record} (h : r.Same r') {frame frame' : CallFrame}
    (hf : frame.site.name = frame'.site.name) : (r.within frame).Same (r'.within frame') :=
  ⟨h.failure, by simp only [frames_within, List.map_cons, hf, h.scopes]⟩

inductive Abort.Same : Abort → Abort → Prop
  | script {r r' : Record} (h : r.Same r') : Same (.script r) (.script r')
  | refl (e : Abort) : Same e e

theorem Abort.Same.symm {e e' : Abort} (h : e.Same e') : e'.Same e := by
  cases h with
  | script h => exact .script h.symm
  | refl e => exact .refl e

/-- The same value, or exceptions that are the same. -/
inductive SameEnd {α : Type} : Except Abort α → Except Abort α → Prop
  | ok (a : α) : SameEnd (.ok a) (.ok a)
  | error {e e' : Abort} (h : e.Same e') : SameEnd (.error e) (.error e')

namespace SameEnd

variable {α γ : Type} {x x' x'' : Except Abort α}

theorem refl : ∀ x : Except Abort α, SameEnd x x
  | .ok a => .ok a
  | .error e => .error (.refl e)

theorem symm (h : SameEnd x x') : SameEnd x' x := by
  cases h with
  | ok a => exact .ok a
  | error h => exact .error h.symm

end SameEnd

/-- How work ends within one more frame. -/
def passed {α : Type} (frame : CallFrame) : Except Abort α → Except Abort α
  | .error (.script r) => .error (.script (r.within frame))
  | x => x

section

variable {α : Type} {frame frame' : CallFrame} {x x' : Except Abort α}

theorem SameEnd.passed (h : SameEnd x x') (hf : frame.site.name = frame'.site.name) :
    SameEnd (passed frame x) (passed frame' x') := by
  cases h with
  | ok a => exact .ok a
  | @error e _ h =>
      cases h with
      | script h => exact .error (.script (h.within hf))
      | refl =>
          cases e with
          | script r => exact .error (.script ((Record.Same.refl r).within hf))
          | _ => exact .refl _

theorem passed_eq_ok {a : α} : passed frame x = .ok a ↔ x = .ok a := by
  rcases x with (r | _ | _ | _ | _) | b <;> simp [passed]

theorem passed_eq_outOfFuel : passed frame x = .error .outOfFuel ↔ x = .error .outOfFuel := by
  rcases x with (r | _ | _ | _ | _) | b <;> simp [passed]

end

/-! ### Work on the shared state -/

namespace World

variable {β σ : Type}

/-- What work without coroutines depends on. -/
def store (w : World β σ) : σ × Nat := (w.shared, w.nextIdentity)

def restore (w : World β σ) (st : σ × Nat) : World β σ :=
  { w with shared := st.1, nextIdentity := st.2 }

@[simp] theorem store_restore (w : World β σ) (st : σ × Nat) : (w.restore st).store = st := rfl

@[simp] theorem restore_store (w : World β σ) : w.restore w.store = w := rfl

@[simp] theorem restore_restore (w : World β σ) (st st' : σ × Nat) :
    (w.restore st).restore st' = w.restore st' := rfl

end World

namespace Action

variable {β σ α γ : Type}

/-- Carries out work that leaves coroutines alone; work that does not has no result. -/
def exec : Action β σ α → σ × Nat → Option (Except Abort α × σ × Nat)
  | .done result, st => some (result, st)
  | .read next, st => (next st.1).exec st
  | .modify f next, st => next.exec (f st.1, st.2)
  | .identity next, st => (next st.2).exec (st.1, st.2 + 1)
  | _, _ => none

section

variable {a : Action β σ α} {k : α → Action β σ γ} {st st' : σ × Nat}

theorem exec_bind {r : Except Abort α} (h : a.exec st = some (r, st')) :
    (a.bind k).exec st = ((Action.done r).bind k).exec st' := by
  induction a generalizing st with
  | done result =>
      cases h
      rfl
  | read next ih => exact ih _ h
  | modify f next ih => exact ih h
  | identity next ih => exact ih _ h
  | _ => cases h

theorem exec_bind_ok {x : α} (h : a.exec st = some (.ok x, st')) :
    (a.bind k).exec st = (k x).exec st' := exec_bind h

theorem exec_bind_error {e : Abort} (h : a.exec st = some (.error e, st')) :
    (a.bind k).exec st = some (.error e, st') := exec_bind h

theorem exec_catchScript {handler : Record → Action β σ α} {r : Except Abort α}
    (h : a.exec st = some (r, st')) :
    (a.catchScript handler).exec st = ((Action.done r).catchScript handler).exec st' := by
  induction a generalizing st with
  | done result =>
      cases h
      rfl
  | read next ih => exact ih _ h
  | modify f next ih => exact ih h
  | identity next ih => exact ih _ h
  | _ => cases h

/-- Work without coroutines changes nothing else of a world. -/
theorem perform_of_exec {runner : Runner β σ} {w : World β σ} {r : Except Abort α}
    (h : a.exec w.store = some (r, st')) : a.perform runner w = (r, w.restore st') := by
  induction a generalizing w with
  | done result =>
      cases h
      rfl
  | read next ih => exact ih _ h
  | modify f next ih => exact ih (w := { w with shared := f w.shared }) h
  | identity next ih => exact ih _ (w := w.identity.2) h
  | _ => cases h

end

/-- A handler of exceptions leaves errors of the host alone. -/
theorem catchScript_host {e : Abort} (h : ∀ r, e ≠ .script r) (handler : Record → Action β σ α) :
    (Action.done (.error e)).catchScript handler = .done (.error e) := by
  cases e with
  | script r => exact (h r rfl).elim
  | _ => rfl

theorem splitScript_ne {x : Except Abort α} {e : Abort} (h : splitScript x = .error e) :
    ∀ r, e ≠ .script r := by
  rcases x with (r | _ | _ | _ | _) | a <;> cases h <;> exact nofun

/-- Work that passes its exceptions on within a frame. -/
theorem catchScript_done (frame : CallFrame) (x : Except Abort α) :
    ((Action.done x).catchScript fun r => .raise (r.within frame) : Action β σ α) =
      .done (passed frame x) := by
  rcases x with (r | _ | _ | _ | _) | a <;> rfl

theorem exec_passed {a : Action β σ α} {st st' : σ × Nat} {r : Except Abort α}
    (h : a.exec st = some (r, st')) (frame : CallFrame) :
    (a.catchScript fun r => .raise (r.within frame)).exec st = some (passed frame r, st') := by
  rw [exec_catchScript h, catchScript_done]
  rfl

section

variable (runner : Runner β σ)

theorem perform_bind (a : Action β σ α) (k : α → Action β σ γ) (w : World β σ) :
    (a.bind k).perform runner w =
      World.andThen (fun x w => (k x).perform runner w) (a.perform runner w) := by
  induction a generalizing w with
  | done result => cases result <;> rfl
  | read next ih => exact ih _ w
  | modify f next ih => exact ih _
  | identity next ih => exact ih _ _
  | spawn name body locals next ih => exact ih _ _
  | joinAll s members re next ih =>
      simp only [bind, perform]
      split
      · exact ih _ _
      · exact ih _ _
  | run s c next ih =>
      simp only [bind, perform]
      split
      · exact ih _ _
      · rfl
  | resume c input next ih =>
      simp only [bind, perform]
      split
      · exact ih _ _
      · rfl
  | claim c task next ih => exact ih _ _
  | release c next ih => exact ih _

/-- The ends that a handler of exceptions leaves alone. -/
theorem perform_catchScript (a : Action β σ α) (handler : Record → Action β σ α) (w : World β σ) :
    (a.catchScript handler).perform runner w =
      ((Action.done (a.perform runner w).1).catchScript handler).perform runner
        (a.perform runner w).2 := by
  induction a generalizing w with
  | done result => rfl
  | read next ih => exact ih _ w
  | modify f next ih => exact ih _
  | identity next ih => exact ih _ _
  | spawn name body locals next ih => exact ih _ _
  | joinAll s members re next ih =>
      simp only [catchScript, perform]
      split
      · exact ih _ _
      · exact ih _ _
  | run s c next ih =>
      simp only [catchScript, perform]
      cases e : splitScript (runner.run s c w).1 with
      | ok r => exact ih _ _
      | error e' => rw [catchScript_host (splitScript_ne e)]; rfl
  | resume c input next ih =>
      simp only [catchScript, perform]
      cases e : splitScript (runner.resume c input w).1 with
      | ok r => exact ih _ _
      | error e' => rw [catchScript_host (splitScript_ne e)]; rfl
  | claim c task next ih => exact ih _ _
  | release c next ih => exact ih _

/-- A run that hands on its outcome ends with it. -/
theorem perform_run (s : Nat) (c : CoroutineRef) (w : World β σ) :
    (Action.run s c fun r => .ofOutcome r : Action β σ Value).perform runner w = runner.run s c w := by
  rcases hp : runner.run s c w with ⟨(r | _ | _ | _ | _) | v, w'⟩ <;>
    simp only [perform, hp] <;> rfl

theorem perform_passed (a : Action β σ α) (frame : CallFrame) (w : World β σ) :
    (a.catchScript fun r => .raise (r.within frame)).perform runner w =
      (passed frame (a.perform runner w).1, (a.perform runner w).2) := by
  rw [perform_catchScript, catchScript_done]
  rfl

end

end Action

/-! ### Simulations -/

/-- A relation between pieces of script work, for every property that their values are to have. -/
abbrev ScriptRelation := ∀ α : Type, (α → Prop) → Script α → Script α → Prop

/-- A relation that is closed under what scripts are composed of, in states with a property. -/
structure Simulation (ok : Globals → Prop) (rel : ScriptRelation) : Prop where
  value {α : Type} {post : α → Prop} {x : α} (h : post x) : rel α post (.done (.ok x)) (.done (.ok x))
  error {α : Type} {post : α → Prop} {e e' : Abort} (h : e.Same e') :
    rel α post (.done (.error e)) (.done (.error e'))
  bind {α γ : Type} {post : α → Prop} {post' : γ → Prop} {a a' : Script α} {k k' : α → Script γ}
    (h : rel α post a a') (hk : ∀ x, post x → rel γ post' (k x) (k' x)) :
    rel γ post' (a.bind k) (a'.bind k')
  read {α : Type} {post : α → Prop} {next next' : Globals → Script α}
    (h : ∀ g, ok g → rel α post (next g) (next' g)) : rel α post (.read next) (.read next')
  modify {α : Type} {post : α → Prop} {f : Globals → Globals} {next next' : Script α}
    (hf : ∀ g, ok g → ok (f g)) (h : rel α post next next') :
    rel α post (.modify f next) (.modify f next')
  identity {α : Type} {post : α → Prop} {next next' : Nat → Script α}
    (h : ∀ n, rel α post (next n) (next' n)) : rel α post (.identity next) (.identity next')
  passed {α : Type} {post : α → Prop} {a a' : Script α} (frame frame' : CallFrame)
    (hf : frame.site.name = frame'.site.name) (h : rel α post a a') :
    rel α post (a.catchScript fun r => .raise (r.within frame))
      (a'.catchScript fun r => .raise (r.within frame'))

/-- Work without coroutines that ends in the same way and in the same state as other work, unless it
ends at the bounds of the host. -/
def Mirrored (ok : Globals → Prop) : ScriptRelation := fun α post a a' => ∀ st, ok st.1 →
  ∃ r st', a.exec st = some (r, st') ∧ ok st'.1 ∧ (∀ x : α, r = .ok x → post x) ∧
    (r ≠ .error .outOfFuel → ∃ r', a'.exec st = some (r', st') ∧ SameEnd r r')

/-- An action that is mirrored at every depth from some on comes to one end, and so do the actions that
mirror it. -/
theorem Mirrored.common {ok : Globals → Prop} {α : Type} {post : α → Prop} {a : Script α}
    {x : Nat → Script α} {d : Nat} {st : Globals × Nat}
    (h : ∀ depth, d ≤ depth → Mirrored ok α post a (x depth)) (hst : ok st.1) :
    ∃ r st', a.exec st = some (r, st') ∧ ok st'.1 ∧ (∀ v, r = .ok v → post v) ∧
      (r ≠ .error .outOfFuel → ∀ depth, d ≤ depth →
        ∃ r', (x depth).exec st = some (r', st') ∧ SameEnd r r') := by
  obtain ⟨r, st', hexec, hst', hpost, -⟩ := h d (Nat.le_refl d) st hst
  refine ⟨r, st', hexec, hst', hpost, fun hne depth hd => ?_⟩
  obtain ⟨r₂, st₂, hexec₂, -, -, hsame⟩ := h depth hd st hst
  obtain ⟨rfl, rfl⟩ := Prod.mk.inj (Option.some.inj (hexec.symm.trans hexec₂))
  exact hsame hne

theorem Mirrored.simulation (ok : Globals → Prop) : Simulation ok (Mirrored ok) where
  value {α post x} h st hst :=
    ⟨.ok x, st, rfl, hst, fun y e => by cases e; exact h, fun _ => ⟨.ok x, rfl, .ok x⟩⟩
  error {α post e e'} h st hst := ⟨.error e, st, rfl, hst, nofun, fun _ => ⟨.error e', rfl, .error h⟩⟩
  bind {α γ post post' a a' k k'} h hk st hst := by
    obtain ⟨r, st₁, he, hok, hpost, hsame⟩ := h st hst
    cases r with
    | error e =>
        refine ⟨.error e, st₁, Action.exec_bind_error he, hok, nofun, fun hne => ?_⟩
        obtain ⟨r', he', hs⟩ := hsame (by simpa using hne)
        cases hs with
        | error hs => exact ⟨_, Action.exec_bind_error he', .error hs⟩
    | ok x =>
        obtain ⟨r', he', hs⟩ := hsame nofun
        cases hs
        rw [Action.exec_bind_ok he, Action.exec_bind_ok he']
        exact hk x (hpost x rfl) st₁ hok
  read h st hst := h st.1 hst st hst
  modify hf h st hst := h _ (hf st.1 hst)
  identity h st hst := h _ (st.1, st.2 + 1) hst
  passed {α post a a'} frame frame' hf h st hst := by
    obtain ⟨r, st₁, he, hok, hpost, hsame⟩ := h st hst
    refine ⟨_, st₁, Action.exec_passed he frame, hok, fun x e => hpost x (passed_eq_ok.mp e),
      fun hne => ?_⟩
    obtain ⟨r', he', hs⟩ := hsame fun e => hne (passed_eq_outOfFuel.mpr e)
    exact ⟨_, Action.exec_passed he' frame', hs.passed hf⟩

end Coroutines
