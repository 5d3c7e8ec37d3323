import Coroutines.Proofs.Isolation.Resumes

/-!
# Actions that agree

Isolation is a matter of what bodies ask for.  Two actions agree (`Action.Agrees`) if they ask for the same things
however new coroutines, groups and identities are named on each side, whatever they write, and as long as what
shared data they read is constant.  Actions of bodies that each agree with itself leave alone whatever they did
not make (`Action.Stays`).
-/

namespace Coroutines

/-- Work ends with values that are related, or with the same error. -/
inductive Ends {ε α : Type} (post : α → α → Prop) : Except ε α → Except ε α → Prop
  | ok {a a' : α} (h : post a a') : Ends post (.ok a) (.ok a')
  | error (e : ε) : Ends post (.error e) (.error e)

/-- A frame and a step that agree, with the same exceptions. -/
def Halted (ρ : Names) (x x' : Frame × Step) : Prop := x.1.Alike Eq ρ x'.1 ∧ x.2.Alike Eq ρ x'.2

/-- Where actions are judged: the scheduler that is in a run, the shared data that is constant, the bodies that may
be made and when they agree. -/
structure Setting (β σ : Type) where
  scheduler : Nat
  constant : σ → Prop
  admits : β → Prop
  alike : Names → β → β → Prop
  mono : ∀ {ρ ρ' : Names} {b b' : β}, ρ ≤ ρ' → alike ρ b b' → alike ρ' b b'
  refl : ∀ {b : β}, admits b → alike .same b b

namespace Action

variable {β σ α γ : Type}

/-- Actions that go on alike however new things are named on each side, as long as what they read is constant.  A run
of the scheduler that is in a run is refused to both. -/
inductive Agrees (S : Setting β σ) (post : Names → α → α → Prop) : Names → Action β σ α → Action β σ α → Prop
  | done {ρ : Names} {r r' : Except Abort α} (h : Ends (post ρ) r r') : Agrees S post ρ (.done r) (.done r')
  | read {ρ : Names} {next next' : σ → Action β σ α}
      (h : ∀ x x', S.constant x → S.constant x' → Agrees S post ρ (next x) (next' x')) :
      Agrees S post ρ (.read next) (.read next')
  | modify {ρ : Names} {f f' : σ → σ} {next next' : Action β σ α} (hf : ∀ x, S.constant x → S.constant (f x))
      (hf' : ∀ x, S.constant x → S.constant (f' x)) (h : Agrees S post ρ next next') :
      Agrees S post ρ (.modify f next) (.modify f' next')
  | identity {ρ : Names} {next next' : Nat → Action β σ α}
      (h : ∀ ρ' i j, ρ ≤ ρ' → ρ'.OneToOne → ρ' .identity i j → Agrees S post ρ' (next i) (next' j)) :
      Agrees S post ρ (.identity next) (.identity next')
  | spawn {ρ : Names} {b b' : β} {locals locals' : Bindings Value} {next next' : CoroutineRef → Action β σ α}
      (name : String) (hb : S.admits b) (hbb : S.alike ρ b b') (hl : Bindings.Alike Eq ρ locals locals')
      (h : ∀ ρ' i j, ρ ≤ ρ' → ρ'.OneToOne → ρ' .coroutine i j →
        Agrees S post ρ' (next ⟨i, name⟩) (next' ⟨j, name⟩)) :
      Agrees S post ρ (.spawn name b locals next) (.spawn name b' locals' next')
  | joinAll {ρ : Names} {members members' : List CoroutineRef} {next next' : Except Record GroupRef → Action β σ α}
      (s : Nat) (re : Bool) (hm : List.Forall₂ (CoroutineRef.Alike ρ) members members')
      (h : ∀ ρ' i j, ρ ≤ ρ' → ρ'.OneToOne → ρ' .group i j →
        Agrees S post ρ' (next (.ok ⟨i, members.length⟩)) (next' (.ok ⟨j, members'.length⟩)))
      (hr : Agrees S post ρ (next (.error (.ofFailure .noRunningLoop)))
        (next' (.error (.ofFailure .noRunningLoop)))) :
      Agrees S post ρ (.joinAll s members re next) (.joinAll s members' re next')
  | run {ρ : Names} (c c' : CoroutineRef) {next next' : Except Record Value → Action β σ α}
      (h : Agrees S post ρ (next (.error (.ofFailure .nestedRun))) (next' (.error (.ofFailure .nestedRun)))) :
      Agrees S post ρ (.run S.scheduler c next) (.run S.scheduler c' next')

variable {S : Setting β σ} {post : Names → α → α → Prop} {post' : Names → γ → γ → Prop} {ρ : Names}
  {a a' : Action β σ α}

theorem Agrees.pure {x x' : α} (h : post ρ x x') : Agrees S post ρ (.done (.ok x)) (.done (.ok x')) := .done (.ok h)

theorem Agrees.abort (e : Abort) : Agrees S post ρ (.abort e) (.abort e) := .done (.error e)

/-- Actions that agree, and then go on with results that agree, agree. -/
theorem Agrees.bind {k k' : α → Action β σ γ} (h : Agrees S post ρ a a') (hρ : ρ.OneToOne)
    (hk : ∀ ρ', ρ ≤ ρ' → ρ'.OneToOne → ∀ x x', post ρ' x x' → Agrees S post' ρ' (k x) (k' x')) :
    Agrees S post' ρ (a.bind k) (a'.bind k') := by
  induction h with
  | @done ρ r r' h =>
      cases h with
      | ok h => exact hk ρ (le_refl ρ) hρ _ _ h
      | error e => exact .done (.error e)
  | read h ih => exact .read fun x x' hx hx' => ih x x' hx hx' hρ hk
  | modify hf hf' h ih => exact .modify hf hf' (ih hρ hk)
  | identity h ih =>
      exact .identity fun ρ' i j hle hone hij =>
        ih ρ' i j hle hone hij hone fun ρ'' hle' => hk ρ'' (hle.trans hle')
  | spawn name hb hbb hl h ih =>
      exact .spawn name hb hbb hl fun ρ' i j hle hone hij =>
        ih ρ' i j hle hone hij hone fun ρ'' hle' => hk ρ'' (hle.trans hle')
  | joinAll s re hm h hr ih ihr =>
      exact .joinAll s re hm (fun ρ' i j hle hone hij =>
        ih ρ' i j hle hone hij hone fun ρ'' hle' => hk ρ'' (hle.trans hle')) (ihr hρ hk)
  | run c c' h ih => exact .run c c' (ih hρ hk)

/-- Exceptions are the same on both sides, so that handlers get the same. -/
theorem Agrees.catchScript {handler handler' : Record → Action β σ α} (h : Agrees S post ρ a a')
    (hh : ∀ ρ', ρ ≤ ρ' → ∀ r, Agrees S post ρ' (handler r) (handler' r)) :
    Agrees S post ρ (a.catchScript handler) (a'.catchScript handler') := by
  induction h with
  | @done ρ r r' h =>
      cases h with
      | ok h => exact .done (.ok h)
      | error e =>
          cases e with
          | script r => exact hh ρ (le_refl ρ) r
          | _ => exact .done (.error _)
  | read h ih => exact .read fun x x' hx hx' => ih x x' hx hx' hh
  | modify hf hf' h ih => exact .modify hf hf' (ih hh)
  | identity h ih =>
      exact .identity fun ρ' i j hle hone hij =>
        ih ρ' i j hle hone hij fun ρ'' hle' => hh ρ'' (hle.trans hle')
  | spawn name hb hbb hl h ih =>
      exact .spawn name hb hbb hl fun ρ' i j hle hone hij =>
        ih ρ' i j hle hone hij fun ρ'' hle' => hh ρ'' (hle.trans hle')
  | joinAll s re hm h hr ih ihr =>
      exact .joinAll s re hm (fun ρ' i j hle hone hij =>
        ih ρ' i j hle hone hij fun ρ'' hle' => hh ρ'' (hle.trans hle')) (ihr hh)
  | run c c' h ih => exact .run c c' (ih hh)

/-! ### What an action leaves alone -/

/-- The action asks for new things and reads, keeps constant what is to be so, and makes admitted bodies only. -/
def Stays (S : Setting β σ) : Action β σ α → Prop
  | .done _ => True
  | .read next => ∀ x, S.constant x → (next x).Stays S
  | .modify f next => (∀ x, S.constant x → S.constant (f x)) ∧ next.Stays S
  | .identity next => ∀ n, (next n).Stays S
  | .spawn name b _ next => S.admits b ∧ ∀ i, (next ⟨i, name⟩).Stays S
  | .joinAll _ members _ next =>
    (∀ i, (next (.ok ⟨i, members.length⟩)).Stays S) ∧ (next (.error (.ofFailure .noRunningLoop))).Stays S
  | .run s _ next => s = S.scheduler ∧ (next (.error (.ofFailure .nestedRun))).Stays S
  | _ => False

/-- What an action agrees with under the same names bears it out. -/
theorem Agrees.stays (h : Agrees S post .same a a') : a.Stays S := by
  generalize hρ : Names.same = ρ at h
  induction h with
  | done => trivial
  | read h ih => exact fun x hx => ih x x hx hx hρ
  | modify hf _ _ ih => exact ⟨hf, ih hρ⟩
  | identity h ih =>
      subst hρ
      exact fun n => ih .same n n (le_refl _) Names.same_oneToOne rfl rfl
  | spawn name hb _ _ h ih =>
      subst hρ
      exact ⟨hb, fun i => ih .same i i (le_refl _) Names.same_oneToOne rfl rfl⟩
  | joinAll s re _ h hr ih ihr =>
      subst hρ
      exact ⟨fun i => ih .same i i (le_refl _) Names.same_oneToOne rfl rfl, ihr rfl⟩
  | run c c' h ih => exact ⟨rfl, ih hρ⟩

end Action

end Coroutines
