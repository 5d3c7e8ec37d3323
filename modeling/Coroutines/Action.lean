import Coroutines.World

/-!
# Actions of bodies

What a body does during one resume, as a tree of requests to the world.  Bodies that leave other
coroutines alone, apart from running them and grouping them, make orderly actions
(`Action.Orderly`).
-/

namespace Coroutines

inductive Action (β σ α : Type) where
  | done (result : Except Abort α)
  | read (next : σ → Action β σ α)
  | modify (f : σ → σ) (next : Action β σ α)
  | identity (next : Nat → Action β σ α)
  | spawn (name : String) (body : β) (locals : Bindings Value) (next : CoroutineRef → Action β σ α)
  /-- Groups coroutines, inside a run of the scheduler only. -/
  | joinAll (scheduler : Nat) (members : List CoroutineRef) (returnExceptions : Bool)
      (next : Except Record GroupRef → Action β σ α)
  /-- Runs a coroutine to its end. -/
  | run (scheduler : Nat) (c : CoroutineRef) (next : Except Record Value → Action β σ α)
  | resume (c : CoroutineRef) (input : Input) (next : Except Record Step → Action β σ α)
  | claim (c : CoroutineRef) (task : Nat) (next : Option Failure → Action β σ α)
  | release (c : CoroutineRef) (next : Action β σ α)

namespace Action

variable {β σ α γ : Type}

def bind : Action β σ α → (α → Action β σ γ) → Action β σ γ
  | .done (.ok a), k => k a
  | .done (.error e), _ => .done (.error e)
  | .read next, k => .read fun s => (next s).bind k
  | .modify f next, k => .modify f (next.bind k)
  | .identity next, k => .identity fun n => (next n).bind k
  | .spawn name body locals next, k => .spawn name body locals fun c => (next c).bind k
  | .joinAll s members re next, k => .joinAll s members re fun r => (next r).bind k
  | .run s c next, k => .run s c fun r => (next r).bind k
  | .resume c input next, k => .resume c input fun r => (next r).bind k
  | .claim c task next, k => .claim c task fun r => (next r).bind k
  | .release c next, k => .release c (next.bind k)

/-- Goes on after an exception of the script. -/
def catchScript : Action β σ α → (Record → Action β σ α) → Action β σ α
  | .done (.error (.script r)), handler => handler r
  | .done result, _ => .done result
  | .read next, handler => .read fun s => (next s).catchScript handler
  | .modify f next, handler => .modify f (next.catchScript handler)
  | .identity next, handler => .identity fun n => (next n).catchScript handler
  | .spawn name body locals next, handler =>
    .spawn name body locals fun c => (next c).catchScript handler
  | .joinAll s members re next, handler =>
    .joinAll s members re fun r => (next r).catchScript handler
  | .run s c next, handler => .run s c fun r => (next r).catchScript handler
  | .resume c input next, handler => .resume c input fun r => (next r).catchScript handler
  | .claim c task next, handler => .claim c task fun r => (next r).catchScript handler
  | .release c next, handler => .release c (next.catchScript handler)

instance : Monad (Action β σ) where
  pure a := .done (.ok a)
  bind := Action.bind

def abort (e : Abort) : Action β σ α := .done (.error e)

def raise (r : Record) : Action β σ α := .done (.error (.script r))

def ofExcept (result : Except Abort α) : Action β σ α := .done result

/-- An outcome, or the exception in its place. -/
def ofOutcome : Except Record α → Action β σ α
  | .ok a => .done (.ok a)
  | .error r => raise r

@[simp] theorem pure_bind (a : α) (k : α → Action β σ γ) : (Action.done (.ok a)).bind k = k a := rfl

theorem bind_pure (x : Action β σ α) : x.bind (fun a => .done (.ok a)) = x := by
  induction x with
  | done result => cases result <;> rfl
  | modify f next ih => simp only [bind, ih]
  | release c next ih => simp only [bind, ih]
  | _ => simp only [bind, *]

theorem bind_assoc {δ : Type} (x : Action β σ α) (f : α → Action β σ γ) (g : γ → Action β σ δ) :
    (x.bind f).bind g = x.bind fun a => (f a).bind g := by
  induction x with
  | done result => cases result <;> rfl
  | modify h next ih => simp only [bind, ih]
  | release c next ih => simp only [bind, ih]
  | _ => simp only [bind, *]

/-- The action touches coroutines by running and grouping them only, and ends with a value or an
exception of the script, if it ends. -/
def Orderly : Action β σ α → Prop
  | .done (.ok _) => True
  | .done (.error (.script _)) => True
  | .done (.error .outOfFuel) => True
  | .done (.error _) => False
  | .read next => ∀ s, (next s).Orderly
  | .modify _ next => next.Orderly
  | .identity next => ∀ n, (next n).Orderly
  | .spawn _ _ _ next => ∀ c, (next c).Orderly
  | .joinAll _ _ _ next => ∀ r, (next r).Orderly
  | .run _ _ next => ∀ r, (next r).Orderly
  | .resume _ _ _ => False
  | .claim _ _ _ => False
  | .release _ _ => False

end Action

/-- What the bodies of coroutines do, for bodies described by a `β` that share a `σ`. -/
structure Bodies (β σ : Type) where
  /-- Continues a body from its saved frame up to its next step. -/
  resume : β → Frame → Input → Action β σ (Frame × Step)
  /-- Whether a body forgets what it awaited as soon as it takes up the result. -/
  forgets : β → Bool

/-- All bodies make orderly actions. -/
def Bodies.Orderly {β σ : Type} (bodies : Bodies β σ) : Prop :=
  ∀ body frame input, (bodies.resume body frame input).Orderly

end Coroutines
