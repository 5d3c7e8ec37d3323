import Coroutines.Proofs.Moments
import Coroutines.Proofs.Renumbering.Resumes

/-!
# What is pending in renumbered worlds

The bodies and runs that are pending at a moment go on in the same way in a world and in the renumbered
one: they come to the same result and resume the same coroutines with the same inputs
(`Rest.finish_corresponds`).
-/

namespace Coroutines

variable {β σ α γ : Type}

namespace Rest

variable {r : Renumbering} {num : Nat → Nat} {n : Nat}

/-- What follows a result, if there is one. -/
def ifOk (k : α → World β σ → List (CoroutineRef × Input)) :
    Except Abort α × World β σ → List (CoroutineRef × Input)
  | (.ok a, w) => k a w
  | (.error _, _) => []

/-- The resumes while what is pending goes on. -/
def resumes (bodies : Bodies β σ) : {α : Type} → Rest β σ γ α → (depth : Nat) →
    Except Abort α × World β σ → List (CoroutineRef × Input)
  | _, .done, _, _ => []
  | _, .turn s t top frame rest, depth, x =>
    rest.resumes bodies (depth + 1)
      (World.andThen (fun step w => w.absorb s t top step) (x.2.leave top frame x.1))
  | _, .loop s root turns c next rest, depth, x =>
    let ended := World.endOfRun s root c
      (World.andThen (fun _ w => World.drain (World.resume bodies depth) s turns w) x)
    let asked := (splitScript ended.1, ended.2)
    ifOk (fun _ w => w.resumesOfLoop (World.resume bodies depth) (World.resumesOf bodies depth) s turns) x ++
      ifOk (fun r w => (next r).resumes (World.runner bodies depth) (World.journal bodies depth) w) asked ++
      rest.resumes bodies depth
        (World.andThen (fun r w => (next r).perform (World.runner bodies depth) w) asked)
  | _, .resume c frame next rest, depth, x =>
    let left := x.2.leave c frame x.1
    let asked := (splitScript left.1, left.2)
    ifOk (fun r w => (next r).resumes (World.runner bodies (depth + 1))
        (World.journal bodies (depth + 1)) w) asked ++
      rest.resumes bodies (depth + 1)
        (World.andThen (fun r w => (next r).perform (World.runner bodies (depth + 1)) w) asked)

/-- What is pending stands in both worlds: the rows and the numbers of its tasks are the same. -/
structure Anchored (r : Renumbering) (num : Nat → Nat) (n : Nat) (rest : Rest β σ γ α) : Prop where
  fits : rest.Fits n
  row : ∀ t < n, r.row t = t
  number : ∀ t < n, num t = 0
  shift : ∀ s ∈ rest.schedulers, r.shift s = 0

theorem ifOk_eq {k : α → World β σ → List (CoroutineRef × Input)} {x y : Except Abort α × World β σ}
    (h : World.Corresponds r num n x y)
    (hk : ∀ a {num' : Nat → Nat}, x.2.Renumbered r num' y.2 → k a y.2 = k a x.2) :
    ifOk k y = ifOk k x := by
  obtain ⟨he, -, num', -, hr⟩ := h
  rcases x with ⟨e | a, w⟩ <;> rcases y with ⟨e' | a', v⟩ <;> cases he
  · rfl
  · exact hk a hr

theorem close_corresponds {x y : Except Abort Unit × World β σ} {s root : Nat} (c : CoroutineRef)
    (h : World.Corresponds r num n x y) (hroot : r.row root = root) :
    World.Corresponds r num n (World.endOfRun s root c x) (World.endOfRun s root c y) := by
  have hended := h.andThen (k := fun _ w => w.conclude s root c) (l := fun _ w => w.conclude s root c)
    fun _ num' _ hr => by simpa only [hroot] using hr.conclude s root c
  exact hended.bind (k := fun result w => (result, (w.release c).deactivate s))
    (l := fun result w => (result, (w.release c).deactivate s))
    fun _ _ hr => .of_renumbered ((hr.release c).deactivate s) rfl le_rfl

theorem split_corresponds {x y : Except Abort α × World β σ} (h : World.Corresponds r num n x y) :
    World.Corresponds r num n (splitScript x.1, x.2) (splitScript y.1, y.2) :=
  h.bind (k := fun a w => (splitScript a, w)) (l := fun a w => (splitScript a, w))
    fun _ _ hr => .of_renumbered hr rfl le_rfl

/-- What is asked for next comes to the same, with the same resumes. -/
theorem next_corresponds {δ : Type} (bodies : Bodies β σ) (depth : Nat) (next : δ → Action β σ α)
    {x y : Except Abort δ × World β σ} (h : World.Corresponds r num n x y) :
    World.Corresponds r num n
      (World.andThen (fun r w => (next r).perform (World.runner bodies depth) w) x)
      (World.andThen (fun r w => (next r).perform (World.runner bodies depth) w) y) ∧
    ifOk (fun r w => (next r).resumes (World.runner bodies depth) (World.journal bodies depth) w) y =
      ifOk (fun r w => (next r).resumes (World.runner bodies depth) (World.journal bodies depth) w) x :=
  ⟨h.andThen fun a _ _ hr => r.respects_perform bodies depth (next a) hr,
    ifOk_eq h fun a _ hr => hr.resumesOf_perform bodies depth (next a)⟩

/-- **What is pending goes on in the same way in renumbered worlds.** -/
theorem finish_corresponds (bodies : Bodies β σ) {rest : Rest β σ γ α} (hrest : rest.Anchored r num n)
    (depth : Nat) {x y : Except Abort α × World β σ} (h : World.Corresponds r num n x y) :
    World.Corresponds r num n (rest.finish bodies depth x) (rest.finish bodies depth y) ∧
      rest.resumes bodies depth y = rest.resumes bodies depth x := by
  induction rest generalizing depth with
  | done => exact ⟨h, rfl⟩
  | turn s t top frame rest ih =>
      obtain ⟨⟨ht, hs, hfits⟩, hrow, hnum, hshift⟩ := hrest
      have hleft := h.bind (k := fun a w => w.leave top frame a) (l := fun a w => w.leave top frame a)
        fun _ _ hr => hr.leave top frame x.1
      refine ih ⟨hfits, hrow, hnum, hshift⟩ (depth + 1) (hleft.andThen fun step num' hold hr => ?_)
      have habsorb := hr.absorb (ht.trans_le hleft.size)
        ((hold t ht).trans ((hnum t ht).trans (hshift s hs).symm)) top step
      rwa [hrow t ht] at habsorb
  | loop s root turns c next rest ih =>
      obtain ⟨⟨hroot, hfits⟩, hrow, hnum, hshift⟩ := hrest
      have hdrained := h.andThen
        (k := fun _ w => World.drain (World.resume bodies depth) s turns w)
        (l := fun _ w => World.drain (World.resume bodies depth) s turns w)
        fun _ _ _ hr => hr.drain (r.respects_resume bodies depth) s turns
      have hasked := split_corresponds (close_corresponds (s := s) c hdrained (hrow root hroot))
      obtain ⟨hnext, hresumes⟩ := next_corresponds bodies depth next hasked
      obtain ⟨hfinish, hpending⟩ := ih ⟨hfits, hrow, hnum, fun i hi => hshift i (List.mem_cons_of_mem _ hi)⟩
        depth hnext
      have hloop := ifOk_eq
        (k := fun _ w => w.resumesOfLoop (World.resume bodies depth) (World.resumesOf bodies depth) s turns) h
        fun _ _ hr => hr.resumesOfLoop (r.respects_resume bodies depth)
          (fun c input _ _ _ h => h.resumesOf bodies depth c input) s turns
      refine ⟨hfinish, ?_⟩
      simp only [Rest.resumes, hloop, hresumes, hpending]
  | resume c frame next rest ih =>
      have hleft := h.bind (k := fun a w => w.leave c frame a) (l := fun a w => w.leave c frame a)
        fun _ _ hr => hr.leave c frame x.1
      obtain ⟨hnext, hresumes⟩ := next_corresponds bodies (depth + 1) next (split_corresponds hleft)
      obtain ⟨hfinish, hpending⟩ := ih ⟨hrest.fits, hrest.row, hrest.number, hrest.shift⟩ (depth + 1) hnext
      refine ⟨hfinish, ?_⟩
      simp only [Rest.resumes, hresumes, hpending]

end Rest

end Coroutines
