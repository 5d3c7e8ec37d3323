import Coroutines.Proofs.Isolation.Resumes

/-!
# Driving coroutines one after another

The evaluation that knows no queue (`World.drive`): a coroutine that is awaited is driven to its
end at once, and the members of a group one after another, in the order of the group.  A target is
claimed before it is driven, so that no coroutine and no group is driven twice.

An evaluation that comes to an end is spelled out in `Continues`, `Absorbs` and `Gathers`, which
count its resumes.
-/

namespace Coroutines

/-- The values of a group whose members had these outcomes, in order, or the first failure; where
exceptions are returned, a failure becomes a value, with the next identity. -/
def combine (returnExceptions : Bool) :
    List Outcome → (identity : Nat) → Except Record (List Value) × Nat
  | [], n => (.ok [], n)
  | .ok v :: rest, n =>
    let (more, n) := combine returnExceptions rest n
    (more.map (v :: ·), n)
  | .error r :: rest, n =>
    if returnExceptions then
      let (more, n') := combine returnExceptions rest (n + 1)
      (more.map (.exception n r :: ·), n')
    else (.error r, n)

namespace World

variable {β σ : Type}

/-- How a coroutine is driven: the outcome that it comes to, and the world then. -/
abbrev Drive (β σ : Type) :=
  CoroutineRef → Input → World β σ → Option (Outcome × World β σ)

/-- Claims a coroutine and drives it from its start. -/
def driveFresh (drive : Drive β σ) (c : CoroutineRef) (w : World β σ) :
    Option (Outcome × World β σ) :=
  match w.claim c 0 with
  | (none, w) => drive c .start w
  | (some _, _) => none

/-- Drives coroutines one after another, each to its end. -/
def driveMembers (drive : Drive β σ) :
    List CoroutineRef → World β σ → Option (List Outcome × World β σ)
  | [], w => some ([], w)
  | c :: rest, w =>
    match w.driveFresh drive c with
    | none => none
    | some (o, w) => (w.driveMembers drive rest).map fun (os, w) => (o :: os, w)

/-- Drives what a coroutine awaits; a group's outcome is combined from its members' outcomes. -/
def driveTarget (drive : Drive β σ) (w : World β σ) : Target → Option (Outcome × World β σ)
  | .coroutine c => w.driveFresh drive c
  | .group g =>
    match w.groups.get? g.id with
    | none => none
    | some x =>
      if x.awaitedBy.isSome then none
      else
        (driveMembers drive x.handles
          (w.modifyGroup g fun x => { x with awaitedBy := some 0 })).map fun (os, w) =>
            let (values, n) := combine x.returnExceptions os w.nextIdentity
            (values.map .list, { w with nextIdentity := n })

/-- Drives a coroutine to its end, in at most `fuel` resumes of its own. -/
def drive (bodies : Bodies β σ) : (fuel : Nat) → Drive β σ
  | 0, _, _, _ => none
  | fuel + 1, c, input, w =>
    match World.resume bodies (fuel + 1) c input w with
    | (.ok (.ret v), w) => some (.ok v, w)
    | (.ok (.raise r), w) => some (.error r, w)
    | (.ok (.await target), w) =>
      match w.driveTarget (drive bodies fuel) target with
      | none => none
      | some (o, w) => drive bodies fuel c o.input w
    | (.error _, _) => none

/-- The outcome of a coroutine that is driven in place of a run. -/
def sequential (bodies : Bodies β σ) (fuel s : Nat) (c : CoroutineRef) (w : World β σ) :
    Option Outcome :=
  match w.start s c with
  | (.ok _, w) => (w.drive bodies fuel c .start).map Prod.fst
  | (.error _, _) => none

/-! ### The evaluation spelled out -/

section

variable {bodies : Bodies β σ} {s : Nat} {constant : σ → Prop}

mutual

/-- The coroutines of a chain are driven to the end of the last: the first takes an input, each other
the outcome of the one before it.  The last number bounds the resumes, and the nesting of runs in each. -/
inductive Continues (iso : Isolation bodies s constant) :
    World β σ → List CoroutineRef → Input → Outcome → World β σ → Nat → Prop
  | over {u : World β σ} {o : Outcome} : Continues iso u [] o.input o u 0
  | resume {u u' v : World β σ} {c : CoroutineRef} {chain : List CoroutineRef} {input : Input}
      {step : Step} {o : Outcome} {fuel n : Nat} (hu : u.Admitted iso)
      (hr : World.resume bodies (fuel + 1) c input u = (.ok step, u'))
      (hl : u.Leaves iso.admits constant c.id u') (h : Absorbs iso u' c chain step o v n) :
      Continues iso u (c :: chain) input o v (n + fuel + 1)

/-- A chain is driven on from the step that the resume of its first coroutine ended with. -/
inductive Absorbs (iso : Isolation bodies s constant) :
    World β σ → CoroutineRef → List CoroutineRef → Step → Outcome → World β σ → Nat → Prop
  | ret {u v : World β σ} {c : CoroutineRef} {chain : List CoroutineRef} {value : Value}
      {o : Outcome} {n : Nat} (h : Continues iso u chain (.value value) o v n) :
      Absorbs iso u c chain (.ret value) o v n
  | raise {u v : World β σ} {c : CoroutineRef} {chain : List CoroutineRef} {r : Record}
      {o : Outcome} {n : Nat} (h : Continues iso u chain (.throw r) o v n) :
      Absorbs iso u c chain (.raise r) o v n
  | await {u u' v : World β σ} {c d : CoroutineRef} {chain : List CoroutineRef} {o : Outcome}
      {n : Nat} (hc : u.claim d 0 = (none, u'))
      (h : Continues iso u' (d :: c :: chain) .start o v n) :
      Absorbs iso u c chain (.await (.coroutine d)) o v n
  | gather {u u' v : World β σ} {c : CoroutineRef} {g : GroupRef} {chain : List CoroutineRef}
      {x : Group} {os : List Outcome} {values : Except Record (List Value)} {o : Outcome}
      {identity m n : Nat} (hx : u.groups.get? g.id = some x) (ha : x.awaitedBy = none)
      (hm : Gathers iso (u.modifyGroup g fun x => { x with awaitedBy := some 0 }) x.handles os
        u' m)
      (hc : combine x.returnExceptions os u'.nextIdentity = (values, identity))
      (h : Continues iso { u' with nextIdentity := identity } (c :: chain)
        (Outcome.input (values.map .list)) o v n) :
      Absorbs iso u c chain (.await (.group g)) o v (m + n)

/-- Coroutines are driven one after another, from the start of each to its end. -/
inductive Gathers (iso : Isolation bodies s constant) :
    World β σ → List CoroutineRef → List Outcome → World β σ → Nat → Prop
  | nil {u : World β σ} : Gathers iso u [] [] u 0
  | cons {u u' u'' v : World β σ} {c : CoroutineRef} {rest : List CoroutineRef} {o : Outcome}
      {os : List Outcome} {m n : Nat} (hc : u.claim c 0 = (none, u'))
      (h : Continues iso u' [c] .start o u'' m) (hs : Gathers iso u'' rest os v n) :
      Gathers iso u (c :: rest) (o :: os) v (m + n)

end

end

variable {bodies : Bodies β σ} {s : Nat} {constant : σ → Prop} {iso : Isolation bodies s constant}
  {d : Drive β σ} {u v : World β σ} {c : CoroutineRef} {cs : List CoroutineRef} {o : Outcome}
  {os : List Outcome}

theorem driveFresh_eq_some (h : u.driveFresh d c = some (o, v)) :
    ∃ u', u.claim c 0 = (none, u') ∧ d c .start u' = some (o, v) := by
  unfold driveFresh at h
  split at h
  · next u' hc => exact ⟨u', hc, h⟩
  · cases h

/-! ### What a drive admits -/

theorem Admitted.claim (h : u.Admitted iso) {task : Nat} (hc : u.claim c task = (none, v)) : v.Admitted iso := by
  obtain ⟨x, -, -, -, rfl⟩ := claim_eq_none hc
  refine ⟨fun {i y} hy => ?_, h.shared, h.active⟩
  rw [get?_handles_modifyHandle] at hy
  split at hy
  · obtain ⟨z, hz, rfl⟩ := Option.map_eq_some_iff.mp hy
    exact show iso.admits z.body from h.handles hz
  · exact h.handles hy

theorem Admitted.modifyGroup (h : u.Admitted iso) (g : GroupRef) (f : Group → Group) :
    (u.modifyGroup g f).Admitted iso := ⟨h.handles, h.shared, h.active⟩

theorem Admitted.nextIdentity (h : u.Admitted iso) (n : Nat) :
    ({ u with nextIdentity := n } : World β σ).Admitted iso := ⟨h.handles, h.shared, h.active⟩

/-- Coroutines are admitted wherever a drive keeps them so. -/
abbrev DrivesAdmitted (iso : Isolation bodies s constant) (d : Drive β σ) : Prop :=
  ∀ ⦃c input u o v⦄, d c input u = some (o, v) → u.Admitted iso → v.Admitted iso

theorem Admitted.driveFresh (h : u.Admitted iso) (hd : DrivesAdmitted iso d)
    (he : u.driveFresh d c = some (o, v)) : v.Admitted iso := by
  obtain ⟨u', hc, hdrive⟩ := driveFresh_eq_some he
  exact hd hdrive (h.claim hc)

theorem Admitted.driveMembers (h : u.Admitted iso) (hd : DrivesAdmitted iso d)
    (he : u.driveMembers d cs = some (os, v)) : v.Admitted iso := by
  induction cs generalizing u os with
  | nil =>
      cases he
      exact h
  | cons c rest ih =>
      simp only [World.driveMembers] at he
      split at he
      · cases he
      · next hc =>
          obtain ⟨⟨os', v'⟩, hs, e⟩ := Option.map_eq_some_iff.mp he
          cases e
          exact ih (h.driveFresh hd hc) hs

theorem Admitted.driveTarget (h : u.Admitted iso) (hd : DrivesAdmitted iso d) {target : Target}
    (he : u.driveTarget d target = some (o, v)) : v.Admitted iso := by
  cases target with
  | coroutine c => exact h.driveFresh hd he
  | group g =>
      simp only [World.driveTarget] at he
      split at he
      · cases he
      · split at he
        · cases he
        · obtain ⟨⟨os, u'⟩, hs, e⟩ := Option.map_eq_some_iff.mp he
          cases e
          exact ((h.modifyGroup g _).driveMembers hd hs).nextIdentity _

/-- A resume that ends with a step, of a coroutine that is admitted. -/
theorem Admitted.leaves (h : u.Admitted iso) {fuel : Nat} {input : Input} {step : Step}
    (hr : World.resume bodies (fuel + 1) c input u = (.ok step, v)) : u.Leaves iso.admits constant c.id v := by
  obtain ⟨x, hx⟩ := exists_of_resume hr
  exact iso.leaves h.active h.shared hx (h.handles hx) hr

/-- All coroutines stay admitted while one is driven to its end. -/
theorem Admitted.of_drive (fuel : Nat) : DrivesAdmitted iso (drive bodies fuel) := by
  induction fuel with
  | zero => rintro c input u o v ⟨⟩
  | succ fuel ih =>
      intro c input u o v h hu
      simp only [World.drive] at h
      split at h
      · next hr =>
          cases h
          exact hu.resume (hu.leaves hr)
      · next hr =>
          cases h
          exact hu.resume (hu.leaves hr)
      · next hr =>
          split at h
          · cases h
          · next ht => exact ih h ((hu.resume (hu.leaves hr)).driveTarget ih ht)
      · cases h

/-! ### Drives that end -/

/-- Members that are driven one after another. -/
theorem Gathers.of_drive (hadmits : DrivesAdmitted iso d)
    (hd : ∀ {c input u o v}, u.Admitted iso → d c input u = some (o, v) →
      ∃ n, Continues iso u [c] input o v n) (hu : u.Admitted iso)
    (h : u.driveMembers d cs = some (os, v)) : ∃ n, Gathers iso u cs os v n := by
  induction cs generalizing u os with
  | nil =>
      cases h
      exact ⟨0, .nil⟩
  | cons c rest ih =>
      simp only [driveMembers] at h
      split at h
      · cases h
      · next o u'' hc =>
          obtain ⟨⟨os', v'⟩, hs, e⟩ := Option.map_eq_some_iff.mp h
          cases e
          obtain ⟨u', hclaim, hdrive⟩ := driveFresh_eq_some hc
          obtain ⟨m, hm⟩ := hd (hu.claim hclaim) hdrive
          obtain ⟨n, hn⟩ := ih (hu.driveFresh hadmits hc) hs
          exact ⟨m + n, .cons hclaim hm hn⟩

/-- **A coroutine that is driven to its end continues so**, and the chain behind it goes on from
there. -/
theorem Continues.of_drive {fuel : Nat} {chain : List CoroutineRef} {input : Input} {u' : World β σ}
    {o' : Outcome} {n : Nat} (hu : u.Admitted iso) (h : u.drive bodies fuel c input = some (o', u'))
    (hn : Continues iso u' chain o'.input o v n) : ∃ n', Continues iso u (c :: chain) input o v n' := by
  induction fuel generalizing c chain input u u' v o o' n with
  | zero => cases h
  | succ fuel ih =>
      simp only [World.drive] at h
      split at h
      · next hr =>
          cases h
          exact ⟨_, .resume hu hr (hu.leaves hr) (.ret hn)⟩
      · next hr =>
          cases h
          exact ⟨_, .resume hu hr (hu.leaves hr) (.raise hn)⟩
      · next target u₁ hr =>
          split at h
          · cases h
          · next o₁ u₂ ht =>
              have hu₁ := hu.resume (hu.leaves hr)
              obtain ⟨n₁, h₁⟩ := ih (hu₁.driveTarget (Admitted.of_drive fuel) ht) h hn
              cases target with
              | coroutine e =>
                  obtain ⟨u₃, hc, hd⟩ := driveFresh_eq_some ht
                  obtain ⟨n₂, h₂⟩ := ih (hu₁.claim hc) hd h₁
                  exact ⟨_, .resume hu hr (hu.leaves hr) (.await hc h₂)⟩
              | group g =>
                  simp only [driveTarget] at ht
                  split at ht
                  · cases ht
                  · next x hx =>
                      split at ht
                      · cases ht
                      · next ha =>
                          obtain ⟨⟨os, u₃⟩, hs, e⟩ := Option.map_eq_some_iff.mp ht
                          cases e
                          obtain ⟨m, hm⟩ := Gathers.of_drive (Admitted.of_drive fuel)
                            (fun hu hd => ih hu hd .over) (hu₁.modifyGroup g _) hs
                          exact ⟨_, .resume hu hr (hu.leaves hr)
                            (.gather hx (by simpa using ha) hm rfl h₁)⟩
      · cases h

end World

end Coroutines
