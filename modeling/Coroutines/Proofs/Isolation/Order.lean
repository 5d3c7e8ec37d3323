import Coroutines.Proofs.Isolation.Sequential

/-!
# Before and after a drive

A drive only takes what was fresh: of the coroutines and groups that exist it changes those of its
own chain and those that it claims (`Precedes`, `Spares`).
-/

namespace Coroutines

namespace World

variable {β σ : Type}

/-- A world comes before another in an execution: what is still untouched in the later one was so in the
earlier one, if it existed. -/
structure Precedes (u v : World β σ) : Prop where
  extent : ∀ k, u.extent k ≤ v.extent k
  handles : ∀ {i x}, v.handles.get? i = some x → x.Fresh → i < u.handles.size →
    u.handles.get? i = some x
  groups : ∀ {i x}, v.groups.get? i = some x → x.awaitedBy = none → i < u.groups.size →
    u.groups.get? i = some x
  mode : ∀ s, v.mode s = u.mode s

/-- The coroutines that are taken in one world stay as they are in another, except those of a
chain. -/
def Spares (chain : List CoroutineRef) (u v : World β σ) : Prop :=
  ∀ ⦃i x⦄, u.handles.get? i = some x → ¬ x.Fresh → (∀ c ∈ chain, c.id ≠ i) →
    v.handles.get? i = some x

section

variable {bodies : Bodies β σ} {s : Nat} {constant : σ → Prop} {iso : Isolation bodies s constant} {u u' v : World β σ}
  {c : CoroutineRef} {chain chain' : List CoroutineRef}

theorem Precedes.refl (u : World β σ) : u.Precedes u :=
  ⟨fun _ => Nat.le_refl _, fun h _ _ => h, fun h _ _ => h, fun _ => rfl⟩

theorem Precedes.trans (h : u.Precedes u') (h' : u'.Precedes v) : u.Precedes v where
  extent k := Nat.le_trans (h.extent k) (h'.extent k)
  handles hx hf hi := h.handles (h'.handles hx hf (Nat.lt_of_lt_of_le hi (h.extent .coroutine))) hf hi
  groups hx hf hi := h.groups (h'.groups hx hf (Nat.lt_of_lt_of_le hi (h.extent .group))) hf hi
  mode s := (h'.mode s).trans (h.mode s)

theorem Spares.trans (h : Spares chain u u') (h' : Spares chain u' v) : Spares chain u v :=
  fun _ _ hx hf hi => h' (h hx hf hi) hf hi

theorem Spares.mono (h : Spares chain u v) (hsub : chain ⊆ chain') : Spares chain' u v :=
  fun _ _ hx hf hi => h hx hf fun d hd => hi d (hsub hd)

/-- A resume of a coroutine comes before whatever is done next. -/
theorem Moved.precedes (h : u.Moved c.id v)
    (hc : ∀ {x}, v.handles.get? c.id = some x → x.status ≠ .created) : u.Precedes v where
  extent := h.extent
  handles {i x} hx hf hi := by
    obtain ⟨y, hy⟩ := Table.exists_get? hi
    have hne : i ≠ c.id := by
      rintro rfl
      exact hc hx hf.1
    rw [← hx, h.handles hne hy, hy]
  groups {i x} hx _ hi := by
    obtain ⟨y, hy⟩ := Table.exists_get? hi
    rw [← hx, h.groups hy, hy]
  mode := h.mode

theorem Moved.spares (h : u.Moved c.id v) : Spares [c] u v := fun _ _ hx _ hi =>
  h.handles (hi c List.mem_cons_self).symm hx

/-- A claim takes a coroutine that was fresh. -/
theorem Precedes.claim {task : Nat} (hc : u.claim c task = (none, v)) : u.Precedes v := by
  obtain ⟨x, hx, -, -, rfl⟩ := claim_eq_none hc
  refine ⟨fun k => by simp, fun {i y} hy hf _ => ?_, fun h _ _ => h, fun _ => rfl⟩
  rw [get?_handles_modifyHandle] at hy
  split at hy
  · obtain ⟨z, -, rfl⟩ := Option.map_eq_some_iff.mp hy
    cases hf.2
  · exact hy

theorem Spares.claim {task : Nat} (hc : u.claim c task = (none, v)) : Spares [] u v := by
  obtain ⟨x, hx, hs, ho, rfl⟩ := claim_eq_none hc
  intro i y hy hf _
  refine (get?_handles_modifyHandle ..).trans ((if_neg ?_).trans hy)
  rintro rfl
  exact hf (Option.some.inj (hx.symm.trans hy) ▸ ⟨hs, ho⟩)

@[simp] theorem extent_modifyGroup (w : World β σ) (g : GroupRef) (f : Group → Group)
    (k : NameKind) : (w.modifyGroup g f).extent k = w.extent k := by
  cases k <;> simp [extent, World.modifyGroup]

/-- A group that is awaited has been taken. -/
theorem Precedes.modifyGroup (u : World β σ) (g : GroupRef) (t : Nat) :
    u.Precedes (u.modifyGroup g fun x => { x with awaitedBy := some t }) := by
  refine ⟨fun k => by simp, fun h _ _ => h, fun {i y} hy ha _ => ?_, fun _ => rfl⟩
  rw [get?_groups_modifyGroup] at hy
  split at hy
  · obtain ⟨z, -, rfl⟩ := Option.map_eq_some_iff.mp hy
    cases ha
  · exact hy

theorem Precedes.nextIdentity {n : Nat} (hn : u.nextIdentity ≤ n) :
    u.Precedes { u with nextIdentity := n } := by
  refine ⟨fun k => ?_, fun h _ _ => h, fun h _ _ => h, fun _ => rfl⟩
  cases k
  · exact Nat.le_refl _
  · exact Nat.le_refl _
  · exact hn

theorem le_combine (re : Bool) (os : List Outcome) (n : Nat) : n ≤ (combine re os n).2 := by
  induction os generalizing n with
  | nil => exact Nat.le_refl n
  | cons o rest ih =>
      cases o with
      | ok v => exact ih n
      | error r =>
          cases re with
          | false => exact Nat.le_refl n
          | true => exact Nat.le_trans (Nat.le_succ n) (ih (n + 1))

mutual

theorem Continues.precedes {u v : World β σ} {chain : List CoroutineRef} {input : Input} {o : Outcome} {n : Nat} :
    Continues iso u chain input o v n → u.Precedes v ∧ Spares chain u v
  | .over => ⟨.refl u, fun _ _ hx _ _ => hx⟩
  | .resume _ _ hl h => by
      obtain ⟨hp, hs⟩ := Absorbs.precedes h
      exact ⟨(hl.moved.precedes hl.started).trans hp, (hl.moved.spares.mono (by simp)).trans hs⟩

theorem Absorbs.precedes {u v : World β σ} {c : CoroutineRef} {chain : List CoroutineRef} {step : Step} {o : Outcome}
    {n : Nat} : Absorbs iso u c chain step o v n → u.Precedes v ∧ Spares (c :: chain) u v
  | .ret h => (Continues.precedes h).imp_right fun h => h.mono (by simp)
  | .raise h => (Continues.precedes h).imp_right fun h => h.mono (by simp)
  | .await hc h => by
      obtain ⟨hp, hs⟩ := Continues.precedes h
      refine ⟨(Precedes.claim hc).trans hp, fun i x hx hf hi => ?_⟩
      -- the coroutine that is claimed was fresh
      obtain ⟨y, hy, hys, hyo, -⟩ := claim_eq_none hc
      refine hs (Spares.claim hc hx hf (by simp)) hf fun d hd => ?_
      rcases List.mem_cons.mp hd with rfl | hd
      · rintro rfl
        exact hf (Option.some.inj (hy.symm.trans hx) ▸ ⟨hys, hyo⟩)
      · exact hi d hd
  | .gather hx ha hm hc h => by
      obtain ⟨hp, hs⟩ := Continues.precedes h
      obtain ⟨hp', hs'⟩ := Gathers.precedes hm
      have hn := le_combine _ _ _ |>.trans_eq (congrArg Prod.snd hc)
      exact ⟨((Precedes.modifyGroup ..).trans hp').trans ((Precedes.nextIdentity hn).trans hp),
        fun _ _ hx hf hi => hs (hs' hx hf (by simp)) hf hi⟩

theorem Gathers.precedes {u v : World β σ} {cs : List CoroutineRef} {os : List Outcome} {n : Nat} :
    Gathers iso u cs os v n → u.Precedes v ∧ Spares [] u v
  | .nil => ⟨.refl u, fun _ _ hx _ _ => hx⟩
  | .cons hc h hs => by
      obtain ⟨hp, hsp⟩ := Continues.precedes h
      obtain ⟨hp', hsp'⟩ := Gathers.precedes hs
      refine ⟨(Precedes.claim hc).trans (hp.trans hp'), fun i x hx hf _ => ?_⟩
      obtain ⟨y, hy, hys, hyo, -⟩ := claim_eq_none hc
      refine hsp' (hsp (Spares.claim hc hx hf (by simp)) hf fun d hd => ?_) hf (by simp)
      rw [List.mem_singleton.mp hd]
      rintro rfl
      exact hf (Option.some.inj (hy.symm.trans hx) ▸ ⟨hys, hyo⟩)

end

end

end World

end Coroutines
