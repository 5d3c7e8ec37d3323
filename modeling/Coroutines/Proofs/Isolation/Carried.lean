import Coroutines.Proofs.Isolation.Actions

/-!
# Actions that agree, carried out

Carried out in two worlds of a run, actions that agree end alike, and both worlds grow together: every new pair of
names stands for things that agree (`World.Extends`).  Bodies of which the actions agree are therefore isolated
(`Isolation.ofActions`).
-/

namespace Coroutines

section

variable {β σ : Type} {S : Setting β σ} {ρ : Names} {h h' : Handle β}

theorem Handle.Alike.entered (hh : h.Alike S.alike ρ h') (forgets forgets' : Bool) :
    (h.entered forgets).Alike S.alike ρ (h'.entered forgets') :=
  ⟨hh.name, hh.body, hh.frame, rfl⟩

theorem Handle.Alike.left (hh : h.Alike S.alike ρ h') {f f' : Frame} {s s' : Step} (hf : f.Alike Eq ρ f')
    (hs : s.Alike Eq ρ s') : (h.left f s).Alike S.alike ρ (h'.left f' s') := by
  cases hs <;> exact ⟨hh.name, hh.body, hf, rfl⟩

theorem Handle.status_left_ne (h : Handle β) (f : Frame) (s : Step) : (h.left f s).status ≠ .created := by
  cases s <;> simp [Handle.left]

theorem Handle.body_left (h : Handle β) (f : Frame) (s : Step) : (h.left f s).body = h.body := by
  cases s <;> rfl

end

namespace World

variable {β σ : Type} {w w' w'' : World β σ}

/-- A world with more coroutines, groups and identities, and nothing else changed but shared data. -/
structure Grown (w w' : World β σ) : Prop where
  handles : ∀ {i h}, w.handles.get? i = some h → w'.handles.get? i = some h
  groups : ∀ {i x}, w.groups.get? i = some x → w'.groups.get? i = some x
  extent : ∀ k, w.extent k ≤ w'.extent k
  tasks : w'.tasks = w.tasks
  schedulers : w'.schedulers = w.schedulers

theorem Grown.refl (w : World β σ) : w.Grown w := ⟨id, id, fun _ => Nat.le_refl _, rfl, rfl⟩

theorem Grown.trans (h : w.Grown w') (h' : w'.Grown w'') : w.Grown w'' where
  handles e := h'.handles (h.handles e)
  groups e := h'.groups (h.groups e)
  extent k := Nat.le_trans (h.extent k) (h'.extent k)
  tasks := h'.tasks.trans h.tasks
  schedulers := h'.schedulers.trans h.schedulers

theorem Grown.identity (w : World β σ) : w.Grown w.identity.2 where
  handles := id
  groups := id
  extent k := by cases k <;> simp [World.extent, World.identity]
  tasks := rfl
  schedulers := rfl

theorem Grown.spawn (w : World β σ) (name : String) (body : β) (locals : Bindings Value) :
    w.Grown (w.spawn name body locals).2 where
  handles := Table.get?_push_of_some
  groups := id
  extent k := by cases k <;> simp [World.extent, World.spawn]
  tasks := rfl
  schedulers := rfl

theorem Grown.newGroup (w : World β σ) (members : List CoroutineRef) (re : Bool) :
    w.Grown (w.newGroup members re).2 where
  handles := id
  groups := Table.get?_push_of_some
  extent k := by cases k <;> simp [World.extent, World.newGroup]
  tasks := rfl
  schedulers := rfl

theorem Grown.modify (w : World β σ) (f : σ → σ) : w.Grown { w with shared := f w.shared } :=
  ⟨id, id, fun k => by cases k <;> exact Nat.le_refl _, rfl, rfl⟩

theorem Grown.isActive (h : w.Grown w') (s : Nat) : w'.isActive s = w.isActive s :=
  isActive_of_schedulers h.schedulers s

/-- What a coroutine changes while it runs: its row, as it takes up its input and as it leaves off, and what its body
adds in between. -/
theorem Grown.moved {c : CoroutineRef} {f f' : Handle β → Handle β} (h : (w.modifyHandle c f).Grown w') :
    w.Moved c.id (w'.modifyHandle c f') where
  handles hi hx := get?_handles_modifyHandle_of_ne _ _ _ hi (h.handles (get?_handles_modifyHandle_of_ne _ _ _ hi hx))
  groups := h.groups
  extent k := by simpa using h.extent k
  tasks _ := congrArg (Table.get? · _) h.tasks
  schedulers _ := congrArg (fun t : Table Scheduler => (t.get? _).map Scheduler.standing) h.schedulers

/-! ### What one action does -/

section

variable {S : Setting β σ} {α : Type}

/-- What an action adds is admitted, and what is to stay constant does. -/
structure Enlarges (S : Setting β σ) (w w' : World β σ) : Prop where
  grown : w.Grown w'
  shared : S.constant w.shared → S.constant w'.shared
  admitted : ∀ {i x}, w'.handles.get? i = some x → w.extent .coroutine ≤ i → S.admits x.body

theorem Enlarges.refl (w : World β σ) : Enlarges S w w :=
  ⟨.refl w, id, fun hx hi => absurd (Table.lt_size_of_get? hx) (Nat.not_lt_of_le hi)⟩

theorem Enlarges.trans (h : Enlarges S w w') (h' : Enlarges S w' w'') : Enlarges S w w'' where
  grown := h.grown.trans h'.grown
  shared hc := h'.shared (h.shared hc)
  admitted {i x} hx hi := by
    rcases Nat.lt_or_ge i (w'.extent .coroutine) with hlt | hge
    · obtain ⟨y, hy⟩ := Table.exists_get? hlt
      obtain rfl := Option.some.inj ((h'.grown.handles hy).symm.trans hx)
      exact h.admitted hy hi
    · exact h'.admitted hx hge

/-- A step that makes no coroutine. -/
theorem Enlarges.of_handles (h : w.Grown w') (hs : S.constant w.shared → S.constant w'.shared)
    (hh : w'.handles = w.handles) : Enlarges S w w' :=
  ⟨h, hs, fun hx hi => absurd (Table.lt_size_of_get? (hh ▸ hx)) (Nat.not_lt_of_le hi)⟩

theorem Enlarges.spawn (name : String) {b : β} (hb : S.admits b) (locals : Bindings Value) :
    Enlarges S w (w.spawn name b locals).2 where
  grown := .spawn w name b locals
  shared := id
  admitted {i x} hx hi := by
    obtain rfl : i = w.handles.size := by
      have hlt := Table.lt_size_of_get? hx
      simp only [World.spawn, Table.size_push] at hlt
      exact Nat.le_antisymm (Nat.lt_succ_iff.mp hlt) hi
    cases ((Table.get?_push ..).trans (if_pos rfl)).symm.trans hx
    exact hb

/-- **An action that asks for new things adds what is admitted.** -/
theorem Enlarges.perform (bodies : Bodies β σ) (fuel : Nat) {a : Action β σ α} (ha : a.Stays S)
    (hw : w.isActive S.scheduler = true) (hconstant : S.constant w.shared) :
    Enlarges S w (a.perform (World.runner bodies fuel) w).2 := by
  induction a generalizing w with
  | done result => exact .refl w
  | read next ih => exact ih _ (ha _ hconstant) hw hconstant
  | modify f next ih =>
      exact (Enlarges.of_handles (.modify w f) (ha.1 _) rfl).trans (ih ha.2 hw (ha.1 _ hconstant))
  | identity next ih => exact (Enlarges.of_handles (.identity w) id rfl).trans (ih _ (ha _) hw hconstant)
  | spawn name body locals next ih =>
      exact (Enlarges.spawn name ha.1 locals).trans (ih _ (ha.2 _) hw hconstant)
  | joinAll s members re next ih =>
      simp only [Action.perform]
      split
      · exact (Enlarges.of_handles (.newGroup w members re) id rfl).trans (ih _ (ha.1 _) hw hconstant)
      · exact ih _ ha.2 hw hconstant
  | run s c next ih =>
      obtain ⟨rfl, ha⟩ := ha
      have hrun : (World.runner bodies fuel).run S.scheduler c w = _ := run_of_active hw bodies fuel c
      simp only [Action.perform, hrun]
      exact ih _ ha hw hconstant
  | _ => exact ha.elim

end

/-! ### Two executions -/

section

variable {S : Setting β σ} {ρ ρ' ρ'' : Names} {u u' u'' : World β σ} {top : NameKind → Nat}

/-- Two worlds grow together: every new pair of names is new on both sides and stands for things that agree. -/
structure Extends (body : Names → β → β → Prop) (ρ ρ' : Names) (u u' w w' : World β σ) : Prop where
  le : ρ ≤ ρ'
  oneToOne : ρ'.OneToOne
  left : u.Grown u'
  right : w.Grown w'
  fresh : ∀ {k i j}, ρ' k i j → ρ k i j ∨ (u.extent k ≤ i ∧ i < u'.extent k) ∧
    (w.extent k ≤ j ∧ j < w'.extent k) ∧ Paired body ρ' u' w' k i j

/-- What a name of the first world stands for stays paired as the worlds grow. -/
theorem Paired.mono {k : NameKind} {i j : Nat} (h : Paired S.alike ρ u w k i j) (hi : i < u.extent k) (hle : ρ ≤ ρ')
    (hu : u.Grown u') (hw : w.Grown w') : Paired S.alike ρ' u' w' k i j := by
  cases k with
  | coroutine =>
      intro x hx hf
      obtain ⟨y, hy⟩ := Table.exists_get? hi
      obtain rfl := Option.some.inj ((hu.handles hy).symm.trans hx)
      obtain ⟨x', hx', hf', ha⟩ := h hy hf
      exact ⟨x', hw.handles hx', hf', ha.imp hle (S.mono hle)⟩
  | group =>
      intro x hx hf
      obtain ⟨y, hy⟩ := Table.exists_get? hi
      obtain rfl := Option.some.inj ((hu.groups hy).symm.trans hx)
      obtain ⟨x', hx', hf', ha⟩ := h hy hf
      exact ⟨x', hw.groups hx', hf', ha.mono hle⟩
  | identity => trivial

theorem Extends.refl (hρ : ρ.OneToOne) : Extends S.alike ρ ρ u u w w :=
  ⟨le_refl ρ, hρ, .refl u, .refl w, .inl⟩

theorem Extends.trans (h : Extends S.alike ρ ρ' u u' w w') (h' : Extends S.alike ρ' ρ'' u' u'' w' w'') :
    Extends S.alike ρ ρ'' u u'' w w'' where
  le := h.le.trans h'.le
  oneToOne := h'.oneToOne
  left := h.left.trans h'.left
  right := h.right.trans h'.right
  fresh {k i j} e := by
    have hu := h.left.extent k
    have hu' := h'.left.extent k
    have hw := h.right.extent k
    have hw' := h'.right.extent k
    rcases h'.fresh e with e | ⟨hi, hj, hp⟩
    · rcases h.fresh e with e | ⟨hi, hj, hp⟩
      · exact .inl e
      · exact .inr ⟨by omega, by omega, hp.mono hi.2 h'.le h'.left h'.right⟩
    · exact .inr ⟨by omega, by omega, hp⟩

/-- Nothing new is named. -/
theorem Extends.of_grown (hρ : ρ.OneToOne) (hu : u.Grown u') (hw : w.Grown w') : Extends S.alike ρ ρ u u' w w' :=
  ⟨le_refl ρ, hρ, hu, hw, .inl⟩

/-- The next names on both sides become a pair. -/
theorem Extends.add {k : NameKind} (hρ : ρ.OneToOne) (havoid : Avoids ρ u top w) (hu : u.Grown u') (hw : w.Grown w')
    (hlt : u.extent k < u'.extent k) (hlt' : w.extent k < w'.extent k) (htop : u'.extent k ≤ top k)
    (hp : Paired S.alike (ρ.add k (u.extent k) (w.extent k)) u' w' k (u.extent k) (w.extent k)) :
    Extends S.alike ρ (ρ.add k (u.extent k) (w.extent k)) u u' w w' where
  le := Names.le_add
  oneToOne := by
    refine hρ.add (fun j e => ?_) fun i e => ?_
    · rcases havoid.gap e with h | h <;> omega
    · exact absurd (havoid.bound e) (Nat.lt_irrefl _)
  left := hu
  right := hw
  fresh := by
    rintro k' i j (e | ⟨rfl, rfl, rfl⟩)
    · exact .inl e
    · exact .inr ⟨⟨Nat.le_refl _, hlt⟩, ⟨Nat.le_refl _, hlt'⟩, hp⟩

/-- Names below the same bound are still left out after both worlds have grown. -/
theorem Extends.avoids (h : Extends S.alike ρ ρ' u u' w w') (havoid : Avoids ρ u top w) : Avoids ρ' u' top w' where
  gap {k i j} e := by
    have hu := h.left.extent k
    rcases h.fresh e with e | ⟨hi, -, -⟩
    · exact (havoid.gap e).imp_left fun hi => by omega
    · exact .inl hi.2
  bound {k i j} e := by
    have hw := h.right.extent k
    rcases h.fresh e with e | ⟨-, hj, -⟩
    · have := havoid.bound e
      omega
    · exact hj.2

/-- A coroutine that both executions create. -/
theorem Paired.spawn {name : String} {b b' : β} {locals locals' : Bindings Value} (hb : S.alike ρ b b')
    (hl : Bindings.Alike Eq ρ locals locals') :
    Paired S.alike ρ (u.spawn name b locals).2 (w.spawn name b' locals').2 .coroutine (u.extent .coroutine)
      (w.extent .coroutine) := by
  intro x hx _
  cases ((Table.get?_push ..).trans (if_pos rfl)).symm.trans hx
  exact ⟨_, (Table.get?_push ..).trans (if_pos rfl), ⟨rfl, rfl⟩, ⟨rfl, hb, ⟨rfl, hl⟩, rfl⟩⟩

theorem Paired.newGroup (body : Names → β → β → Prop) {members members' : List CoroutineRef} {re : Bool}
    (hm : List.Forall₂ (CoroutineRef.Alike ρ) members members') :
    Paired body ρ (u.newGroup members re).2 (w.newGroup members' re).2 .group (u.extent .group)
      (w.extent .group) := by
  intro x hx _
  cases ((Table.get?_push ..).trans (if_pos rfl)).symm.trans hx
  exact ⟨_, (Table.get?_push ..).trans (if_pos rfl), ⟨rfl, rfl⟩, ⟨hm, rfl⟩⟩

/-- What a second execution has in common with a first at the start of an action that agrees. -/
structure Meets (S : Setting β σ) (ρ : Names) (u : World β σ) (top : NameKind → Nat) (w : World β σ) : Prop where
  oneToOne : ρ.OneToOne
  avoids : Avoids ρ u top w
  active : u.isActive S.scheduler = true
  mode : ∀ s, u.isActive s = w.isActive s
  left : S.constant u.shared
  right : S.constant w.shared

theorem Meets.next (h : Meets S ρ u top w) (hext : Extends S.alike ρ ρ' u u' w w') (hl : S.constant u'.shared)
    (hr : S.constant w'.shared) : Meets S ρ' u' top w' where
  oneToOne := hext.oneToOne
  avoids := hext.avoids h.avoids
  active := (hext.left.isActive _).trans h.active
  mode s := by rw [hext.left.isActive, hext.right.isActive, h.mode]
  left := hl
  right := hr

/-- **Actions that agree end alike**, and the worlds grow together. -/
theorem perform_agrees (bodies : Bodies β σ) {n m : Nat} {α : Type} {post : Names → α → α → Prop}
    {a a' : Action β σ α} (h : Action.Agrees S post ρ a a') (ha : a.Stays S)
    (hmeets : Meets S ρ u (a.perform (World.runner bodies n) u).2.extent w) :
    ∃ ρ', Extends S.alike ρ ρ' u (a.perform (World.runner bodies n) u).2 w
        (a'.perform (World.runner bodies m) w).2 ∧
      S.constant (a'.perform (World.runner bodies m) w).2.shared ∧
      Ends (post ρ') (a.perform (World.runner bodies n) u).1 (a'.perform (World.runner bodies m) w).1 := by
  induction h generalizing u w with
  | done h => exact ⟨_, .refl hmeets.oneToOne, hmeets.right, h⟩
  | read h ih => exact ih _ _ hmeets.left hmeets.right (ha _ hmeets.left) hmeets
  | @modify ρ f f' next next' hf hf' h ih =>
      have hgrow : Extends S.alike .. := .of_grown hmeets.oneToOne (.modify u f) (.modify w f')
      obtain ⟨ρ', hext, hc, he⟩ := ih ha.2 (hmeets.next hgrow (hf _ hmeets.left) (hf' _ hmeets.right))
      exact ⟨ρ', hgrow.trans hext, hc, he⟩
  | identity h ih =>
      have hgrow := (Enlarges.perform bodies (w := u.identity.2) n (ha u.nextIdentity) hmeets.active
        hmeets.left).grown
      have hadd : Extends S.alike .. := Extends.add (k := .identity) hmeets.oneToOne hmeets.avoids (.identity u)
        (.identity w) (Nat.lt_succ_self _) (Nat.lt_succ_self _) (hgrow.extent _) trivial
      obtain ⟨ρ', hext, hc, he⟩ := ih _ _ _ hadd.le hadd.oneToOne Names.add_self (ha _)
        (hmeets.next hadd hmeets.left hmeets.right)
      exact ⟨ρ', hadd.trans hext, hc, he⟩
  | @spawn ρ b b' locals locals' next next' name hb hbb hl h ih =>
      have hgrow := (Enlarges.perform bodies (w := (u.spawn name b locals).2) n (ha.2 u.handles.size)
        hmeets.active hmeets.left).grown
      have hadd : Extends S.alike .. := Extends.add (k := .coroutine) hmeets.oneToOne hmeets.avoids
        (.spawn u name b locals) (.spawn w name b' locals') (by simp [extent, World.spawn])
        (by simp [extent, World.spawn]) (hgrow.extent _)
        (Paired.spawn (S.mono Names.le_add hbb) (hl.mono Names.le_add))
      obtain ⟨ρ', hext, hc, he⟩ := ih _ _ _ hadd.le hadd.oneToOne Names.add_self (ha.2 _)
        (hmeets.next hadd hmeets.left hmeets.right)
      exact ⟨ρ', hadd.trans hext, hc, he⟩
  | @joinAll ρ members members' next next' s re hm h hr ih ihr =>
      simp only [Action.perform] at hmeets ⊢
      rw [← hmeets.mode s]
      cases e : u.isActive s with
      | false =>
          rw [e] at hmeets
          exact ihr ha.2 hmeets
      | true =>
          rw [e] at hmeets
          have hgrow := (Enlarges.perform bodies (w := (u.newGroup members re).2) n (ha.1 u.groups.size)
            hmeets.active hmeets.left).grown
          have hadd : Extends S.alike .. := Extends.add (k := .group) hmeets.oneToOne hmeets.avoids
            (.newGroup u members re) (.newGroup w members' re) (by simp [extent, World.newGroup])
            (by simp [extent, World.newGroup]) (hgrow.extent _)
            (Paired.newGroup S.alike (hm.imp fun _ _ hc => hc.mono Names.le_add))
          obtain ⟨ρ', hext, hc, he⟩ := ih _ _ _ hadd.le hadd.oneToOne Names.add_self (ha.1 _)
            (hmeets.next hadd hmeets.left hmeets.right)
          exact ⟨ρ', hadd.trans hext, hc, he⟩
  | run c c' h ih =>
      have hrun : (World.runner bodies n).run S.scheduler c u = _ := run_of_active hmeets.active bodies n c
      have hrun' : (World.runner bodies m).run S.scheduler c' w = _ :=
        run_of_active (hmeets.mode _ ▸ hmeets.active) bodies m c'
      simp only [Action.perform, hrun, hrun'] at hmeets ⊢
      exact ih ha.2 hmeets

end

/-! ### Resumes -/

section

variable {S : Setting β σ} {ρ : Names} {bodies : Bodies β σ} {n m : Nat} {u u' : World β σ} {c c' : CoroutineRef}
  {input input' : Input} {step : Step} {x x' : Handle β}

/-- **A resume leaves alone what its body did not make.** -/
theorem Leaves.of_resume (ha : ((bodies.resume x.body x.frame input).Stays S)) (hx : u.handles.get? c.id = some x)
    (hb : S.admits x.body) (hactive : u.isActive S.scheduler = true) (hconstant : S.constant u.shared)
    (hr : World.resume bodies (n + 1) c input u = (.ok step, u')) : u.Leaves S.admits S.constant c.id u' := by
  rw [resume_succ] at hr
  obtain ⟨_, frame, forgets, result, u₁, hx₀, -, hp, -, rfl⟩ := resumeWith_eq_ok hr
  obtain rfl := Option.some.inj (hx.symm.trans hx₀)
  have henlarges := Enlarges.perform bodies (w := u.modifyHandle c (·.entered forgets)) n ha hactive hconstant
  have hp' : (bodies.resume x.body x.frame input).perform (runner bodies n) _ = _ := hp
  rw [hp'] at henlarges
  have hrow : u₁.handles.get? c.id = some (x.entered forgets) :=
    henlarges.grown.handles (get?_modifyHandle_self hx _)
  have hself : (u₁.modifyHandle c (·.left frame step)).handles.get? c.id = some ((x.entered forgets).left frame step) :=
    get?_modifyHandle_self hrow _
  refine ⟨henlarges.grown.moved, henlarges.shared hconstant, fun {i y} hy hi => ?_, fun {y} hy => ?_⟩
  · by_cases e : c.id = i
    · subst e
      cases hself.symm.trans hy
      rw [Handle.body_left]
      exact hb
    · rw [get?_handles_modifyHandle, if_neg e] at hy
      exact henlarges.admitted hy ((extent_modifyHandle ..).trans_le (hi.resolve_left (Ne.symm e)))
  · cases hself.symm.trans hy
    exact Handle.status_left_ne _ _ _

/-- A pair of names that is not the resumed coroutines' stays paired as these leave off. -/
theorem Paired.modifyHandle {body : Names → β → β → Prop} {k : NameKind} {i j : Nat} {f f' : Handle β → Handle β}
    (h : Paired body ρ u w k i j) (hi : k = .coroutine → c.id ≠ i) (hj : k = .coroutine → c'.id ≠ j) :
    Paired body ρ (u.modifyHandle c f) (w.modifyHandle c' f') k i j := by
  cases k with
  | coroutine =>
      intro x hx hf
      rw [get?_handles_modifyHandle, if_neg (hi rfl)] at hx
      obtain ⟨x', hx', hp⟩ := h hx hf
      exact ⟨x', get?_handles_modifyHandle_of_ne _ _ _ (Ne.symm (hj rfl)) hx', hp⟩
  | group => exact h
  | identity => trivial

/-- **Coroutines that agree, resumed with inputs that agree, end with steps that agree.** -/
theorem resume_agrees
    (ha : Action.Agrees S Halted ρ (bodies.resume x.body x.frame input) (bodies.resume x'.body x'.frame input'))
    (hstays : (bodies.resume x.body x.frame input).Stays S) (hmeets : Meets S ρ u u'.extent w)
    (hx : u.handles.get? c.id = some x) (hx' : w.handles.get? c'.id = some x') (hh : x.Alike S.alike ρ x')
    (hin : input.Alike Eq ρ input') (hr : World.resume bodies (n + 1) c input u = (.ok step, u')) :
    ∃ ρ' step' w', World.resume bodies (m + 1) c' input' w = (.ok step', w') ∧ step.Alike Eq ρ' step' ∧
      Advances S.alike ρ ρ' c.id c'.id u u' w w' ∧ S.constant w'.shared := by
  rw [resume_succ] at hr
  obtain ⟨_, frame, forgets, result, u₁, hx₀, hrefuse, hp, hend, rfl⟩ := resumeWith_eq_ok hr
  obtain rfl := Option.some.inj (hx.symm.trans hx₀)
  have hrefuse' : x'.refusal? input' = none := by
    rw [Handle.refusal?_eq_none_iff] at hrefuse ⊢
    rw [← hh.status]
    cases hin <;> exact hrefuse
  obtain ⟨forgets', hperform⟩ := resumeWith_of_perform bodies (Action.perform (runner bodies m)) hx' hrefuse'
  have hp₁ : (bodies.resume x.body x.frame input).perform (runner bodies n) _ = _ := hp
  have hmeets' : Meets S ρ (u.modifyHandle c (·.entered forgets)) u₁.extent
      (w.modifyHandle c' (·.entered forgets')) :=
    ⟨hmeets.oneToOne, ⟨fun e => by simpa using hmeets.avoids.gap e, fun e => by simpa using hmeets.avoids.bound e⟩,
      hmeets.active, hmeets.mode, hmeets.left, hmeets.right⟩
  obtain ⟨ρ', hext, hconstant, hl⟩ := perform_agrees bodies (n := n) (m := m) ha hstays (by rwa [hp₁])
  rcases hp' : Action.perform (runner bodies m) (bodies.resume x'.body x'.frame input')
    (w.modifyHandle c' (·.entered forgets')) with ⟨result', w₁⟩
  rw [hp₁, hp'] at hext hl
  rw [hp'] at hconstant
  -- the bodies leave off alike, with a step or with an exception
  obtain ⟨frame', step', hleave, hf, hs⟩ : ∃ frame' step', w₁.leave c' x'.frame result' =
      (.ok step', w₁.modifyHandle c' (·.left frame' step')) ∧ frame.Alike Eq ρ' frame' ∧
        step.Alike Eq ρ' step' := by
    rcases hend with rfl | ⟨rfl, r, rfl, rfl⟩
    · cases hl with
      | ok h => exact ⟨_, _, rfl, h.1, h.2⟩
    · cases hl with
      | error => exact ⟨_, _, rfl, hh.frame.mono hext.le, .raise rfl⟩
  have hrow : u₁.handles.get? c.id = some (x.entered forgets) :=
    hext.left.handles (get?_modifyHandle_self hx _)
  have hrow' : w₁.handles.get? c'.id = some (x'.entered forgets') :=
    hext.right.handles (get?_modifyHandle_self hx' _)
  refine ⟨ρ', step', _, ((resume_succ ..).trans (hperform hp')).trans hleave, hs,
    ⟨hext.le, hext.oneToOne, hext.right.moved, fun {k i j} e => ?_, _, _,
      get?_modifyHandle_self hrow _, get?_modifyHandle_self hrow' _,
      ((hh.imp hext.le (S.mono hext.le)).entered forgets forgets').left hf hs,
      Handle.status_left_ne _ _ _⟩, hconstant⟩
  refine (hext.fresh e).imp_right fun ⟨hi, hj, hpair⟩ => ?_
  simp only [extent_modifyHandle] at hi hj ⊢
  have hlt := Table.lt_size_of_get? hx
  have hlt' := Table.lt_size_of_get? hx'
  refine ⟨hi, hj, hpair.modifyHandle ?_ ?_⟩ <;>
    · rintro rfl
      simp only [extent] at hi hj
      omega

end

end World

/-- Bodies of which the actions agree wherever the bodies and what they go on from do. -/
def Setting.Isolates {β σ : Type} (S : Setting β σ) (bodies : Bodies β σ) : Prop :=
  ∀ {ρ : Names} {b b' : β} {f f' : Frame} {i i' : Input}, ρ.OneToOne → S.admits b → S.alike ρ b b' →
    f.Alike Eq ρ f' → i.Alike Eq ρ i' → Action.Agrees S Halted ρ (bodies.resume b f i) (bodies.resume b' f' i')

theorem Setting.Isolates.stays {β σ : Type} {S : Setting β σ} {bodies : Bodies β σ} (h : S.Isolates bodies) {b : β}
    (hb : S.admits b) (f : Frame) (i : Input) : (bodies.resume b f i).Stays S :=
  (h Names.same_oneToOne hb (S.refl hb) (.refl (fun _ => rfl) f) (.refl (fun _ => rfl) i)).stays

/-- **Bodies of which the actions agree are isolated.** -/
def Isolation.ofActions {β σ : Type} {S : Setting β σ} {bodies : Bodies β σ} (h : S.Isolates bodies) :
    Isolation bodies S.scheduler S.constant where
  admits := S.admits
  alike := S.alike
  mono := S.mono
  leaves hactive hconstant hx hb hr := .of_resume (h.stays hb _ _) hx hb hactive hconstant hr
  resume hρ havoid hactive hmode hu hw hx hx' hb hh hin _ hr :=
    World.resume_agrees (h hρ hb hh.body hh.frame hin) (h.stays hb _ _)
      ⟨hρ, havoid, hactive, World.isActive_of_mode hmode, hu, hw⟩ hx hx' hh hin hr

end Coroutines
