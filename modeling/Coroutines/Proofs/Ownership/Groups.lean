import Coroutines.Proofs.Ownership.Changes

/-!
# Groups in a sound world

A group is started for a task, its members get tasks of their own, and it is settled when the last
of them has ended.  While a group is being opened or closed, soundness makes an exception for it.
-/

namespace Coroutines

namespace World

variable {β σ : Type} {w : World β σ} {l : Standing} {base : Nat → Start}

/-! ### Members -/

/-- A new member of a group that is being opened is ready, or has ended where its coroutine could
not be claimed. -/
theorem Sound.startMember {s t : Nat} {g : GroupRef} {x : Group} (index : Nat) (c : CoroutineRef)
    (h : w.Sound l base (some g.id)) (ht : l t = some (s, .blocked g.id))
    (hx : w.groups.get? g.id = some x) (ha : x.awaitedBy = some t) :
    ∃ p, (∀ c, p ≠ .current c) ∧
      (w.startMember s g index c).Sound (l.set w.tasks.size s p) base (some g.id) ∧
      (w.startMember s g index c).groups.get? g.id =
        some { x with tasks := x.tasks ++ [w.tasks.size] } := by
  obtain ⟨id, w₁, he, hrow, hsize, hhandles, hgroups, hctx⟩ := w.addMember_spec s g index c
  have hnone := h.size_eq_none
  have hself := (hrow _).trans (if_pos rfl)
  have hgroups : ∀ i, w₁.groups.get? i = if i = g.id then
      some { x with tasks := x.tasks ++ [w.tasks.size] } else w.groups.get? i := by
    intro i
    rw [hgroups]
    by_cases e : g.id = i
    · subst e
      simp [hx]
    · simp [e, Ne.symm e]
  have hroots : ∀ {s ctx}, w.context? s = some ctx → ctx.root ≠ w.tasks.size := fun hc =>
    (h.lt_size (h.root_ne_none hc)).ne
  have hid := taskId_of_get? hself
  have hadd : ∀ p, (∀ g, p ≠ .blocked g) →
      w₁.Grouped (l.set w.tasks.size s p) (some g.id) := fun p hp =>
    h.grouped.add ht h.lt_size hx ha hp rfl rfl hgroups hrow hsize hctx
  rcases hcl : w₁.claim c id with ⟨- | f, w₂⟩
  · -- the member joins the queue
    obtain ⟨y, hy, hs, ho, rfl⟩ := claim_eq_none hcl
    have hget := get?_modifyHandle_of_get? hy (·.ownedBy id)
    rw [hhandles] at hy hget
    have hres : w.startMember s g index c =
        (w₁.modifyHandle c (·.ownedBy id)).enqueue s w.tasks.size := by
      simp only [World.startMember, he, hid, hcl]
    rw [hres]
    refine ⟨.ready, by simp, ⟨?queued, ?chained, ?grouped⟩, by simp [hgroups]⟩
    case queued =>
      refine h.queued.set_ready (h.queued.active ht) (fun s' q hq => by simp [hnone] at hq)
        fun s' => ?_
      rw [context?_enqueue, context?_modifyHandle, hctx]
    case chained =>
      refine h.chained.claim hy hs ho rfl rfl rfl hrow hget <|
        h.chained.base_of_roots (fun {s' ctx'} hc => ?_) fun hf => hf.of_claim hy hs hget
      obtain ⟨ctx, hc, hr⟩ := root_of_enqueue hc
      rw [context?_modifyHandle, hctx] at hc
      exact ⟨ctx, hc, hr, (hrow _).trans (if_neg (hroots hc))⟩
    case grouped =>
      exact (hadd .ready (by simp)).same (fun _ => rfl) (fun _ => rfl) rfl
        (root_enqueue (w := w₁.modifyHandle c _))
  · -- the member could not be claimed
    obtain rfl := claim_eq_some hcl
    have hres : w.startMember s g index c = w₂.modifyTask w.tasks.size fun x =>
        { x with chain := [], state := .failed, outcome := some (.error (.ofFailure f)) } := by
      simp only [World.startMember, he, hid, hcl]
    have hrow' : ∀ u, (w.startMember s g index c).tasks.get? u = if u = w.tasks.size then
        some ⟨id, index, some g, .failed, [], .start, some (.error (.ofFailure f))⟩
        else w.tasks.get? u := by
      rw [hres]
      exact get?_modifyTask_of_rows hrow _
    rw [hres] at hrow' ⊢
    refine ⟨.ended, by simp, ⟨?queued, ?chained, ?grouped⟩, by simp [hgroups]⟩
    case queued =>
      refine h.queued.set (h.queued.active ht) (fun s' q hq => by simp [hnone] at hq)
        (fun s' _ => hctx s') (fun ctx hc => ⟨ctx, (hctx s).trans hc, rfl, h.queued.nodup hc, ?_⟩)
        (by simp)
      intro u
      by_cases e : u = w.tasks.size
      · subst e
        simp [h.queued.ready hc, hnone]
      · simp [e]
    case chained =>
      refine h.chained.change (fun u hu => Standing.set_of_ne _ _ _ hu)
        (fun u hu => (hrow' u).trans (if_neg hu)) ((hrow' _).trans (if_pos rfl)) ?_ ?_ (by simp) ?_
      · intro u z d _ _ _ _
        rw [handles_modifyTask, hhandles]
      · intro s' p hp
        rw [Standing.set_self] at hp
        cases hp
        exact .of_ended rfl rfl
      · refine h.chained.base_of_roots (fun {s' ctx} hc => ?_) fun hd => hd.of_get? (by simp [hhandles])
        rw [context?_modifyTask, hctx] at hc
        exact ⟨ctx, hc, rfl, (hrow' _).trans (if_neg (hroots hc))⟩
    case grouped =>
      refine (hadd .ended (by simp)).same (fun _ => rfl) (fun u => ?_) (by simp) fun hc => ⟨_, hc, rfl⟩
      rw [hrow', hrow]
      split <;> rfl

/-- The members of a group that is being opened get their tasks one after the other. -/
theorem Sound.startMembers {s t : Nat} {g : GroupRef} {x : Group} {w : World β σ} {l : Standing}
    (index : Nat) (cs : List CoroutineRef)
    (h : w.Sound l base (some g.id)) (ht : l t = some (s, .blocked g.id))
    (hx : w.groups.get? g.id = some x) (ha : x.awaitedBy = some t) :
    ∃ l' x', (w.startMembers s g index cs).Sound l' base (some g.id) ∧
      l' t = some (s, .blocked g.id) ∧ l'.After l s ∧
      (w.startMembers s g index cs).groups.get? g.id = some x' ∧ x'.handles = x.handles ∧
      x'.awaitedBy = some t ∧ x'.tasks.length = x.tasks.length + cs.length := by
  induction cs generalizing w l x index with
  | nil => exact ⟨l, x, h, ht, .refl l s, hx, rfl, ha, rfl⟩
  | cons c cs ih =>
      obtain ⟨p, hp, h', hx'⟩ := h.startMember index c ht hx ha
      have hnone := h.size_eq_none
      have hne : t ≠ w.tasks.size := (h.lt_size (by simp [ht])).ne
      obtain ⟨l', x', hs, ht', hl, hg, hh, ha', hlen⟩ :=
        ih (index + 1) h' ((Standing.set_of_ne _ _ _ hne).trans ht) hx' ha
      refine ⟨l', x', hs, ht', hl.trans (.set (fun s' q hq => by simp [hnone] at hq) hp), hg, hh,
        ha', ?_⟩
      · rw [hlen]
        simp only [List.length_append, List.length_cons, List.length_nil]
        omega

/-! ### Settling -/

/-- Tasks that all have an outcome can be gathered. -/
theorem gatherOutcomes_ok (returnExceptions : Bool) (tasks : List Task) (n : Nat)
    (h : ∀ x ∈ tasks, x.outcome.isSome = true) :
    ∃ result n', gatherOutcomes returnExceptions tasks n = (.ok result, n') := by
  induction tasks generalizing n with
  | nil => exact ⟨_, n, rfl⟩
  | cons x rest ih =>
      have hrest : ∀ y ∈ rest, y.outcome.isSome = true := fun y hy => h y (List.mem_cons_of_mem x hy)
      obtain ⟨o, ho⟩ := Option.isSome_iff_exists.mp (h x List.mem_cons_self)
      cases o with
      | ok v =>
          obtain ⟨result, n', e⟩ := ih n hrest
          exact ⟨result.map (v :: ·), n', by rw [gatherOutcomes, ho]; simp only [e]; rfl⟩
      | error r =>
          cases returnExceptions with
          | false => exact ⟨.error r, n, by rw [gatherOutcomes, ho]; rfl⟩
          | true =>
              obtain ⟨result, n', e⟩ := ih (n + 1) hrest
              exact ⟨result.map (.exception n r :: ·), n', by
                rw [gatherOutcomes, ho]; simp only [e]; rfl⟩

/-- A group whose members all have an outcome has one. -/
theorem settle_ok {g : GroupRef} {x : Group} (hx : w.groups.get? g.id = some x)
    (h : ∀ u ∈ x.tasks, (w.taskOutcome? u).isSome = true) :
    ∃ outcome n, w.settle g = (.ok outcome, { w with nextIdentity := n }) := by
  obtain ⟨result, n, e⟩ := gatherOutcomes_ok x.returnExceptions
    (x.tasks.filterMap w.tasks.get?) w.nextIdentity fun y hy => by
      obtain ⟨u, hu, hr⟩ := List.mem_filterMap.mp hy
      simpa [taskOutcome?_of_get? hr] using h u hu
  exact ⟨result.map .list, n, by simp only [settle, hx, e]; rfl⟩

/-- The members of a group that a task of a run awaits have an outcome when they have ended. -/
theorem Sound.outcome_iff {opened : Option Nat} (h : w.Sound l base opened) {g : Nat} {x : Group}
    {t s : Nat} {p : Place} (hx : w.groups.get? g = some x) (ha : x.awaitedBy = some t)
    (ht : l t = some (s, p)) {u : Nat} (hu : u ∈ x.tasks) :
    (w.taskOutcome? u).isSome = true ↔ l u = some (s, .ended) := by
  obtain ⟨q, hq⟩ := h.grouped.together hx ha ht hu
  obtain ⟨y, hy, hh⟩ := h.chained.holds hq
  rw [taskOutcome?_of_get? hy, hh.outcome, hq]
  simp

/-- A group that is being opened or closed is settled if all its members have ended, which makes
the task that awaits it ready; else that task goes on waiting. -/
theorem Sound.closeGroup {s t : Nat} {g : GroupRef} {x : Group}
    (h : w.Sound l base (some g.id)) (ht : l t = some (s, .blocked g.id))
    (hx : w.groups.get? g.id = some x) (ha : x.awaitedBy = some t)
    (hlen : x.tasks.length = x.handles.length) :
    ∃ w' l', w.closeGroup s g = (.ok (), w') ∧ w'.Sound l' base none ∧ l'.After l s := by
  by_cases hq : w.quiescent g = true
  · have hall := (quiescent_iff hx hlen).mp hq
    obtain ⟨outcome, n, hsettle⟩ := settle_ok hx hall
    obtain ⟨y, hy, hh⟩ := h.chained.holds ht
    obtain ⟨w₂, hres, hands⟩ := closeGroup_of_settle (s := s) hx ha hq hsettle hy
    have hctx : ∀ s', w₂.context? s' = (w.enqueue s t).context? s' :=
      context?_of_schedulers hands.schedulers
    have hl : ∀ s' q, l t = some (s', q) → s' = s ∧ q ≠ .ready := fun s' q e => by
      rw [ht] at e
      cases e
      exact ⟨rfl, nofun⟩
    refine ⟨w₂, l.set t s .ready, hres, ⟨?queued, ?chained, ?grouped⟩,
      .set (fun s' q e => (hl s' q e).1) nofun⟩
    case queued =>
      exact h.queued.set_ready (h.queued.active ht) hl fun s' =>
        (hctx s').trans (context?_enqueue ..)
    case chained =>
      refine h.chained.turn ht hy hands.rows (fun _ _ _ => by rw [hands.handles]) (fun _ => .inl) ?_ .inl
        fun hc => root_of_enqueue ((hctx _).symm.trans hc)
      refine hh.move nofun nofun rfl rfl rfl (fun c _ ho => ho.of_get? (by rw [hands.handles]))
        (fun _ _ => by rw [hands.handles]) fun c hc => ?_
      obtain ⟨ref, -, z, hz, hs, -⟩ := hh.head c hc
      exact ⟨z, hands.handles ▸ hz, .inr ⟨hs, by cases outcome <;> rfl⟩⟩
    case grouped =>
      have hset : w.Grouped (l.set t s .ready) none := by
        refine h.grouped.set ht nofun nofun ?_ nofun ?_
        · intro g' x' e hx' u hu
          cases e
          rw [hx] at hx'
          cases hx'
          exact (h.outcome_iff hx ha ht hu).mp (hall u hu)
        · intro g' x' u e _ hx' ha'
          cases e
          rw [hx] at hx'
          cases hx'
          exact ⟨Option.some.inj (ha'.symm.trans ha), hlen⟩
      exact hset.same (fun _ => by rw [hands.groups]) (map_group_of_row hy hands.rows rfl) hands.size fun hc =>
        hctx _ ▸ root_enqueue hc
  · refine ⟨w, l, by simp [World.closeGroup, hq], ⟨h.queued, h.chained, ?_⟩, .refl l s⟩
    refine h.grouped.close hx hlen ?_
    rw [quiescent_iff hx hlen] at hq
    push Not at hq
    obtain ⟨u, hu, hn⟩ := hq
    refine ⟨u, hu, fun s' e => hn ?_⟩
    obtain ⟨z, hz, hh⟩ := h.chained.holds e
    rw [taskOutcome?_of_get? hz, hh.outcome]

end World

end Coroutines
