import Coroutines.Proofs.Events.Story

/-!
# Joins in a story

The start and the end of a join are a bracket around what is told of the members: the task that has
joined a group is not told of in between, and every member that could be claimed ends in between, once.
Brackets that are open are closed by the time the root is over (`Story.bracketed`).
-/

namespace Coroutines

namespace Story

variable {ι : Type} {J : Occasions ι} {es new pre mid post : List Event}
  {next next' root p q n first : Nat} {st st' : Nat → Phase ι} {i : ι} {name : String}

/-! ### Members -/

/-- What is told of a member since it became a task: nothing if its coroutine was refused, and else its
end, once, if it is over. -/
structure Fate (q : Nat) (claim : Option Failure) (ph : Phase ι) (es : List Event) : Prop where
  refused : claim ≠ none → ph = .ended ∧ Silent q es
  going : claim = none → ph ≠ .ended → ∀ e ∈ es, ¬ e.Ends q
  ended : claim = none → ph = .ended → EndsOnce q es

theorem Fate.line {claim : Option Failure} (h : Fate q claim (st q) mid)
    (hl : Line J es next st new next' st') (hn : Numbered root next st) (hused : st q ≠ .unused) :
    Fate q claim (st' q) (mid ++ new) := by
  by_cases hover : st q = .ended
  · obtain ⟨hover', hsilent⟩ := hl.of_ended hn hover
    refine ⟨fun hc => ⟨hover', (h.refused hc).2.append hsilent⟩, fun _ hne => absurd hover' hne,
      fun hc _ => (h.ended hc hover).append hsilent⟩
  · have hclaim : claim = none := by
      by_contra hc
      exact hover (h.refused hc).1
    have hgoing := h.going hclaim hover
    rcases hl.of_not_ended hover (hn.used q hused).2 with ⟨hne, hends⟩ | ⟨hover', index, ok, rfl⟩
    · exact ⟨fun hc => absurd hclaim hc,
        fun _ _ e he => (List.mem_append.mp he).elim (hgoing e) (hends e), fun _ e => absurd e hne⟩
    · exact ⟨fun hc => absurd hclaim hc, fun _ hne => absurd hover' hne,
        fun _ _ => endsOnce_concat hgoing index ok⟩

/-! ### Brackets -/

/-- What is told since the members of what a task has joined became tasks, after some events: the joining
goes on, or it has ended, after the ends of all members. -/
inductive Bracket (J : Occasions ι) (st : Nat → Phase ι) (p first : Nat) (i : ι) (before : List Event) :
    List Event → Prop
  | open {mid : List Event} (h : Silent p mid) (hp : st p = .waiting first i)
      (hm : ∀ k m, (J.members i)[k]? = some m →
        st (first + k) ≠ .unused ∧ Fate (first + k) m.2 (st (first + k)) mid) :
      Bracket J st p first i before mid
  | closed {mid rest : List Event} {ok : Bool} (h : Silent p mid) (he : J.ends (before ++ mid) p i ok)
      (hm : ∀ k m, (J.members i)[k]? = some m →
        st (first + k) = .ended ∧ Fate (first + k) m.2 (st (first + k)) mid ∧ Silent (first + k) rest) :
      Bracket J st p first i before (mid ++ .joinEnd p ok :: rest)

/-- What is told next stays within the bracket, or closes it. -/
theorem Bracket.line {before : List Event} (h : Bracket J st p first i before mid)
    (hl : Line J es next st new next' st') (hn : Numbered root next st) (he : es = before ++ mid) :
    Bracket J st' p first i before (mid ++ new) := by
  cases h with
  | «open» h hp hm =>
      rcases hl.of_waiting hn hp with ⟨hp', hsilent⟩ | ⟨ok, rfl, rfl, ho, hover⟩
      · refine .open (h.append hsilent) hp' fun k m hk => ?_
        obtain ⟨hused, hfate⟩ := hm k m hk
        exact ⟨hl.used hn hused, hfate.line hl hn hused⟩
      · refine .closed h (he ▸ ho) fun k m hk => ?_
        have hk' := hover k (List.getElem?_eq_some_iff.mp hk).1
        have hne : first + k ≠ p := by
          intro e
          rw [e, hp] at hk'
          cases hk'
        rw [Function.update_of_ne hne]
        exact ⟨hk', (hm k m hk).2, nofun⟩
  | @closed mid rest ok h ho hm =>
      rw [List.append_assoc, List.cons_append]
      refine .closed h ho fun k m hk => ?_
      obtain ⟨hover, hfate, hrest⟩ := hm k m hk
      obtain ⟨hover', hsilent⟩ := hl.of_ended hn hover
      exact ⟨hover', by rw [hover']; rwa [hover] at hfate, hrest.append hsilent⟩

/-- A join is told by its start and the new tasks of the members. -/
theorem Line.of_joinStart (h : Line J es next st (pre ++ .joinStart p n :: post) next' st') :
    ∃ i, st p = .live ∧ J.starts es p i ∧ pre = [] ∧ n = (J.members i).length ∧
      post = spawns next ((J.members i).map Prod.fst) ∧ st' = enroll J st p next i := by
  generalize he : pre ++ .joinStart p n :: post = new at h
  have hmem : .joinStart p n ∈ new := he ▸ by simp
  cases h with
  | @join p' i hp hi =>
      cases pre with
      | nil =>
          cases he
          exact ⟨i, hp, hi, rfl, rfl, rfl, rfl⟩
      | cons d pre =>
          obtain ⟨-, he⟩ := List.cons.inj he
          have hspawn : .joinStart p n ∈ spawns next ((J.members i).map Prod.fst) := he ▸ by simp
          obtain ⟨k, _, -, e⟩ := mem_spawns hspawn
          cases e
  | _ => cases List.mem_singleton.mp hmem

/-- **Every join is a bracket**, which may still be open. -/
theorem bracket (h : Story J root name es next st) (he : es = pre ++ .joinStart p n :: post) :
    ∃ first i mid, J.starts pre p i ∧ n = (J.members i).length ∧ p < first ∧
      (∀ e ∈ pre, ∀ q, e.task? = some q → q < first) ∧
      post = spawns first ((J.members i).map Prod.fst) ++ mid ∧
      Bracket J st p first i (pre ++ .joinStart p n :: spawns first ((J.members i).map Prod.fst)) mid := by
  induction h generalizing post with
  | start => rcases pre with - | ⟨_, _ | _⟩ <;> simp at he
  | @more es new next next' st st' h hl ih =>
      have hn := h.numbered
      rcases append_eq_append_cons he with ⟨post', rfl, rfl⟩ | ⟨pre', rfl, rfl⟩
      · obtain ⟨first, i, mid, hstarts, hsize, hp, hfresh, rfl, hbracket⟩ := ih rfl
        exact ⟨first, i, mid ++ new, hstarts, hsize, hp, hfresh, List.append_assoc ..,
          hbracket.line hl hn (by simp)⟩
      · obtain ⟨i, hp, hi, rfl, rfl, rfl, rfl⟩ := hl.of_joinStart
        have hlt := (hn.used p (by simp [hp])).2
        refine ⟨next, i, [], by rwa [List.append_nil], rfl, hlt, fun e he q hq => ?_, by simp,
          .open nofun enroll_self fun k m hk => ?_⟩
        · rw [List.append_nil] at he
          exact (h.about he hq).2
        · rw [enroll_member hlt hk]
          rcases m with ⟨_, _ | f⟩
          · exact ⟨nofun, nofun, fun _ _ => nofun, nofun⟩
          · exact ⟨nofun, fun _ => ⟨rfl, nofun⟩, nofun, nofun⟩

/-! ### Matching ends -/

/-- A task comes to wait by a join, after which only the new tasks of the members are told of. -/
theorem Line.of_waits (h : Line J es next st new next' st') (hn : Numbered root next st)
    (hp : st' p = .waiting first i) (hold : ∀ first i, st p ≠ .waiting first i) :
    ∃ n mid, new = .joinStart p n :: mid ∧ Silent p mid := by
  cases h with
  | suspend => exact absurd hp (hold _ _)
  | @join p' i' hp' =>
      by_cases e : p = p'
      · subst e
        refine ⟨_, _, rfl, fun e he hq => ?_⟩
        have hlt := (hn.used p (by simp [hp'])).2
        obtain ⟨k, name, -, rfl⟩ := mem_spawns he
        cases hq
        omega
      · rw [enroll, if_neg e] at hp
        split at hp
        · exact absurd hp (hold _ _)
        · split at hp
          · exact absurd hp (hold _ _)
          · cases hp
          · cases hp
  | _ =>
      rw [Function.update_apply] at hp
      split at hp
      · cases hp
      · exact absurd hp (hold _ _)

/-- A task that waits has joined something, and nothing was told of it since. -/
theorem exists_start (h : Story J root name es next st) (hp : st p = .waiting first i) :
    ∃ pre n mid, es = pre ++ .joinStart p n :: mid ∧ Silent p mid := by
  induction h generalizing first i with
  | start =>
      rw [Function.update_apply] at hp
      split at hp <;> cases hp
  | @more es new next next' st st' h hl ih =>
      have hn := h.numbered
      by_cases hold : ∃ first i, st p = .waiting first i
      · obtain ⟨first', i', hp'⟩ := hold
        obtain ⟨pre, n, mid, rfl, hmid⟩ := ih hp'
        rcases hl.of_waiting hn hp' with ⟨-, hsilent⟩ | ⟨ok, -, rfl, -⟩
        · exact ⟨pre, n, mid ++ new, by simp, hmid.append hsilent⟩
        · simp at hp
      · obtain ⟨n, mid, rfl, hmid⟩ := hl.of_waits hn hp fun first i e => hold ⟨first, i, e⟩
        exact ⟨es, n, mid, rfl, hmid⟩

/-- The end of a join is told by itself, of a task that waits. -/
theorem Line.of_joinEnd {ok : Bool} (h : Line J es next st (pre ++ .joinEnd p ok :: post) next' st') :
    pre = [] ∧ ∃ first i, st p = .waiting first i := by
  generalize he : pre ++ .joinEnd p ok :: post = new at h
  have hmem : .joinEnd p ok ∈ new := he ▸ by simp
  cases h with
  | @join =>
      rcases List.mem_cons.mp hmem with e | hspawn
      · cases e
      · obtain ⟨k, _, -, e⟩ := mem_spawns hspawn
        cases e
  | @close q first i _ hq =>
      cases pre with
      | nil =>
          cases he
          exact ⟨rfl, first, i, hq⟩
      | cons d pre => simp at he
  | _ => cases List.mem_singleton.mp hmem

/-- **Every end of a join is that of the last join that its task began.** -/
theorem exists_start_of_end {ok : Bool} (h : Story J root name es next st)
    (he : es = pre ++ .joinEnd p ok :: post) :
    ∃ pre' n mid, pre = pre' ++ .joinStart p n :: mid ∧ Silent p mid := by
  induction h generalizing post with
  | start => rcases pre with - | ⟨_, _ | _⟩ <;> simp at he
  | @more es new next next' st st' h hl ih =>
      rcases append_eq_append_cons he with ⟨post', rfl, rfl⟩ | ⟨pre', rfl, rfl⟩
      · exact ih rfl
      · obtain ⟨rfl, first, i, hp⟩ := hl.of_joinEnd
        rw [List.append_nil]
        exact h.exists_start hp

/-! ### Whence tasks come -/

/-- A new task is that of the member at its place in a join. -/
theorem Line.of_taskSpawn {k : Nat} (h : Line J es next st (pre ++ .taskSpawn q k name :: post) next' st') :
    ∃ p i mid, pre = .joinStart p (J.members i).length :: mid ∧ J.starts es p i ∧ mid.length = k ∧
      k < (J.members i).length := by
  generalize he : pre ++ .taskSpawn q k name :: post = new at h
  have hmem : .taskSpawn q k name ∈ new := he ▸ by simp
  cases h with
  | @join p i hp hi =>
      cases pre with
      | nil => cases he
      | cons d mid =>
          rw [List.cons_append, List.cons.injEq] at he
          obtain ⟨rfl, he⟩ := he
          have hk : (spawns next ((J.members i).map Prod.fst))[mid.length]? = some (.taskSpawn q k name) := by
            rw [← he]
            simp
          rw [spawns, List.getElem?_mapIdx, Option.map_eq_some_iff] at hk
          obtain ⟨m, hm, e⟩ := hk
          injection e with _ hindex _
          have hlt := (List.getElem?_eq_some_iff.mp hm).1
          rw [List.length_map] at hlt
          exact ⟨p, i, mid, rfl, hi, hindex, hindex ▸ hlt⟩
  | _ => cases List.mem_singleton.mp hmem

/-- **Every new task is that of a member of the join that is told of just before.** -/
theorem exists_join_of_spawn {m : String} {k : Nat} (h : Story J root name es next st)
    (he : es = pre ++ .taskSpawn q k m :: post) :
    ∃ pre' p i mid, pre = pre' ++ .joinStart p (J.members i).length :: mid ∧ J.starts pre' p i ∧ mid.length = k ∧
      k < (J.members i).length := by
  induction h generalizing post with
  | start => rcases pre with - | ⟨_, _ | _⟩ <;> simp at he
  | @more es new next next' st st' h hl ih =>
      rcases append_eq_append_cons he with ⟨post', rfl, rfl⟩ | ⟨pre', rfl, rfl⟩
      · exact ih rfl
      · obtain ⟨p, i, mid, rfl, hk⟩ := hl.of_taskSpawn
        exact ⟨es, p, i, mid, rfl, hk⟩

/-! ### The end of the run -/

/-- A join and all that is told of it: the members become new tasks at once; the task that has joined them
is not told of until its joining ends; and of the members those are told of further that could be claimed,
which end once, within the bracket, and are not told of afterwards. -/
structure Bracketed (J : Occasions ι) (pre : List Event) (p n : Nat) (post : List Event) (i : ι)
    (first : Nat) (mid : List Event) (ok : Bool) (rest : List Event) : Prop where
  starts : J.starts pre p i
  size : n = (J.members i).length
  older : p < first
  fresh : ∀ e ∈ pre, ∀ q, e.task? = some q → q < first
  told : post = spawns first ((J.members i).map Prod.fst) ++ (mid ++ .joinEnd p ok :: rest)
  silent : Silent p mid
  ends : J.ends (pre ++ .joinStart p n :: (spawns first ((J.members i).map Prod.fst) ++ mid)) p i ok
  claimed : ∀ k name, (J.members i)[k]? = some (name, none) →
    EndsOnce (first + k) mid ∧ Silent (first + k) rest
  refused : ∀ k name f, (J.members i)[k]? = some (name, some f) →
    Silent (first + k) mid ∧ Silent (first + k) rest

/-- **Once the root is over, every join is a bracket.** -/
theorem bracketed (h : Story J root name es next st) (hroot : st root = .ended)
    (he : es = pre ++ .joinStart p n :: post) :
    ∃ i first mid ok rest, Bracketed J pre p n post i first mid ok rest := by
  obtain ⟨first, i, _, hstarts, hsize, hp, hfresh, hpost, hbracket⟩ := h.bracket he
  cases hbracket with
  | «open» _ hwaits =>
      have hover := h.ended_of_root hroot (q := p) (by simp [hwaits])
      rw [hwaits] at hover
      cases hover
  | @closed mid rest ok hsilent hends hm =>
      refine ⟨i, first, mid, ok, rest, hstarts, hsize, hp, hfresh, hpost, hsilent, by simpa using hends,
        fun k name hk => ?_, fun k name f hk => ?_⟩
      · obtain ⟨hover, hfate, hrest⟩ := hm k _ hk
        exact ⟨hfate.ended rfl hover, hrest⟩
      · obtain ⟨-, hfate, hrest⟩ := hm k _ hk
        exact ⟨(hfate.refused nofun).2, hrest⟩

end Story

end Coroutines
