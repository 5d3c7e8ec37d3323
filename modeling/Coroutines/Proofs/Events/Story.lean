import Coroutines.World
import Mathlib.Logic.Function.Basic

/-!
# What the events of a run tell

The events of a run tell a story of its tasks, which are numbered in the order in which they are made.  A
task suspends, joins a group, whose members become tasks, or ends; while it waits for the members to end
nothing is told of it, and once it has ended nothing is told of it any more (`Story`).  This module is
about lists of events only: which shape a story has, whoever tells it.
-/

namespace Coroutines

namespace Event

/-- The number of the task that an event is about. -/
def task? : Event → Option Nat
  | .taskSpawn t _ _ | .taskSuspend t _ | .taskEnd t _ _ | .joinStart t _ | .joinEnd t _ => some t
  | .runStart _ | .runEnd _ _ | .budgetExceeded _ => none

/-- An event is the end of a task. -/
def Ends (e : Event) (q : Nat) : Prop := ∃ index ok, e = .taskEnd q index ok

theorem Ends.task? {e : Event} {q : Nat} (h : e.Ends q) : e.task? = some q := by
  obtain ⟨index, ok, rfl⟩ := h
  rfl

end Event

/-- Nothing is told of a task. -/
def Silent (q : Nat) (es : List Event) : Prop := ∀ e ∈ es, e.task? ≠ some q

/-- A task ends once, and nothing is told of it afterwards. -/
def EndsOnce (q : Nat) (es : List Event) : Prop :=
  ∃ before index ok after, es = before ++ .taskEnd q index ok :: after ∧
    (∀ e ∈ before, ¬ e.Ends q) ∧ Silent q after

/-- The members of a group become tasks, numbered from `first` on. -/
def spawns (first : Nat) (names : List String) : List Event :=
  names.mapIdx fun k name => .taskSpawn (first + k) k name

section

variable {q : Nat} {es es' : List Event}

theorem Silent.append (h : Silent q es) (h' : Silent q es') : Silent q (es ++ es') :=
  fun e he => (List.mem_append.mp he).elim (h e) (h' e)

theorem EndsOnce.append (h : EndsOnce q es) (h' : Silent q es') : EndsOnce q (es ++ es') := by
  obtain ⟨before, index, ok, after, rfl, hb, ha⟩ := h
  exact ⟨before, index, ok, after ++ es', by simp, hb, ha.append h'⟩

theorem endsOnce_concat (h : ∀ e ∈ es, ¬ e.Ends q) (index : Nat) (ok : Bool) :
    EndsOnce q (es ++ [.taskEnd q index ok]) := ⟨es, index, ok, [], rfl, h, nofun⟩

theorem mem_spawns {first : Nat} {names : List String} {e : Event} (h : e ∈ spawns first names) :
    ∃ k name, k < names.length ∧ e = .taskSpawn (first + k) k name := by
  obtain ⟨k, hk, rfl⟩ := List.mem_mapIdx.mp h
  exact ⟨k, _, hk, rfl⟩

/-- No task ends while a group is joined. -/
theorem taskEnd_notMem_spawns {first index : Nat} {names : List String} {ok : Bool} :
    .taskEnd q index ok ∉ spawns first names := by
  intro h
  obtain ⟨k, name, -, e⟩ := mem_spawns h
  cases e

/-- An event of a list that was told in two parts is in the first or in the second one. -/
theorem append_eq_append_cons {α : Type} {es new pre post : List α} {e : α}
    (h : es ++ new = pre ++ e :: post) : (∃ post', es = pre ++ e :: post' ∧ post = post' ++ new) ∨
      ∃ pre', pre = es ++ pre' ∧ new = pre' ++ e :: post := by
  rcases List.append_eq_append_iff.mp h with ⟨pre', rfl, hnew⟩ | ⟨post', rfl, hpost⟩
  · exact .inr ⟨pre', rfl, hnew⟩
  · cases post' with
    | nil => exact .inr ⟨[], by simp, by simpa using hpost.symm⟩
    | cons d post' =>
        obtain ⟨rfl, rfl⟩ := List.cons.inj hpost
        exact .inl ⟨post', rfl, rfl⟩

end

/-- What may be joined: the names of the members' coroutines with the failures of the claims of them, when a
task joins it and how this ends. -/
structure Occasions (ι : Type) where
  members : ι → List (String × Option Failure)
  /-- After some events the task of a number joins it. -/
  starts : List Event → Nat → ι → Prop
  /-- After some events the joining ends for the task of a number, well or not. -/
  ends : List Event → Nat → ι → Bool → Prop

/-- What the task of a number has come to. -/
inductive Phase (ι : Type) where
  | unused
  | live
  /-- It waits for what it has joined, whose members are numbered from `first` on. -/
  | waiting (first : Nat) (i : ι)
  | ended

namespace Story

variable {ι : Type} {J : Occasions ι} {es new : List Event} {next next' root p q first : Nat}
  {st st' : Nat → Phase ι} {i : ι}

/-- A task waits, and the members of what it has joined are live, or over if their coroutines were
refused. -/
def enroll (J : Occasions ι) (st : Nat → Phase ι) (p first : Nat) (i : ι) : Nat → Phase ι := fun q =>
  if q = p then .waiting first i
  else if q < first then st q
  else match (J.members i)[q - first]? with
    | none => st q
    | some (_, none) => .live
    | some (_, some _) => .ended

/-- The next events of a story. -/
inductive Line (J : Occasions ι) (es : List Event) (next : Nat) (st : Nat → Phase ι) :
    List Event → Nat → (Nat → Phase ι) → Prop
  | suspend {p : Nat} (hp : st p = .live) (awaiting : String) :
    Line J es next st [.taskSuspend p awaiting] next st
  | join {p : Nat} {i : ι} (hp : st p = .live) (hi : J.starts es p i) :
    Line J es next st
      (.joinStart p (J.members i).length :: spawns next ((J.members i).map Prod.fst))
      (next + (J.members i).length) (enroll J st p next i)
  | close {p first : Nat} {i : ι} {ok : Bool} (hp : st p = .waiting first i)
    (hover : ∀ k < (J.members i).length, st (first + k) = .ended) (ho : J.ends es p i ok) :
    Line J es next st [.joinEnd p ok] next (Function.update st p .live)
  | finish {q : Nat} (hq : st q = .live) (index : Nat) (ok : Bool) :
    Line J es next st [.taskEnd q index ok] next (Function.update st q .ended)

end Story

/-- The events of a run up to some point, with the next number for a task and what all tasks have come
to. -/
inductive Story {ι : Type} (J : Occasions ι) (root : Nat) (name : String) :
    List Event → Nat → (Nat → Phase ι) → Prop
  | start : Story J root name [.runStart name] (root + 1)
      (Function.update (fun _ => .unused) root .live)
  | more {es new : List Event} {next next' : Nat} {st st' : Nat → Phase ι}
      (h : Story J root name es next st) (h' : Story.Line J es next st new next' st') :
      Story J root name (es ++ new) next' st'

namespace Story

variable {ι : Type} {J : Occasions ι} {es new : List Event} {next next' root p q first : Nat}
  {st st' : Nat → Phase ι} {i : ι} {name : String}

/-! ### Enrolled members -/

theorem enroll_self : enroll J st p first i p = .waiting first i := if_pos rfl

theorem enroll_of_lt (hq : q < first) (hne : q ≠ p) : enroll J st p first i q = st q := by
  rw [enroll, if_neg hne, if_pos hq]

theorem enroll_member {k : Nat} {m : String × Option Failure} (hp : p < first)
    (hm : (J.members i)[k]? = some m) :
    enroll J st p first i (first + k) = if m.2 = none then .live else .ended := by
  rw [enroll, if_neg (by omega), if_neg (by omega), Nat.add_sub_cancel_left, hm]
  rcases m with ⟨_, _ | f⟩ <;> rfl

theorem enroll_of_le (hp : p < first) (hq : first + (J.members i).length ≤ q) :
    enroll J st p first i q = st q := by
  rw [enroll, if_neg (by omega), if_neg (by omega), List.getElem?_eq_none (by omega)]

/-- A member is told of under its number. -/
theorem exists_member (hq : first ≤ q) (hlt : q < first + (J.members i).length) :
    ∃ k m, q = first + k ∧ (J.members i)[k]? = some m :=
  ⟨q - first, _, by omega, List.getElem?_eq_getElem (by omega)⟩

/-! ### One line -/

/-- The numbers of tasks that are used: from that of the root on, up to the next one. -/
structure Numbered (root next : Nat) (st : Nat → Phase ι) : Prop where
  used : ∀ q, st q ≠ .unused → root ≤ q ∧ q < next
  root : st root ≠ .unused

namespace Line

variable (h : Line J es next st new next' st') (hn : Numbered root next st)

include h

theorem next_le : next ≤ next' := by
  cases h with
  | join => exact Nat.le_add_right ..
  | _ => exact Nat.le_refl _

/-- Somebody is left to tell it. -/
theorem exists_busy : ∃ p, st p ≠ .unused ∧ st p ≠ .ended := by
  cases h with
  | suspend hp => exact ⟨_, ne_of_eq_of_ne hp nofun, ne_of_eq_of_ne hp nofun⟩
  | join hp => exact ⟨_, ne_of_eq_of_ne hp nofun, ne_of_eq_of_ne hp nofun⟩
  | close hp => exact ⟨_, ne_of_eq_of_ne hp nofun, ne_of_eq_of_ne hp nofun⟩
  | finish hp => exact ⟨_, ne_of_eq_of_ne hp nofun, ne_of_eq_of_ne hp nofun⟩

/-- Told of are tasks that are not over, and new ones. -/
theorem about {e : Event} (he : e ∈ new) :
    ∃ q, e.task? = some q ∧ (st q ≠ .unused ∧ st q ≠ .ended ∨ next ≤ q ∧ q < next') := by
  cases h with
  | @suspend p hp => exact ⟨p, by rw [List.mem_singleton.mp he]; rfl, .inl (by simp [hp])⟩
  | @close p _ _ _ hp => exact ⟨p, by rw [List.mem_singleton.mp he]; rfl, .inl (by simp [hp])⟩
  | @finish p hp => exact ⟨p, by rw [List.mem_singleton.mp he]; rfl, .inl (by simp [hp])⟩
  | @join p i hp =>
      rcases List.mem_cons.mp he with rfl | he
      · exact ⟨p, rfl, .inl (by simp [hp])⟩
      · obtain ⟨k, name, hk, rfl⟩ := mem_spawns he
        rw [List.length_map] at hk
        exact ⟨next + k, rfl, .inr (by omega)⟩

/-- A task that is not over goes on, or this line tells of its end only. -/
theorem of_not_ended (hq : st q ≠ .ended) (hlt : q < next) :
    st' q ≠ .ended ∧ (∀ e ∈ new, ¬ e.Ends q) ∨ st' q = .ended ∧ ∃ index ok, new = [.taskEnd q index ok] := by
  cases h with
  | suspend => exact .inl ⟨hq, by simp [Event.Ends]⟩
  | @join p i hp =>
      refine .inl ⟨?_, fun e he => ?_⟩
      · by_cases hne : q = p
        · rw [hne, enroll_self]
          nofun
        · rwa [enroll_of_lt hlt hne]
      · rintro ⟨index, ok, rfl⟩
        rcases List.mem_cons.mp he with e | he
        · cases e
        · obtain ⟨k, name, -, e⟩ := mem_spawns he
          cases e
  | @close p =>
      refine .inl ⟨?_, by simp [Event.Ends]⟩
      rw [Function.update_apply]
      split
      · nofun
      · exact hq
  | @finish p hp index ok =>
      by_cases hne : q = p
      · subst hne
        exact .inr ⟨Function.update_self .., index, ok, rfl⟩
      · refine .inl ⟨by rwa [Function.update_of_ne hne], ?_⟩
        rintro e he ⟨_, _, rfl⟩
        cases List.mem_singleton.mp he
        exact hne rfl

include hn

/-- A task that is over stays so, and nothing is told of it. -/
theorem of_ended (hq : st q = .ended) : st' q = .ended ∧ Silent q new := by
  have hlt := (hn.used q (by simp [hq])).2
  refine ⟨?_, fun e he hquery => ?_⟩
  · cases h with
    | suspend => exact hq
    | @join p i hp => rw [enroll_of_lt hlt (by rintro rfl; simp [hp] at hq), hq]
    | @close p _ _ _ hp => rw [Function.update_of_ne (by rintro rfl; simp [hp] at hq), hq]
    | @finish p hp => rw [Function.update_of_ne (by rintro rfl; simp [hp] at hq), hq]
  · obtain ⟨r, hr, hcase⟩ := h.about he
    cases hquery.symm.trans hr
    rcases hcase with ⟨-, hne⟩ | ⟨hle, -⟩
    · exact hne hq
    · omega

/-- A number that is used stays so. -/
theorem used (hq : st q ≠ .unused) : st' q ≠ .unused := by
  cases h with
  | suspend => exact hq
  | @join p i hp =>
      by_cases e : q = p
      · rw [e, enroll_self]
        nofun
      · rwa [enroll_of_lt (hn.used q hq).2 e]
  | _ =>
      rw [Function.update_apply]
      split
      · nofun
      · exact hq

/-- A number comes into use for a member of what a task joins. -/
theorem exists_joins (hq : st q = .unused) (hq' : st' q ≠ .unused) :
    ∃ p i, st' p = .waiting next i ∧ p < next ∧ next ≤ q ∧ q < next + (J.members i).length := by
  cases h with
  | suspend => exact absurd hq hq'
  | @join p i hp =>
      have hlt := (hn.used p (by simp [hp])).2
      have hne : q ≠ p := by
        rintro rfl
        simp [hp] at hq
      refine ⟨p, i, enroll_self, hlt, ?_, ?_⟩
      · by_contra hle
        exact hq' (by rw [enroll_of_lt (by omega) hne, hq])
      · by_contra hlt'
        exact hq' (by rw [enroll_of_le hlt (by omega), hq])
  | close hp | finish hp =>
      rw [Function.update_of_ne (by rintro rfl; simp [hp] at hq)] at hq'
      exact absurd hq hq'

/-- A task that waits does so until its members are over and its joining ends. -/
theorem of_waiting (hp : st p = .waiting first i) : st' p = .waiting first i ∧ Silent p new ∨
    ∃ ok, new = [.joinEnd p ok] ∧ st' = Function.update st p .live ∧ J.ends es p i ok ∧
      ∀ k < (J.members i).length, st (first + k) = .ended := by
  have hlt := (hn.used p (by simp [hp])).2
  cases h with
  | @suspend q hq =>
      refine .inl ⟨hp, fun e he hquery => ?_⟩
      cases List.mem_singleton.mp he
      cases hquery
      simp [hp] at hq
  | @join q i' hq =>
      have hne : p ≠ q := by
        rintro rfl
        simp [hp] at hq
      refine .inl ⟨by rw [enroll_of_lt hlt hne, hp], fun e he hquery => ?_⟩
      rcases List.mem_cons.mp he with rfl | he
      · cases hquery
        exact hne rfl
      · obtain ⟨k, name, -, rfl⟩ := mem_spawns he
        cases hquery
        omega
  | @close q first' i' ok hq hover ho =>
      by_cases hne : p = q
      · subst hne
        cases hp.symm.trans hq
        exact .inr ⟨ok, rfl, rfl, ho, hover⟩
      · refine .inl ⟨by rw [Function.update_of_ne hne, hp], fun e he hquery => ?_⟩
        cases List.mem_singleton.mp he
        cases hquery
        exact hne rfl
  | @finish q hq =>
      have hne : p ≠ q := by
        rintro rfl
        simp [hp] at hq
      refine .inl ⟨by rw [Function.update_of_ne hne, hp], fun e he hquery => ?_⟩
      cases List.mem_singleton.mp he
      cases hquery
      exact hne rfl

theorem numbered : Numbered root next' st' := by
  have hused : ∀ {r : Nat} {ph : Phase ι}, st r ≠ .unused → ph ≠ .unused →
      Numbered root next (Function.update st r ph) := by
    intro r ph hr hph
    refine ⟨fun q hq => ?_, ?_⟩
    · by_cases e : q = r
      · exact e ▸ hn.used r hr
      · exact hn.used q (by rwa [Function.update_of_ne e] at hq)
    · by_cases e : root = r
      · subst e
        rwa [Function.update_self]
      · rw [Function.update_of_ne e]
        exact hn.root
  cases h with
  | suspend => exact hn
  | close hp => exact hused (by simp [hp]) nofun
  | finish hq => exact hused (by simp [hq]) nofun
  | @join p i hp =>
      have hlt := (hn.used p (by simp [hp])).2
      obtain ⟨-, hroot⟩ := hn.used root hn.root
      refine ⟨fun q hq => ?_, ?_⟩
      · by_cases hle : next + (J.members i).length ≤ q
        · rw [enroll_of_le hlt hle] at hq
          exact absurd (hn.used q hq).2 (by omega)
        · by_cases hq' : q < next
          · by_cases e : q = p
            · obtain ⟨h₁, h₂⟩ := hn.used p (by simp [hp])
              omega
            · rw [enroll_of_lt hq' e] at hq
              obtain ⟨h₁, h₂⟩ := hn.used q hq
              omega
          · omega
      · by_cases e : root = p
        · rw [e, enroll_self]
          nofun
        · rw [enroll_of_lt hroot e]
          exact hn.root

end Line

/-! ### The story as a whole -/

section

variable (h : Story J root name es next st)

include h

theorem numbered : Numbered root next st := by
  induction h with
  | start =>
      refine ⟨fun q hq => ?_, by simp⟩
      by_cases e : q = root
      · omega
      · simp [Function.update_of_ne e] at hq
  | more _ hl ih => exact hl.numbered ih

/-- The story is about tasks whose numbers are used. -/
theorem about {e : Event} (he : e ∈ es) (hq : e.task? = some q) : root ≤ q ∧ q < next := by
  induction h with
  | start =>
      cases List.mem_singleton.mp he
      cases hq
  | more h hl ih =>
      have hle := hl.next_le
      rcases List.mem_append.mp he with he | he
      · have := ih he
        omega
      · obtain ⟨r, hr, hcase⟩ := hl.about he
        cases hq.symm.trans hr
        obtain ⟨-, hroot⟩ := h.numbered.used root h.numbered.root
        rcases hcase with ⟨hused, -⟩ | hnew
        · have := h.numbered.used q hused
          omega
        · omega

/-- It begins with the start of the run, and all else in it is about tasks. -/
theorem exists_body : ∃ body, es = .runStart name :: body ∧ ∀ e ∈ body, e.task? ≠ none := by
  induction h with
  | start => exact ⟨[], rfl, nofun⟩
  | @more es new _ _ _ _ _ hl ih =>
      obtain ⟨body, rfl, hbody⟩ := ih
      refine ⟨body ++ new, rfl, fun e he => (List.mem_append.mp he).elim (hbody e) fun he => ?_⟩
      obtain ⟨q, hq, -⟩ := hl.about he
      simp [hq]

/-- A task of which an end is told is over. -/
theorem ended_of_ends {e : Event} (he : e ∈ es) (hq : e.Ends q) : st q = .ended := by
  induction h with
  | start =>
      cases List.mem_singleton.mp he
      cases hq.task?
  | @more es new next _ st st' h hl ih =>
      rcases List.mem_append.mp he with he | he
      · exact (hl.of_ended h.numbered (ih he)).1
      · by_contra hne
        have hover : st q ≠ .ended := fun e => hne (hl.of_ended h.numbered e).1
        obtain ⟨r, hr, hcase⟩ := hl.about he
        cases hq.task?.symm.trans hr
        rcases hcase with ⟨hused, -⟩ | ⟨hle, hlt⟩
        · rcases hl.of_not_ended hover (h.numbered.used q hused).2 with ⟨-, hends⟩ | ⟨e, -⟩
          · exact hends e he hq
          · exact hne e
        · obtain ⟨index, ok, rfl⟩ := hq
          cases hl with
          | suspend hp => simp at he
          | close hp => simp at he
          | finish hp => omega
          | join hp =>
              rcases List.mem_cons.mp he with e | he
              · cases e
              · obtain ⟨k, name, -, e⟩ := mem_spawns he
                cases e

/-! ### The tree of the tasks -/

/-- Every task but the root that is not over is a member of what an older task waits for. -/
theorem exists_parent (hq : q ≠ root) (hused : st q ≠ .unused) (hover : st q ≠ .ended) :
    ∃ p first i, st p = .waiting first i ∧ p < first ∧ first ≤ q ∧
      q < first + (J.members i).length := by
  induction h with
  | start => simp [Function.update_of_ne hq] at hused
  | @more es new next next' st st' h hl ih =>
      have hn := h.numbered
      by_cases hold : st q = .unused
      · obtain ⟨p, i, hp, hmember⟩ := hl.exists_joins hn hold hused
        exact ⟨p, next, i, hp, hmember⟩
      · have hbusy : st q ≠ .ended := fun e => hover (hl.of_ended hn e).1
        obtain ⟨p, first, i, hp, hlt, hle, hlt'⟩ := ih hold hbusy
        rcases hl.of_waiting hn hp with ⟨hp', -⟩ | ⟨-, -, -, -, hall⟩
        · exact ⟨p, first, i, hp', hlt, hle, hlt'⟩
        · -- a joining ends when its members are over, and the task is one of them
          obtain ⟨k, _, rfl, hk⟩ := exists_member hle hlt'
          exact absurd (hall k (List.getElem?_eq_some_iff.mp hk).1) hbusy

/-- **The root is over last.** -/
theorem ended_of_root (hroot : st root = .ended) (hused : st q ≠ .unused) : st q = .ended := by
  induction q using Nat.strongRecOn with
  | ind q ih =>
      by_contra hover
      have hne : q ≠ root := by
        rintro rfl
        exact hover hroot
      obtain ⟨p, first, i, hp, hlt, hle, -⟩ := h.exists_parent hne hused hover
      have := ih p (by omega) (by simp [hp])
      simp [hp] at this

/-- The end of the root is the last that is told. -/
theorem exists_end (hroot : st root = .ended) : ∃ before index ok,
    es = before ++ [.taskEnd root index ok] ∧ ∀ e ∈ before, ¬ e.Ends root := by
  induction h with
  | start => simp at hroot
  | @more es new next next' st st' h hl ih =>
      have hn := h.numbered
      have hlt := (hn.used root hn.root).2
      by_cases hover : st root = .ended
      · -- nobody is left to tell anything
        obtain ⟨p, hused, hbusy⟩ := hl.exists_busy
        exact absurd (h.ended_of_root hover hused) hbusy
      · rcases hl.of_not_ended hover hlt with ⟨hne, -⟩ | ⟨-, index, ok, rfl⟩
        · exact absurd hroot hne
        · exact ⟨es, index, ok, rfl, fun e he hends => hover (h.ended_of_ends he hends)⟩

end

end Story

end Coroutines
