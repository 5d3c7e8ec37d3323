import Coroutines.Proofs.Exact
import Coroutines.Proofs.Format.Rounding
import Coroutines.Trace.Summary
import Mathlib.Data.List.Induction

/-!
# What a summary says of the last run

Counting a line overwrites a field or leaves it, so after all lines each field is what the last line
that writes it made of it (`Summary.read_foldl`).  The lines that end a run write the outcome and the
end time, those that start one write the start time and nothing else; so where the last run of a file
has no end, its summary tells the end of an earlier run (`Summary.ofLines?_lastRun`).
-/

namespace Coroutines

/-! ### Differences of instants -/

namespace Number

/-- Rounding keeps the sign of a count of units. -/
theorem lt_zero_ofUnits (u : Int) : (ofUnits u).lt .zero = true ↔ u < 0 := by
  rw [zero_eq, ofUnits]
  split
  · exact decide_eq_true_iff
  · rw [ofRatio]
    split
    · by_cases hu : u < 0
      · have hpos : Nat.pow 2 0 ≤ roundSignificant u.natAbs 1 :=
          two_pow_le_roundSignificant (by rw [Nat.div_one]; simp only [Nat.pow_eq]; omega)
        simp only [hu, decide_true, if_true, lt, decide_eq_true_eq, iff_true]
        simp only [Nat.pow_eq] at hpos
        omega
      · simp only [hu, decide_false, Bool.false_eq_true, if_false, lt, decide_eq_true_eq, iff_false]
        omega
    · simp only [lt, decide_eq_true_eq]

theorem sub_ofInt_lt_zero {x y : Int} (hx : x.natAbs ≤ maxExact) (hy : y.natAbs ≤ maxExact) :
    ((ofInt y).sub (ofInt x)).lt .zero = true ↔ y < x := by
  have hone : (0 : Int) < one := Int.natCast_pos.mpr one_pos
  rw [ofInt_of_representable (representable_mul_one hx),
    ofInt_of_representable (representable_mul_one hy)]
  refine (lt_zero_ofUnits (y * one + -(x * one))).trans ⟨fun h => ?_, fun h => ?_⟩
  · exact Int.lt_of_mul_lt_mul_right (a := one) (by omega) (Int.le_of_lt hone)
  · have := Int.mul_lt_mul_of_pos_right h hone
    omega

end Number

/-- Instants are exact numbers. -/
theorem Instant.natAbs_le_of_ofText? {s : String} {ms : Int} (h : ofText? s = some ms) :
    ms.natAbs ≤ Number.maxExact := by
  have hbound : ∀ z : Int, (if z.natAbs ≤ 8640000000000000 then some z else none) = some ms →
      ms.natAbs ≤ Number.maxExact := by
    intro z hz
    split at hz
    · next hle => exact Option.some.inj hz ▸ Nat.le_trans hle (by decide)
    · cases hz
  simp only [ofText?, bind, Option.bind_eq_some_iff] at h
  obtain ⟨_, _, _, _, ⟨_, rest⟩, _, h⟩ := h
  cases rest with
  | nil => exact hbound _ h
  | cons c rest =>
    dsimp only at h
    split at h
    · simp only [Option.bind_eq_some_iff] at h
      obtain ⟨_, _, _, _, _, _, h⟩ := h
      exact hbound _ h
    · cases h

/-! ### The last line of a kind -/

namespace TraceLine

variable (l : TraceLine)

/-- The line starts a run. -/
def begins : Bool := l.event = "run_start"

/-- The line ends a run. -/
def ends : Bool := l.event = "run_end"

/-- The line says that a run is over, by its end or by its step limit. -/
def stops : Bool := l.event = "run_end" ∨ l.event = "budget_exceeded"

/-- How the run ended, by the line that says so. -/
def verdict : RunVerdict :=
  if l.event = "run_end" ∧ l.datum? "outcome" = some (.text "ok") then .ok else .err

theorem verdict_ne_incomplete : l.verdict ≠ .incomplete := by
  unfold verdict
  split <;> exact fun h => by cases h

theorem ends_of_begins {l : TraceLine} (h : l.begins = true) : l.ends = false := by
  simp only [begins, decide_eq_true_eq] at h
  simp [ends, h]

theorem stops_of_begins {l : TraceLine} (h : l.begins = true) : l.stops = false := by
  simp only [begins, decide_eq_true_eq] at h
  simp [stops, h]

def instant? : Option Int := Instant.ofText? l.time

/-- The line was written at an earlier instant than another one. -/
def Earlier (k : TraceLine) : Prop := ∃ x ∈ l.instant?, ∃ y ∈ k.instant?, x < y

end TraceLine

open TraceLine

/-- Every line has an instant, and none was written earlier than a line before it. -/
def Chronological (lines : List TraceLine) : Prop :=
  (∀ l ∈ lines, l.instant?.isSome) ∧ lines.Pairwise fun a b => ¬ b.Earlier a

namespace TraceLine

variable {l k : TraceLine}

/-- An instant has a text. -/
theorem time_ne_empty (h : l.instant?.isSome) : l.time ≠ "" := by
  intro e
  rw [instant?, e] at h
  exact absurd h (by decide)

theorem number_time {x : Int} (h : l.instant? = some x) : Instant.number l.time = .ofInt x := by
  rw [Instant.number, show Instant.ofText? l.time = some x from h]
  rfl

/-- The milliseconds from one line to another are negative where the other is the earlier one. -/
theorem duration_lt_zero (hl : l.instant?.isSome) (hk : k.instant?.isSome) :
    ((Instant.number k.time).sub (Instant.number l.time)).lt .zero = true ↔ k.Earlier l := by
  obtain ⟨x, hx⟩ := Option.isSome_iff_exists.mp hl
  obtain ⟨y, hy⟩ := Option.isSome_iff_exists.mp hk
  rw [number_time hx, number_time hy, Number.sub_ofInt_lt_zero (Instant.natAbs_le_of_ofText? hx)
    (Instant.natAbs_le_of_ofText? hy)]
  simp only [Earlier, hx, hy, Option.mem_def, Option.some.injEq, exists_eq_left']

end TraceLine

/-- The last line of a kind. -/
def lastLine? (p : TraceLine → Bool) (lines : List TraceLine) : Option TraceLine :=
  lines.reverse.find? p

section LastLine

variable {p : TraceLine → Bool} {lines before rest : List TraceLine} {l : TraceLine}

theorem lastLine?_append : lastLine? p (before ++ rest) =
    (lastLine? p rest).or (lastLine? p before) := by
  rw [lastLine?, List.reverse_append, List.find?_append, lastLine?, lastLine?]

/-- A line of another kind in the middle does not matter. -/
theorem lastLine?_append_cons (hl : p l = false) : lastLine? p (before ++ l :: rest) =
    (lastLine? p rest).or (lastLine? p before) := by
  rw [lastLine?_append]
  congr 1
  rw [lastLine?, List.reverse_cons, List.find?_append]
  simp [lastLine?, hl]

theorem lastLine?_eq_none : lastLine? p lines = none ↔ ∀ l ∈ lines, p l = false := by
  simp only [lastLine?, List.find?_eq_none, List.mem_reverse, Bool.not_eq_true]

theorem lastLine?_eq_some : lastLine? p lines = some l ↔
    ∃ before rest, lines = before ++ l :: rest ∧ p l = true ∧ ∀ k ∈ rest, p k = false := by
  simp only [lastLine?, List.find?_eq_some_iff_append, Bool.not_eq_true', List.reverse_eq_append_iff,
    List.reverse_cons, List.append_assoc, List.singleton_append]
  constructor
  · rintro ⟨hl, rest, before, rfl, hrest⟩
    exact ⟨_, _, rfl, hl, fun k hk => hrest k (List.mem_reverse.mp hk)⟩
  · rintro ⟨before, rest, rfl, hl, hrest⟩
    refine ⟨hl, rest.reverse, before.reverse, ?_, fun k hk => hrest k (List.mem_reverse.mp hk)⟩
    rw [List.reverse_reverse, List.reverse_reverse]

theorem mem_of_lastLine? (h : lastLine? p lines = some l) : l ∈ lines :=
  List.mem_reverse.mp (List.mem_of_find?_eq_some h)

/-- In lines in order of time, the last one of a kind is of an earlier instant than a line of another
kind exactly where it stands before it and is of an earlier instant. -/
theorem earlier_iff_of_lastLine? {last : TraceLine} (hc : Chronological (before ++ l :: rest))
    (h : (lastLine? p rest).or (lastLine? p before) = some last) : last.Earlier l ↔
      (∀ k ∈ rest, p k = false) ∧ ∃ k, lastLine? p before = some k ∧ k.Earlier l := by
  cases hr : lastLine? p rest with
  | none =>
    rw [hr, Option.none_or] at h
    exact ⟨fun he => ⟨lastLine?_eq_none.mp hr, last, h, he⟩,
      fun ⟨_, k, hk, he⟩ => Option.some.inj (h.symm.trans hk) ▸ he⟩
  | some k =>
    obtain ⟨-, -, -, hk, -⟩ := lastLine?_eq_some.mp hr
    have hin : k ∈ rest := mem_of_lastLine? hr
    rw [hr, Option.some_or] at h
    obtain rfl := Option.some.inj h
    refine iff_of_false ?_ fun hnone => ?_
    · exact (List.pairwise_cons.mp (List.pairwise_append.mp hc.2).2.1).1 k hin
    · rw [hnone.1 k hin] at hk
      cases hk

end LastLine

/-! ### Counting lines -/

namespace Summary

variable (s : Summary) (l : TraceLine)

theorem outcome_count : (s.count l).outcome = if l.stops then l.verdict else s.outcome := by
  unfold count stops verdict
  split <;> (try split) <;> simp_all

theorem startTime_count : (s.count l).times.get? "startTime" =
    if l.begins then some l.time else s.times.get? "startTime" := by
  unfold count begins
  split <;> (try split) <;> simp_all [Bindings.get?_set]

theorem endTime_count : (s.count l).times.get? "endTime" =
    if l.ends then some l.time else s.times.get? "endTime" := by
  unfold count ends
  split <;> (try split) <;> simp_all [Bindings.get?_set]

variable {s}

/-- What lines of one kind overwrite and no other line changes is what the last of them wrote. -/
theorem read_foldl {α : Type} (read : Summary → α) {p : TraceLine → Bool} {value : TraceLine → α}
    (hread : ∀ s l, read (s.count l) = if p l then value l else read s) (s : Summary)
    (lines : List TraceLine) :
    read (lines.foldl count s) = ((lastLine? p lines).map value).getD (read s) := by
  induction lines using List.reverseRecOn with
  | nil => rfl
  | append_singleton lines l ih =>
    rw [List.foldl_append, List.foldl_cons, List.foldl_nil, hread, lastLine?_append, ih]
    cases hl : p l <;> simp [lastLine?, hl]

variable {lines : List TraceLine} {skipped : Nat}

theorem outcome_of_ofLines? (h : ofLines? lines skipped = some s) :
    s.outcome = ((lastLine? stops lines).map verdict).getD .incomplete := by
  obtain ⟨first, -, rfl⟩ := Option.map_eq_some_iff.mp h
  exact read_foldl outcome outcome_count _ lines

theorem startTime_of_ofLines? (h : ofLines? lines skipped = some s) :
    s.times.get? "startTime" = (lastLine? begins lines).map TraceLine.time := by
  obtain ⟨first, -, rfl⟩ := Option.map_eq_some_iff.mp h
  rw [read_foldl (fun s => s.times.get? "startTime") startTime_count _ lines]
  cases lastLine? begins lines <;> rfl

theorem endTime_of_ofLines? (h : ofLines? lines skipped = some s) :
    s.times.get? "endTime" = (lastLine? ends lines).map TraceLine.time := by
  obtain ⟨first, -, rfl⟩ := Option.map_eq_some_iff.mp h
  rw [read_foldl (fun s => s.times.get? "endTime") endTime_count _ lines]
  cases lastLine? ends lines <;> rfl

/-- The duration is that from the last start of a run to the last end of one. -/
theorem duration_of_ofLines? (h : ofLines? lines skipped = some s) (hc : Chronological lines) :
    s.duration? = (lastLine? begins lines).bind fun first => (lastLine? ends lines).map fun last =>
      (Instant.number last.time).sub (Instant.number first.time) := by
  have hkept : ∀ {p l}, lastLine? p lines = some l →
      (some l.time).filter (fun time => decide (time ≠ "")) = some l.time := by
    intro p l hl
    rw [Option.filter_some, if_pos]
    exact decide_eq_true (time_ne_empty (hc.1 l (mem_of_lastLine? hl)))
  rw [duration?, startTime_of_ofLines? h, endTime_of_ofLines? h]
  cases hb : lastLine? begins lines with
  | none => rfl
  | some first =>
    cases he : lastLine? ends lines with
    | none => simp only [Option.map_some, hkept hb, Option.map_none, Option.filter_none]; rfl
    | some last => simp only [Option.map_some, hkept hb, hkept he]; rfl

/-- **The last run in a summary.**  Of lines in order of time, let `first` be the last that starts a
run.  The outcome is told by the last line behind it that says how a run ended and, for want of one,
by the last such line before it: a run that was cut off makes the summary incomplete only where no
earlier run ended.  A duration is negative exactly where no end of a run follows `first` and the
last one before it is of an earlier instant.  Without a start of a run there is no duration. -/
theorem ofLines?_lastRun (h : ofLines? lines skipped = some s) (hc : Chronological lines) :
    ((∀ l ∈ lines, l.begins = false) ∧ s.duration? = none) ∨
      ∃ before first rest, lines = before ++ first :: rest ∧ first.begins = true ∧
        (∀ l ∈ rest, l.begins = false) ∧
        s.outcome = (((lastLine? stops rest).or (lastLine? stops before)).map verdict).getD
          .incomplete ∧
        ((∀ l ∈ rest, l.stops = false) →
          (s.outcome = .incomplete ↔ ∀ l ∈ before, l.stops = false)) ∧
        ∀ d, s.duration? = some d → (d.lt .zero = true ↔
          (∀ l ∈ rest, l.ends = false) ∧
            ∃ last, lastLine? ends before = some last ∧ last.Earlier first) := by
  have hd := duration_of_ofLines? h hc
  cases hb : lastLine? begins lines with
  | none =>
    rw [hb] at hd
    exact .inl ⟨lastLine?_eq_none.mp hb, hd⟩
  | some first =>
    obtain ⟨before, rest, rfl, hfirst, hrest⟩ := lastLine?_eq_some.mp hb
    have houtcome := outcome_of_ofLines? h
    rw [lastLine?_append_cons (stops_of_begins hfirst)] at houtcome
    refine .inr ⟨before, first, rest, rfl, hfirst, hrest, houtcome, fun hcut => ?_, fun d hsome => ?_⟩
    · rw [houtcome, lastLine?_eq_none.mpr hcut, Option.none_or, ← lastLine?_eq_none]
      cases hs : lastLine? stops before with
      | none => simp
      | some l => simpa using verdict_ne_incomplete l
    · rw [hd, hb, Option.bind_some] at hsome
      obtain ⟨last, hlast, rfl⟩ := Option.map_eq_some_iff.mp hsome
      rw [duration_lt_zero (hc.1 _ (mem_of_lastLine? hb)) (hc.1 _ (mem_of_lastLine? hlast))]
      rw [lastLine?_append_cons (ends_of_begins hfirst)] at hlast
      exact earlier_iff_of_lastLine? hc hlast

/-- A file with a run that succeeded and one that was cut off. -/
def cutOffLines : List TraceLine :=
  [.ofEvent "2026-01-01T00:00:00.000Z" "r1" (.runStart "main"),
    .ofEvent "2026-01-01T00:00:00.001Z" "r1" (.runEnd true 1),
    .ofEvent "2026-01-01T00:00:00.002Z" "r1" (.runStart "main")]

/-- Its summary tells a success that took less than no time. -/
theorem cutOffLines_lastRun : Chronological cutOffLines ∧ ∃ s, ofLines? cutOffLines 0 = some s ∧
    s.outcome = .ok ∧ ∃ d, s.duration? = some d ∧ d.lt .zero = true := by
  have h0 : Instant.ofText? "2026-01-01T00:00:00.000Z" = some 1767225600000 := by decide +kernel
  have h1 : Instant.ofText? "2026-01-01T00:00:00.001Z" = some 1767225600001 := by decide +kernel
  have h2 : Instant.ofText? "2026-01-01T00:00:00.002Z" = some 1767225600002 := by decide +kernel
  have hc : Chronological cutOffLines := by
    simp [Chronological, cutOffLines, Earlier, instant?, ofEvent, h0, h1, h2]
  have hs : ofLines? cutOffLines 0 = some (cutOffLines.foldl count (start "r1" 3 0)) := rfl
  refine ⟨hc, _, hs, ?_⟩
  obtain ⟨hnone, -⟩ | ⟨before, first, rest, hlines, hfirst, hrest, houtcome, -, hd⟩ :=
    ofLines?_lastRun hs hc
  · exact absurd (hnone _ (List.mem_cons_self ..)) (by decide)
  · -- the last start of a run is the third line
    rcases before with _ | ⟨a, _ | ⟨b, _ | ⟨c, before⟩⟩⟩ <;>
      simp only [cutOffLines, List.nil_append, List.cons_append, List.cons.injEq] at hlines
    · obtain ⟨rfl, rfl⟩ := hlines
      exact absurd (hrest _ (List.mem_cons_of_mem _ (List.mem_cons_self ..))) (by decide)
    · obtain ⟨rfl, rfl, rfl⟩ := hlines
      exact absurd hfirst (by decide)
    · obtain ⟨rfl, rfl, rfl, rfl⟩ := hlines
      refine ⟨houtcome, _, rfl, (hd _ rfl).mpr ⟨?_, _, rfl, _, h1, _, h2, by decide⟩⟩
      exact fun l hl => absurd hl List.not_mem_nil
    · simp at hlines

end Summary

end Coroutines
