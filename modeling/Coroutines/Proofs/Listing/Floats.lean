import Coroutines.Proofs.Format.Layouts
import Coroutines.Proofs.Listing.Unambiguous

/-!
# The text of floats

A whole float below `10 ^ 16` is written with a point and a zero, any other number as an integer would be, if it
were one.  So floats and integers are told apart by their text up to `10 ^ 16` and are not from there on
(`Value.repr_float_eq_repr_int_iff`); between `10 ^ 16` and `10 ^ 21` the text of a float shows neither a point nor
a power of ten.
-/

namespace Coroutines

namespace Number

/-! ### The digits of whole numbers -/

theorem onGrid_exponent {n : Nat} {e : Int} {d : Decimal} (h : onGrid? n e = some d) : d.exponent = e := by
  unfold onGrid? at h
  dsimp only at h
  repeat' split at h
  all_goals first | (obtain rfl := Option.some.inj h; rfl) | cases h

theorem shortest_mod_ten {n : Nat} (hn : Representable n) (h0 : n ≠ 0) : (shortest n).digits % 10 ≠ 0 := by
  have hdigits := Json.shortest_digits_ne_zero hn h0
  unfold shortest at hdigits ⊢
  refine Decimal.reduced_mod_ten fun hzero => hdigits ?_
  rw [Decimal.reduced, if_pos hzero, hzero]

/-- The digits of a number are at most 17, or all that it has. -/
theorem shortest_exponent_or (n : Nat) :
    magnitude n - 17 ≤ (shortest n).exponent ∨ shortest n = (expansion n).reduced := by
  cases hfound : (List.range 17).findSome? fun (k : Nat) => onGrid? n (magnitude n - (k + 1 : Nat)) with
  | none =>
      refine .inr ?_
      rw [shortest, hfound, Option.getD_none]
  | some d =>
      obtain ⟨k, hk, hgrid⟩ := List.exists_of_findSome?_eq_some hfound
      have hexp := Decimal.exponent_le_reduced d
      have hk := List.mem_range.mp hk
      rw [onGrid_exponent hgrid] at hexp
      refine .inl ?_
      rw [shortest, hfound, Option.getD_some]
      omega

theorem expansion_mul_one (w : Nat) : expansion (w * one) = ⟨w * 10 ^ places, -places⟩ := by
  rw [expansion, one, Nat.pow_eq, Nat.pow_eq, Nat.mul_assoc, ← Nat.mul_pow]

/-- The digits of a whole number of more than 16 places are whole themselves: 17 of them never reach behind the
point, and in full they end with a zero for each place there. -/
theorem exponent_shortest_nonneg {w : Nat} (h : 10 ^ 16 ≤ w) : 0 ≤ (shortest (w * one)).exponent := by
  have hpos : 0 < w := Nat.lt_of_lt_of_le (Nat.pow_pos (by decide)) h
  rcases shortest_exponent_or (w * one) with hshort | hfull
  · -- the last of 17 digits stands before the point or at the ones
    have hplaces : 17 ≤ (Nat.toDigits 10 w).length := by
      refine Nat.lt_of_not_le fun hfew => Nat.not_lt_of_le h ?_
      exact (Nat.length_toDigits_le_iff (by decide) (by decide)).mp hfew
    rw [magnitude, if_pos (Nat.le_mul_of_pos_left _ hpos), Nat.mul_div_cancel _ one_pos] at hshort
    omega
  · have hexp := Decimal.exponent_add_le_reduced (n := places) (Nat.ne_of_gt hpos) (-places)
    rw [hfull, expansion_mul_one]
    omega

theorem representable_ten_pow_sixteen : Representable ((10 ^ 16 * one : Nat) : Int) := by decide +kernel

theorem representable_ten_pow_twentyOne : Representable ((10 ^ 21 * one : Nat) : Int) := by decide +kernel

theorem shortest_ten_pow_twentyOne : shortest (10 ^ 21 * one) = ⟨1, 21⟩ := by decide +kernel

section

variable {n : Nat} (hn : Representable n) (h0 : n ≠ 0)

include hn h0

/-- Digits without places behind the point are read by rounding the whole number that they are. -/
theorem roundSignificant_shortest (hexp : 0 ≤ (shortest n).exponent) :
    roundSignificant ((shortest n).digits * 10 ^ (shortest n).exponent.toNat * one) 1 = n := by
  have hread := ofDecimal_shortest hn
  have hdigits := Json.shortest_digits_ne_zero hn h0
  rw [ofDecimal, if_neg hdigits] at hread
  split at hread
  · cases hread
  · rw [ofRatio] at hread
    split at hread
    · exact Int.ofNat.inj (by simpa using hread)
    · cases hread

theorem one_dvd_of_isPlain (h : (shortest n).IsPlain) : one ∣ n := by
  have hdvd := one_dvd_roundSignificant ((shortest n).digits * 10 ^ (shortest n).exponent.toNat)
  rwa [roundSignificant_shortest hn h0 h.1] at hdvd

/-- The power of ten itself is written with one digit, and no other number is rounded to pass over it. -/
theorem point_shortest_le_iff (hexp : 0 ≤ (shortest n).exponent) :
    (shortest n).point ≤ 21 ↔ n < 10 ^ 21 * one := by
  have hpoint := Decimal.point_le_iff (Json.shortest_digits_ne_zero hn h0) hexp 21
  have hround := roundSignificant_shortest hn h0 hexp
  refine Iff.trans hpoint ⟨fun hdigits => ?_, fun hlt => Nat.lt_of_not_le fun hdigits => ?_⟩
  · -- digits below the bound may be rounded up to it, but the bound itself has the digit one
    have hle : n ≤ 10 ^ 21 * one := by
      rw [← hround]
      refine roundSignificant_le (by decide) representable_ten_pow_twentyOne.1 ?_
      rw [Nat.mul_one]
      exact Nat.mul_le_mul_right one (Nat.le_of_lt hdigits)
    refine Nat.lt_of_le_of_ne hle fun heq => ?_
    rw [heq, shortest_ten_pow_twentyOne] at hdigits
    exact absurd hdigits (by decide)
  · refine Nat.not_lt_of_le ?_ hlt
    have hle : 10 ^ 21 * one ≤ (shortest n).digits * 10 ^ (shortest n).exponent.toNat * one / 1 := by
      rw [Nat.div_one]
      exact Nat.mul_le_mul_right one hdigits
    rw [← hround]
    exact le_roundSignificant representable_ten_pow_twentyOne.1 hle

/-- A number of more than 16 places is written without a point and without a power of ten exactly if it is whole
and has at most 21. -/
theorem isPlain_shortest_iff (hlarge : 10 ^ 16 * one ≤ n) :
    (shortest n).IsPlain ↔ one ∣ n ∧ n < 10 ^ 21 * one := by
  constructor
  · intro h
    exact ⟨one_dvd_of_isPlain hn h0 h, (point_shortest_le_iff hn h0 h.1).mp h.2⟩
  · rintro ⟨hdvd, hlt⟩
    have hexp : 0 ≤ (shortest n).exponent := by
      have hwhole := exponent_shortest_nonneg ((Nat.le_div_iff_mul_le one_pos).mpr hlarge)
      rwa [Nat.div_mul_cancel hdvd] at hwhole
    exact ⟨hexp, (point_shortest_le_iff hn h0 hexp).mpr hlt⟩

end

/-! ### The text of a number -/

theorem isInteger_finite_iff {u : Int} {hu : Representable u} :
    (Number.finite u hu).isInteger = true ↔ one ∣ u.natAbs := by
  rw [isInteger, toInt?, ← Int.natCast_dvd_natCast, Int.dvd_natAbs, Int.dvd_iff_emod_eq_zero]
  split <;> simp_all

theorem ofNat_of_representable {n : Nat} (h : Representable ((n * one : Nat) : Int)) :
    ofNat n = .finite ((n * one : Nat) : Int) h := by
  have hunits : Representable ((n : Int) * one) := by rwa [Int.natCast_mul] at h
  exact (ofInt_of_representable hunits).trans (finite_eq_finite (Int.natCast_mul n one).symm)

theorem le_abs_finite {n : Nat} (h : Representable ((n * one : Nat) : Int)) {u : Int} {hu : Representable u} :
    (ofNat n).le (Number.finite u hu).abs = true ↔ n * one ≤ u.natAbs := by
  rw [ofNat_of_representable h, abs, le, decide_eq_true_eq, Int.ofNat_le]

theorem abs_finite_lt {n : Nat} (h : Representable ((n * one : Nat) : Int)) {u : Int} {hu : Representable u} :
    (Number.finite u hu).abs.lt (ofNat n) = true ↔ u.natAbs < n * one := by
  rw [ofNat_of_representable h, abs, lt, decide_eq_true_eq, Int.ofNat_lt]

/-- No two numbers have the same text, if one of them is finite. -/
theorem chars_inj {x y : Number} (hx : x.isFinite = true) (h : x.chars = y.chars) : x = y := by
  have hends : Json.EndsNumeral [] := by simp [Json.EndsNumeral]
  have hread := Json.readNumber_chars hx hends
  rw [h, List.append_nil] at hread
  cases y with
  | finite v hv =>
      have hself := Json.readNumber_chars (n := .finite v hv) rfl hends
      rw [List.append_nil, hread] at hself
      exact (Prod.mk.inj (Option.some.inj hself)).1
  | infinite s => cases s <;> cases hread
  | nan => cases hread

theorem not_pointZero_chars (y : Number) (cs : List Char) : y.chars ≠ cs ++ ['.', '0'] := by
  cases y with
  | finite u hu =>
      have habs : Representable (u.natAbs : Int) := by rwa [Representable, Int.natAbs_natCast]
      rw [Json.chars_finite]
      split
      · intro h
        have hlength := congrArg List.length h
        simp at hlength
      next h0 =>
        have hlayout := Decimal.not_pointZero_layout (shortest_mod_ten habs (by omega))
        split
        · intro h
          cases cs with
          | nil => exact absurd (List.cons.inj h).1 (by decide)
          | cons c cs => exact hlayout cs (List.cons.inj h).2
        · exact hlayout cs
  | infinite s =>
      intro h
      have hlast : (Number.infinite s).chars.getLast? = some '0' := by rw [h]; simp [List.getLast?_append]
      cases s <;> exact absurd hlast (by decide)
  | nan =>
      intro h
      have hlast : Number.nan.chars.getLast? = some '0' := by rw [h]; simp [List.getLast?_append]
      exact absurd hlast (by decide)

/-- The sign in front of a number is no mark of its text. -/
theorem chars_marks_iff {u : Int} (hu : Representable u) :
    ('.' ∈ (Number.finite u hu).chars ∨ 'e' ∈ (Number.finite u hu).chars) ↔
      u ≠ 0 ∧ ¬ (shortest u.natAbs).IsPlain := by
  rw [← Decimal.layout_marks_iff, Json.chars_finite]
  split
  · next h0 => simp [h0]
  · next h0 =>
      split
      · simp [h0]
      · simp [h0]

theorem floatChars_finite {u : Int} (hu : Representable u) :
    (Number.finite u hu).floatChars =
      if one ∣ u.natAbs ∧ u.natAbs < 10 ^ 16 * one then (Number.finite u hu).chars ++ ['.', '0']
      else (Number.finite u hu).chars := by
  have hguard : ((Number.finite u hu).isInteger && (Number.finite u hu).abs.lt (ofNat (10 ^ 16))) = true ↔
      one ∣ u.natAbs ∧ u.natAbs < 10 ^ 16 * one := by
    rw [Bool.and_eq_true, isInteger_finite_iff, abs_finite_lt representable_ten_pow_sixteen]
  simp only [← hguard]
  rfl

/-- The text of a float shows a point or a power of ten, unless it is whole and lies between the two bounds. -/
theorem floatChars_marks_iff {u : Int} (hu : Representable u) :
    ('.' ∈ (Number.finite u hu).floatChars ∨ 'e' ∈ (Number.finite u hu).floatChars) ↔
      ¬ (one ∣ u.natAbs ∧ 10 ^ 16 * one ≤ u.natAbs ∧ u.natAbs < 10 ^ 21 * one) := by
  have habs : Representable (u.natAbs : Int) := by rwa [Representable, Int.natAbs_natCast]
  rw [floatChars_finite]
  split
  · next hpoint => exact iff_of_true (.inl (by simp)) fun h => Nat.not_lt_of_le h.2.1 hpoint.2
  next hguard =>
    -- zero is written with a point, so what is left has digits
    have h0 : u ≠ 0 := by
      rintro rfl
      exact hguard ⟨Nat.dvd_zero _, Nat.mul_pos (Nat.pow_pos (by decide)) one_pos⟩
    have h0' : u.natAbs ≠ 0 := Int.natAbs_ne_zero.mpr h0
    rw [chars_marks_iff, and_iff_right h0]
    refine not_congr ?_
    by_cases hdvd : one ∣ u.natAbs
    · have hlarge : 10 ^ 16 * one ≤ u.natAbs := Nat.le_of_not_lt fun hlt => hguard ⟨hdvd, hlt⟩
      rw [isPlain_shortest_iff habs h0' hlarge, and_iff_right hlarge]
    · exact iff_of_false (fun hplain => hdvd (one_dvd_of_isPlain habs h0' hplain)) fun h => hdvd h.1

/-- The text of a float is that of a whole number if the two are equal and no point is written. -/
theorem floatChars_eq_chars_iff {u : Int} (hu : Representable u) {y : Number} (hy : y.IsWhole) :
    (Number.finite u hu).floatChars = y.chars ↔ Number.finite u hu = y ∧ 10 ^ 16 * one ≤ u.natAbs := by
  rw [floatChars_finite]
  constructor
  · intro h
    split at h
    · exact absurd h.symm (not_pointZero_chars y _)
    -- without the point the two texts are those of numbers, and only one number has each
    next hguard =>
      obtain rfl := chars_inj rfl h
      have hdvd : one ∣ u.natAbs := Int.natCast_dvd_natCast.mp (Int.dvd_natAbs.mpr hy)
      exact ⟨rfl, Nat.le_of_not_lt fun hlt => hguard ⟨hdvd, hlt⟩⟩
  · rintro ⟨rfl, hlarge⟩
    rw [if_neg fun h => Nat.not_lt_of_le hlarge h.2]

end Number

namespace Value

/-- **Floats and integers from `10 ^ 16` on.**

* The text of a finite float is that of an integer exactly if the two are equal and not below `10 ^ 16`, in either
  direction from zero.
* It shows a point or a power of ten, unless the float is whole and lies between `10 ^ 16` and `10 ^ 21`. -/
theorem repr_float_eq_repr_int_iff {x : Number} (hx : x.isFinite = true) :
    (∀ i : Whole, (Value.float x).repr = (Value.int i).repr ↔
      x = i.val ∧ (Number.ofNat (10 ^ 16)).le x.abs = true) ∧
    ('.' ∈ (Value.float x).repr.toList ∨ 'e' ∈ (Value.float x).repr.toList ↔
      ¬ (x.isInteger = true ∧ (Number.ofNat (10 ^ 16)).le x.abs = true ∧
        x.abs.lt (Number.ofNat (10 ^ 21)) = true)) := by
  cases x with
  | infinite s => cases hx
  | nan => cases hx
  | finite u hu =>
      have hfloat : (Value.float (.finite u hu)).repr = String.ofList (Number.finite u hu).floatChars := rfl
      rw [hfloat, Number.isInteger_finite_iff, Number.le_abs_finite Number.representable_ten_pow_sixteen,
        Number.abs_finite_lt Number.representable_ten_pow_twentyOne, String.toList_ofList]
      refine ⟨fun i => ?_, Number.floatChars_marks_iff hu⟩
      have hint : (Value.int i).repr = String.ofList i.val.chars := rfl
      rw [hint, String.ofList_inj]
      exact Number.floatChars_eq_chars_iff hu i.isWhole

/-- At the lower bound a float and an integer have the same text, which has digits only. -/
theorem repr_float_ten_pow_sixteen :
    (Value.float (.ofNat (10 ^ 16))).repr = (Value.int (.ofNat (10 ^ 16))).repr ∧
    '.' ∉ (Value.float (.ofNat (10 ^ 16))).repr.toList ∧ 'e' ∉ (Value.float (.ofNat (10 ^ 16))).repr.toList := by
  obtain ⟨hsame, hmarks⟩ := repr_float_eq_repr_int_iff (x := .ofNat (10 ^ 16)) (by decide +kernel)
  have hplain := mt hmarks.mp (not_not_intro (by decide +kernel))
  exact ⟨(hsame _).mpr ⟨rfl, by decide +kernel⟩, not_or.mp hplain⟩

end Value

end Coroutines
