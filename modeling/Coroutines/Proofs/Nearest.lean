import Coroutines.Proofs.Format.Rounding

/-!
# Rounding does not pass over a number

What lies on one side of a number is rounded to that number or to one on the same side of it
(`le_roundSignificant`, `roundSignificant_le`).  So a whole number is compared with one that is exact as if it had
not been rounded (`Number.lt_ofInt`).
-/

namespace Coroutines

theorem spareBits_le_of_le {m n : Nat} (h : m ≤ n) : spareBits m ≤ spareBits n := by
  by_cases hm : m = 0
  · subst hm
    exact Nat.zero_le _
  · have hn : n ≠ 0 := by omega
    have hlog : m.log2 ≤ n.log2 := (Nat.le_log2 hn).mpr (Nat.le_trans (Nat.log2_self_le hm) h)
    exact Nat.sub_le_sub_right hlog 52

/-- A count of few digits is a multiple of what counts of the same length are multiples of. -/
theorem Significant.dvd_of_log2_eq {a q : Nat} (ha : Significant a) (h : a.log2 = q.log2) :
    Nat.pow 2 (spareBits q) ∣ a := by
  rw [spareBits, ← h]
  exact ha

theorem le_roundSignificant {a num den : Nat} (ha : Significant a) (h : a ≤ num / den) :
    a ≤ roundSignificant num den := by
  by_cases ha0 : a = 0
  · subst ha0
    exact Nat.zero_le _
  have hq0 : num / den ≠ 0 := by omega
  have hlog : a.log2 ≤ (num / den).log2 := (Nat.le_log2 hq0).mpr (Nat.le_trans (Nat.log2_self_le ha0) h)
  rcases Nat.lt_or_eq_of_le hlog with hlt | heq
  · -- the quotient has more binary digits, and keeps its leading one
    have hpow : Nat.pow 2 (num / den).log2 ≤ roundSignificant num den :=
      two_pow_le_roundSignificant (Nat.log2_self_le hq0)
    have hshort : a < Nat.pow 2 (num / den).log2 :=
      Nat.lt_of_lt_of_le Nat.lt_log2_self (Nat.pow_le_pow_right (by decide) hlt)
    omega
  · obtain ⟨m, hm⟩ := ha.dvd_of_log2_eq heq
    have hp : 0 < Nat.pow 2 (spareBits (num / den)) := Nat.two_pow_pos _
    have hdigits : m ≤ num / (den * Nat.pow 2 (spareBits (num / den))) := by
      rw [← Nat.div_div_eq_div_mul, Nat.le_div_iff_mul_le hp, Nat.mul_comm, ← hm]
      exact h
    calc a = m * Nat.pow 2 (spareBits (num / den)) := by rw [Nat.mul_comm]; exact hm
      _ ≤ roundSignificant num den :=
        Nat.mul_le_mul_right _ (Nat.le_trans hdigits (div_le_roundDiv ..))

theorem roundSignificant_le {a num den : Nat} (hden : 0 < den) (ha : Significant a) (h : num ≤ a * den) :
    roundSignificant num den ≤ a := by
  rcases Nat.lt_or_eq_of_le h with hlt | rfl
  · have hq : num / den < a := Nat.div_lt_of_lt_mul (by rwa [Nat.mul_comm])
    have hp : 0 < Nat.pow 2 (spareBits (num / den)) := Nat.two_pow_pos _
    obtain ⟨m, hm⟩ : Nat.pow 2 (spareBits (num / den)) ∣ a :=
      Nat.dvd_trans (Nat.pow_dvd_pow 2 (spareBits_le_of_le (Nat.le_of_lt hq))) ha
    have hdigits : num / (den * Nat.pow 2 (spareBits (num / den))) < m := by
      rw [← Nat.div_div_eq_div_mul, Nat.div_lt_iff_lt_mul hp, Nat.mul_comm, ← hm]
      exact hq
    have hround := roundDiv_le num (den * Nat.pow 2 (spareBits (num / den)))
    calc roundSignificant num den ≤ m * Nat.pow 2 (spareBits (num / den)) :=
        Nat.mul_le_mul_right _ (by omega)
      _ = a := by rw [Nat.mul_comm]; exact hm.symm
  · exact Nat.le_of_eq (roundSignificant_of_significant hden ha)

namespace Number

theorem le_trans {a b c : Number} (hab : a.le b = true) (hbc : b.le c = true) : a.le c = true := by
  cases a <;> cases b <;> cases c <;> simp_all [le]
  all_goals grind

/-- A count that is not below a number is rounded to none below it. -/
theorem le_ofUnits {u v : Int} (hv : Representable v) (h : v ≤ u) :
    (Number.finite v hv).le (ofUnits u) = true := by
  by_cases hu : Representable u
  · rw [ofUnits, dif_pos hu]
    simpa [le] using h
  rw [ofUnits, dif_neg hu, ofRatio]
  by_cases hneg : u < 0
  · have hround : roundSignificant u.natAbs 1 ≤ v.natAbs := roundSignificant_le (by decide) hv.1 (by omega)
    rw [dif_pos (Nat.lt_of_le_of_lt hround hv.2)]
    simp only [hneg, decide_true, if_true, le, decide_eq_true_eq]
    omega
  · split
    · simp only [hneg, decide_false, le, decide_eq_true_eq]
      by_cases hpos : v ≤ 0
      · exact Int.le_trans hpos (Int.natCast_nonneg _)
      · have hround : v.natAbs ≤ roundSignificant u.natAbs 1 := le_roundSignificant hv.1 (by omega)
        simp only [Bool.false_eq_true, if_false]
        omega
    · simp [hneg, le]

theorem neg_neg (n : Number) : n.neg.neg = n := by
  cases n <;> simp [neg]

theorem neg_le_neg {a b : Number} (h : a.le b = true) : b.neg.le a.neg = true := by
  cases a <;> cases b <;> simp_all [le, neg]
  all_goals grind

theorem ofUnits_neg (u : Int) : ofUnits (-u) = (ofUnits u).neg := by
  by_cases hu : Representable u
  · have hneg : Representable (-u) := by simpa [Representable] using hu
    rw [ofUnits, dif_pos hneg, ofUnits, dif_pos hu, neg]
  · have hneg : ¬ Representable (-u) := by simpa [Representable] using hu
    have h0 : u ≠ 0 := fun e => hu (e ▸ by decide +kernel)
    rw [ofUnits, dif_neg hneg, ofUnits, dif_neg hu, Int.natAbs_neg]
    by_cases hpos : 0 < u
    · rw [decide_eq_true (show -u < 0 by omega), decide_eq_false (show ¬ u < 0 by omega), ofRatio_true]
    · rw [decide_eq_false (show ¬ -u < 0 by omega), decide_eq_true (show u < 0 by omega), ofRatio_true,
        neg_neg]

/-- A count that is not above a number is rounded to none above it. -/
theorem ofUnits_le {u v : Int} (hv : Representable v) (h : u ≤ v) :
    (ofUnits u).le (.finite v hv) = true := by
  have hneg : Representable (-v) := by simpa [Representable] using hv
  have hmirror := neg_le_neg (le_ofUnits hneg (Int.neg_le_neg h))
  rwa [ofUnits_neg, neg_neg, neg, @finite_eq_finite _ v _ hv (Int.neg_neg v)] at hmirror

/-! ### Whole numbers -/

theorem le_ofInt {i j : Int} (hi : i.natAbs ≤ maxExact) (h : i ≤ j) : (ofInt i).le (ofInt j) = true := by
  rw [ofInt_of_representable (representable_mul_one hi)]
  exact le_ofUnits _ (Int.mul_le_mul_of_nonneg_right h (Int.natCast_nonneg one))

theorem ofInt_le {i j : Int} (hj : j.natAbs ≤ maxExact) (h : i ≤ j) : (ofInt i).le (ofInt j) = true := by
  rw [ofInt_of_representable (representable_mul_one hj)]
  exact ofUnits_le _ (Int.mul_le_mul_of_nonneg_right h (Int.natCast_nonneg one))

theorem le_ofInt_iff {i j : Int} (hi : i.natAbs ≤ maxExact) (hj : j.natAbs ≤ maxExact) :
    (ofInt i).le (ofInt j) = true ↔ i ≤ j := by
  rw [ofInt_of_representable (representable_mul_one hi), ofInt_of_representable (representable_mul_one hj), le,
    decide_eq_true_eq, Int.mul_le_mul_right (Int.natCast_pos.mpr one_pos)]

/-- A whole number that is exact is compared with any other as that is before it is rounded. -/
theorem lt_ofInt {i j : Int} (h : i.natAbs < maxExact ∨ j.natAbs < maxExact) :
    (ofInt i).lt (ofInt j) = decide (i < j) := by
  have hlt := lt_eq_false_iff (ofInt_ne_nan i) (ofInt_ne_nan j)
  by_cases hij : i < j
  · rw [decide_eq_true hij]
    refine Bool.of_not_eq_false fun hnot => ?_
    have hle := hlt.mp hnot
    rcases h with hi | hj
    · -- the number next to the exact one is exact as well, and lies between the two
      have hnext := le_trans (le_ofInt (i := i + 1) (by omega) (by omega)) hle
      have := (le_ofInt_iff (by omega) (by omega)).mp hnext
      omega
    · have hnext := le_trans hle (ofInt_le (j := j - 1) (by omega) (by omega))
      have := (le_ofInt_iff (by omega) (by omega)).mp hnext
      omega
  · rw [decide_eq_false hij, hlt]
    rcases h with hi | hj
    · exact ofInt_le (by omega) (by omega)
    · exact le_ofInt (by omega) (by omega)

theorem sub_finite_mul_one {i j : Int} (hi : Representable (i * one)) (hj : Representable (j * one)) :
    (Number.finite (i * one) hi).sub (.finite (j * one) hj) = ofInt (i - j) := by
  rw [ofInt, Int.sub_mul]
  rfl

end Number

end Coroutines
