import Coroutines.Number.Decimal
import Coroutines.Number.Whole
import Coroutines.Proofs.Exact
import Mathlib.Algebra.Group.Nat.Defs

/-!
# Numbers and their decimals

A decimal is read by its value alone: a zero at the end of the digits and one in the exponent are
the same (`Number.ofDecimal_mul_ten`).  So the digits chosen for a number, short or in full, are
read as that number (`Number.ofDecimal_shortest`).
-/

namespace Coroutines

/-! ## Rounding -/

theorem roundDiv_mul_right (num den : Nat) {c : Nat} (hc : 0 < c) :
    roundDiv (num * c) (den * c) = roundDiv num den := by
  have hr : ∀ r, 2 * (r * c) < den * c ↔ 2 * r < den := fun r => by
    rw [← Nat.mul_assoc, Nat.mul_lt_mul_right hc]
  have hr' : ∀ r, den * c < 2 * (r * c) ↔ den < 2 * r := fun r => by
    rw [← Nat.mul_assoc, Nat.mul_lt_mul_right hc]
  simp only [roundDiv, Nat.mul_div_mul_right _ _ hc, Nat.mul_mod_mul_right, hr, hr']

theorem roundSignificant_mul_right (num den : Nat) {c : Nat} (hc : 0 < c) :
    roundSignificant (num * c) (den * c) = roundSignificant num den := by
  unfold roundSignificant
  dsimp only
  rw [Nat.mul_div_mul_right _ _ hc, Nat.mul_right_comm den c, roundDiv_mul_right _ _ hc]

/-- A count of few digits is not rounded. -/
theorem roundSignificant_of_significant {n den : Nat} (hd : 0 < den) (hn : Significant n) :
    roundSignificant (n * den) den = n := by
  unfold roundSignificant
  rw [Nat.mul_div_cancel _ hd]
  have hp : 0 < Nat.pow 2 (spareBits n) := Nat.two_pow_pos _
  have hdvd : den * Nat.pow 2 (spareBits n) ∣ n * den := by
    rw [Nat.mul_comm n]; exact Nat.mul_dvd_mul_left den hn
  dsimp only
  rw [roundDiv_of_dvd (Nat.mul_pos hd hp) hdvd, Nat.mul_comm n, Nat.mul_div_mul_left _ _ hd,
    Nat.div_mul_cancel hn]

/-- What is below half a unit is rounded to nothing. -/
theorem roundSignificant_of_small {num den : Nat} (h : 2 * num < den) :
    roundSignificant num den = 0 := by
  have hq : num / den = 0 := Nat.div_eq_of_lt (by omega)
  have hr : num % den = num := Nat.mod_eq_of_lt (by omega)
  have hs : spareBits 0 = 0 := by decide
  simp only [roundSignificant, hq, hs, Nat.pow_eq, Nat.pow_zero, Nat.mul_one, roundDiv, hr,
    if_pos h]

namespace Number

theorem places_eq : places = 1074 := by rw [places]

/-- The negative half of the line is the mirror image of the positive one. -/
theorem ofRatio_true (num den : Nat) : ofRatio true num den = (ofRatio false num den).neg := by
  unfold ofRatio
  split <;> simp [neg]

theorem finite_eq_finite {a b : Int} {ha : Representable a} {hb : Representable b} (h : a = b) :
    Number.finite a ha = Number.finite b hb := by subst h; rfl

theorem zero_eq : zero = .finite 0 (by decide +kernel) := by
  have h : Representable (((0 : Nat) : Int) * one) := by simpa using (by decide +kernel : Representable 0)
  unfold zero ofNat ofInt ofUnits
  rw [dif_pos h]
  exact finite_eq_finite (Int.zero_mul _)

theorem ofRatio_mul_right (negative : Bool) (num den : Nat) {c : Nat} (hc : 0 < c) :
    ofRatio negative (num * c) (den * c) = ofRatio negative num den := by
  simp only [ofRatio, roundSignificant_mul_right num den hc]

theorem ofRatio_of_small (negative : Bool) {num den : Nat} (h : 2 * num < den) :
    ofRatio negative num den = zero := by
  have hb : roundSignificant num den < bound := by
    rw [roundSignificant_of_small h]; exact Nat.two_pow_pos _
  rw [zero_eq, ofRatio, dif_pos hb]
  exact finite_eq_finite (by simp [roundSignificant_of_small h])

theorem ofRatio_of_large (negative : Bool) {num den : Nat} (h : bound ≤ num / den) :
    ofRatio negative num den = .infinite negative := by
  have hb : ¬ roundSignificant num den < bound :=
    Nat.not_lt.mpr (two_pow_le_roundSignificant h)
  rw [ofRatio, dif_neg hb]

theorem ofDecimal_true (d : Decimal) : ofDecimal true d = (ofDecimal false d).neg := by
  have hz : zero = zero.neg := by rw [zero_eq]; exact finite_eq_finite (by simp)
  unfold ofDecimal
  repeat' split
  all_goals first | exact hz | exact ofRatio_true _ _ | rfl

theorem two_pow_le_ten_pow {m n : Nat} (h : m ≤ 3 * n) : 2 ^ m ≤ 10 ^ n :=
  calc 2 ^ m ≤ 2 ^ (3 * n) := Nat.pow_le_pow_right (by decide) h
    _ = 8 ^ n := Nat.pow_mul ..
    _ ≤ 10 ^ n := Nat.pow_le_pow_left (by decide) n

/-- The exponents that are settled as zero are those of decimals below half a unit. -/
theorem small_of_log2 {k : Nat} {e : Int} (h : k.log2 + 1 + 3 * e < -1100) :
    2 * (k * one) < 10 ^ (-e).toNat := by
  have hk : k < 2 ^ (k.log2 + 1) := Nat.lt_log2_self
  have hp := places_eq
  calc 2 * (k * one) = k * 2 ^ (places + 1) := by
        rw [one, Nat.pow_eq, Nat.pow_succ, Nat.mul_left_comm, Nat.mul_comm 2]
    _ < 2 ^ (k.log2 + 1) * 2 ^ (places + 1) := Nat.mul_lt_mul_of_pos_right hk (Nat.two_pow_pos _)
    _ = 2 ^ (k.log2 + 1 + (places + 1)) := (Nat.pow_add ..).symm
    _ ≤ 10 ^ (-e).toNat := two_pow_le_ten_pow (by omega)

theorem log2_ten_mul {k : Nat} (hk : k ≠ 0) : k.log2 + 3 ≤ (10 * k).log2 := by
  rw [Nat.le_log2 (by omega), Nat.pow_add]
  have := Nat.log2_self_le hk
  omega

/-- The end of the line lies below every multiple of `10 ^ 400`. -/
theorem bound_le {k n : Nat} (hk : 0 < k) (hn : 400 ≤ n) : bound ≤ k * Nat.pow 10 n * one := by
  have h : 1024 ≤ 3 * n := by omega
  unfold bound one
  generalize 1024 = m at h ⊢
  rw [Nat.pow_eq, Nat.pow_eq, Nat.pow_eq, Nat.pow_add]
  exact Nat.mul_le_mul_right _
    (Nat.le_trans (two_pow_le_ten_pow h) (Nat.le_mul_of_pos_left _ hk))

/-- A zero at the end of the digits is worth one in the exponent. -/
theorem ofDecimal_mul_ten (negative : Bool) (k : Nat) (e : Int) :
    ofDecimal negative ⟨10 * k, e⟩ = ofDecimal negative ⟨k, e + 1⟩ := by
  by_cases hk : k = 0
  · simp [ofDecimal, hk]
  have hk' : 10 * k ≠ 0 := by omega
  have hlog := log2_ten_mul hk
  simp only [ofDecimal, if_neg hk, if_neg hk']
  by_cases hbig : 400 < e
  · rw [if_pos hbig, if_pos (by omega)]
  rw [if_neg hbig]
  by_cases hlast : e = 400
  · -- the greatest exponent that is read is past the end of the line itself
    rw [if_pos (by omega), if_pos (by omega), ofRatio_of_large]
    rw [Nat.div_one]
    exact bound_le (Nat.pos_of_ne_zero hk') (by omega)
  rw [if_neg (show ¬ 400 < e + 1 by omega)]
  by_cases hpos : 0 ≤ e
  · rw [if_pos hpos, if_pos (by omega), show (e + 1).toNat = e.toNat + 1 by omega]
    simp only [Nat.pow_eq, Nat.pow_succ]
    congr 2
    rw [Nat.mul_comm 10, Nat.mul_assoc, Nat.mul_comm 10]
  rw [if_neg hpos]
  by_cases hunit : e = -1
  · subst hunit
    rw [if_neg (by omega), if_pos (by decide)]
    have := ofRatio_mul_right negative (k * one) 1 (c := 10) (by decide)
    simpa [Nat.mul_comm 10, Nat.mul_right_comm] using this
  rw [if_neg (show ¬ 0 ≤ e + 1 by omega)]
  have hten : (-e).toNat = (-(e + 1)).toNat + 1 := by omega
  have hratio : ofRatio negative (10 * k * one) (Nat.pow 10 (-e).toNat) =
      ofRatio negative (k * one) (Nat.pow 10 (-(e + 1)).toNat) := by
    rw [hten, Nat.pow_eq, Nat.pow_eq, Nat.pow_succ, Nat.mul_assoc, Nat.mul_comm 10]
    exact ofRatio_mul_right _ _ _ (by decide)
  by_cases hsmall : k.log2 + 1 + 3 * (e + 1) < -1100
  · -- the shorter decimal is settled as zero; the longer one is settled or rounded to it
    have hzero : ofRatio negative (k * one) (Nat.pow 10 (-(e + 1)).toNat) = zero :=
      ofRatio_of_small _ (small_of_log2 hsmall)
    rw [if_pos hsmall, hratio, hzero, ite_self]
  · rw [if_neg hsmall, if_neg (by omega), hratio]

theorem ofDecimal_stripZeros (negative : Bool) (fuel : Nat) (d : Decimal) :
    ofDecimal negative (d.stripZeros fuel) = ofDecimal negative d := by
  induction fuel generalizing d with
  | zero => rfl
  | succ fuel ih =>
    unfold Decimal.stripZeros
    split
    · next h =>
      rw [ih, ← ofDecimal_mul_ten, Nat.mul_div_cancel' (Nat.dvd_of_mod_eq_zero h)]
    · rfl

theorem ofDecimal_reduced (negative : Bool) (d : Decimal) :
    ofDecimal negative d.reduced = ofDecimal negative d := by
  unfold Decimal.reduced
  split
  · rfl
  · exact ofDecimal_stripZeros _ _ _

/-- Zeros after the digits, with the exponent moved by as many. -/
theorem ofDecimal_mul_pow_ten (negative : Bool) (k n : Nat) (e : Int) :
    ofDecimal negative ⟨k * 10 ^ n, e⟩ = ofDecimal negative ⟨k, e + n⟩ := by
  induction n generalizing e with
  | zero => simp
  | succ n ih =>
    rw [Nat.pow_succ, ← Nat.mul_assoc, Nat.mul_comm _ 10, ofDecimal_mul_ten, ih]
    congr 2
    omega

/-! ## The digits of a number -/

/-- All decimal places of a count are read as the count. -/
theorem ofDecimal_expansion {n : Nat} (hn : Representable n) :
    ofDecimal false (expansion n) = .finite n hn := by
  obtain ⟨hs, hb⟩ : Significant n ∧ n < bound := by simpa [Representable] using hn
  by_cases h0 : n = 0
  · subst h0
    simp only [ofDecimal, expansion, Nat.zero_mul, if_true, zero_eq]
    rfl
  have hp := places_eq
  have hfive : (0 : Nat) < 5 ^ places := Nat.pow_pos (by decide)
  have hdigits : n * 5 ^ places ≠ 0 := Nat.mul_ne_zero h0 (Nat.ne_of_gt hfive)
  have hlog : 2 * places ≤ (n * 5 ^ places).log2 := by
    rw [Nat.le_log2 hdigits, Nat.pow_mul]
    exact Nat.le_trans (Nat.pow_le_pow_left (by decide) _)
      (Nat.le_mul_of_pos_left _ (Nat.pos_of_ne_zero h0))
  have hround : roundSignificant (n * 5 ^ places * one) (10 ^ places) = n := by
    rw [Nat.mul_assoc, one, Nat.pow_eq, ← Nat.mul_pow]
    exact roundSignificant_of_significant (Nat.pow_pos (by decide)) hs
  have hread : ofRatio false (n * 5 ^ places * one) (10 ^ places) = .finite n hn := by
    rw [ofRatio, dif_pos (by rw [hround]; exact hb)]
    exact finite_eq_finite (by simp [hround])
  simp only [ofDecimal, expansion, Nat.pow_eq, Int.neg_neg, Int.toNat_natCast]
  rw [if_neg hdigits, if_neg (by omega), if_neg (by omega), if_neg (by omega)]
  exact hread

theorem ofDecimal_of_readsAs {n : Nat} {d : Decimal} (hn : Representable n) (h : ReadsAs n d) :
    ofDecimal false d = .finite n hn := by
  unfold ReadsAs at h
  split at h
  · next u _ e => rw [e]; exact finite_eq_finite h
  · exact h.elim

theorem readsAs_onGrid {n : Nat} {e : Int} {d : Decimal} (h : onGrid? n e = some d) :
    ReadsAs n d := by
  unfold onGrid? at h
  dsimp only at h
  repeat' split at h
  all_goals first | (obtain rfl := Option.some.inj h; assumption) | cases h

/-- The digits chosen for a count are read as the count. -/
theorem ofDecimal_shortest {n : Nat} (hn : Representable n) :
    ofDecimal false (shortest n) = .finite n hn := by
  unfold shortest
  dsimp only
  rw [ofDecimal_reduced]
  cases h : (List.range 17).findSome? fun (k : Nat) => onGrid? n (magnitude n - (k + 1 : Nat)) with
  | none => exact ofDecimal_expansion hn
  | some d =>
    obtain ⟨k, -, hk⟩ := List.exists_of_findSome?_eq_some h
    exact ofDecimal_of_readsAs hn (readsAs_onGrid hk)

end Number

end Coroutines
