import Coroutines.Number.Basic

/-!
# Whole numbers that are exact

Numbers have 53 binary digits, so whole numbers count exactly up to `Number.maxExact`, and rounding
never brings a larger one below it.
-/

namespace Coroutines

theorem div_le_roundDiv (num den : Nat) : num / den ≤ roundDiv num den := by
  unfold roundDiv
  dsimp only
  repeat' split
  all_goals omega

/-- Rounding keeps the leading binary digit in its place. -/
theorem two_pow_le_roundSignificant {k num den : Nat} (h : Nat.pow 2 k ≤ num / den) :
    Nat.pow 2 k ≤ roundSignificant num den := by
  unfold roundSignificant
  dsimp only
  generalize hq : num / den = q at h ⊢
  rw [Nat.pow_eq] at h ⊢
  have h0 : q ≠ 0 := fun e => Nat.ne_of_gt (Nat.two_pow_pos k) (Nat.le_zero.mp (e ▸ h))
  have hk : k ≤ q.log2 := (Nat.le_log2 h0).mpr h
  have hs : spareBits q ≤ q.log2 := Nat.sub_le ..
  have hdigits : 2 ^ (q.log2 - spareBits q) ≤ num / (den * 2 ^ spareBits q) := by
    rw [← Nat.div_div_eq_div_mul, hq, Nat.le_div_iff_mul_le (Nat.two_pow_pos _), ← Nat.pow_add,
      Nat.sub_add_cancel hs]
    exact Nat.log2_self_le h0
  calc 2 ^ k ≤ 2 ^ (q.log2 - spareBits q) * 2 ^ spareBits q := by
        rw [← Nat.pow_add, Nat.sub_add_cancel hs]
        exact Nat.pow_le_pow_right (by decide) hk
    _ ≤ roundDiv num (den * 2 ^ spareBits q) * 2 ^ spareBits q :=
        Nat.mul_le_mul_right _ (Nat.le_trans hdigits (div_le_roundDiv ..))

namespace Number

theorem lt_eq_false_iff {a b : Number} (ha : a ≠ .nan) (hb : b ≠ .nan) :
    a.lt b = false ↔ b.le a = true := by
  cases a with
  | nan => exact absurd rfl ha
  | finite u _ =>
      cases b with
      | nan => exact absurd rfl hb
      | finite v _ => simp [lt, le]
      | infinite t => simp [lt, le]
  | infinite s =>
      cases b with
      | nan => exact absurd rfl hb
      | finite v _ => simp [lt, le]
      | infinite t => cases s <;> cases t <;> decide

theorem le_of_not_lt {a b : Number} (ha : a ≠ .nan) (hb : b ≠ .nan) (h : a.lt b = false) :
    b.le a = true := (lt_eq_false_iff ha hb).mp h

theorem ofInt_ne_nan (i : Int) : ofInt i ≠ .nan := by
  unfold ofInt ofUnits ofRatio
  split
  · exact (fun h => by cases h)
  · split <;> exact (fun h => by cases h)

theorem representable_mul_one {i : Int} (h : i.natAbs ≤ maxExact) : Representable (i * one) := by
  have hunits : (i * (one : Int)).natAbs = i.natAbs * Nat.pow 2 places := by
    rw [Int.natAbs_mul, Int.natAbs_natCast]
    rfl
  have hle : i.natAbs * Nat.pow 2 places ≤ Nat.pow 2 (53 + places) := by
    simp only [Nat.pow_eq, Nat.pow_add]
    exact Nat.mul_le_mul_right _ h
  refine ⟨hunits ▸ significant_of_le hle, hunits ▸ Nat.lt_of_le_of_lt hle ?_⟩
  exact Nat.pow_lt_pow_right (by decide) (by omega)

theorem ofInt_of_representable {i : Int} (h : Representable (i * one)) :
    ofInt i = .finite (i * one) h := dif_pos h

theorem toInt?_finite_mul_one {i : Int} (h : Representable (i * one)) :
    (Number.finite (i * one) h).toInt? = some i := by
  have hone : (one : Int) ≠ 0 := Int.natCast_ne_zero.mpr (Nat.ne_of_gt one_pos)
  simp only [toInt?, Int.mul_emod_left, if_true, Int.mul_ediv_cancel _ hone]

theorem toInt?_ofInt {i : Int} (h : i.natAbs ≤ maxExact) : (ofInt i).toInt? = some i := by
  rw [ofInt_of_representable (representable_mul_one h), toInt?_finite_mul_one]

theorem eq_finite_of_toInt? {n : Number} {i : Int} (h : n.toInt? = some i) :
    ∃ hr : Representable (i * one), n = .finite (i * one) hr := by
  cases n with
  | finite u hu =>
      simp only [toInt?] at h
      split at h
      · next hmod =>
          have hmul := Int.ediv_mul_cancel_of_emod_eq_zero hmod
          rw [Option.some.inj h] at hmul
          subst hmul
          exact ⟨hu, rfl⟩
      · cases h
  | infinite s => cases h
  | nan => cases h

theorem mul_one_lt_iff {i j : Int} : i * one < j * one ↔ i < j :=
  Int.mul_lt_mul_right (Int.natCast_pos.mpr one_pos)

theorem toInt?_ofNat {n : Nat} (h : n ≤ maxExact) : (ofNat n).toInt? = some (n : Int) := toInt?_ofInt (by omega)

theorem lt_ofNat {m n : Nat} (hm : m ≤ maxExact) (hn : n ≤ maxExact) :
    (ofNat m).lt (ofNat n) = decide (m < n) := by
  have hmr : Representable ((m : Int) * one) := representable_mul_one (by omega)
  have hnr : Representable ((n : Int) * one) := representable_mul_one (by omega)
  rw [ofNat, ofNat, ofInt_of_representable hmr, ofInt_of_representable hnr]
  simp only [lt, mul_one_lt_iff, Int.ofNat_lt]

theorem trunc_of_toInt? {n : Number} {i : Int} (h : n.toInt? = some i) : n.trunc = n := by
  obtain ⟨hr, rfl⟩ := eq_finite_of_toInt? h
  simp only [trunc, Int.mul_emod_left, if_true]

theorem toNat_of_toInt? {n : Number} {k : Nat} (h : n.toInt? = some (k : Int)) : n.toNat = k := by
  rw [toNat, trunc_of_toInt? h, h]
  rfl

/-- What is not above zero is below one, however it is rounded. -/
theorem ofUnits_lt_one {u : Int} (h : u ≤ 0) : (ofUnits u).lt (.ofNat 1) = true := by
  have hone : Representable ((1 : Nat) * (one : Int)) := representable_mul_one (by decide)
  have hpos : (0 : Int) < one := Int.natCast_pos.mpr one_pos
  rw [ofNat, ofInt_of_representable hone]
  by_cases hu : Representable u
  · rw [ofUnits, dif_pos hu]
    simp only [lt, decide_eq_true_eq]
    omega
  · have hzero : Representable 0 := by decide +kernel
    have hneg : u < 0 := Int.lt_iff_le_and_ne.mpr ⟨h, fun e => hu (e ▸ hzero)⟩
    rw [ofUnits, dif_neg hu, decide_eq_true hneg, ofRatio]
    split
    · simp only [lt, decide_eq_true_eq, if_true]
      omega
    · rfl

/-- A whole number that is too large to be exact is not rounded to a smaller one that is. -/
theorem maxExact_le_of_toInt? {i j : Int} (h : maxExact < i.natAbs)
    (hj : (ofInt i).toInt? = some j) : maxExact ≤ j.natAbs := by
  have hone : (one : Int) ≠ 0 := Int.natCast_ne_zero.mpr (Nat.ne_of_gt one_pos)
  by_cases hr : Representable (i * one)
  · rw [ofInt_of_representable hr, toInt?_finite_mul_one] at hj
    cases hj
    exact Nat.le_of_lt h
  · have hunits : (i * (one : Int)).natAbs = i.natAbs * one := by
      rw [Int.natAbs_mul, Int.natAbs_natCast]
    have hround : maxExact * one ≤ roundSignificant (i.natAbs * one) 1 := by
      have hpow : maxExact * one = Nat.pow 2 (53 + places) := (Nat.pow_add 2 53 places).symm
      rw [hpow]
      refine two_pow_le_roundSignificant ?_
      rw [← hpow, Nat.div_one]
      exact Nat.mul_le_mul_right _ (Nat.le_of_lt h)
    -- the count of units that the number was rounded to
    have hcount : ∀ {u : Int}, u.natAbs = roundSignificant (i.natAbs * one) 1 →
        (if u % one = 0 then some (u / one) else none) = some j → maxExact ≤ j.natAbs := by
      intro u hu e
      split at e
      · next hmod =>
          cases e
          have hmul : u = u / one * one := (Int.ediv_mul_cancel_of_emod_eq_zero hmod).symm
          rw [hmul, Int.natAbs_mul, Int.natAbs_natCast] at hu
          exact Nat.le_of_mul_le_mul_right (hu ▸ hround) one_pos
      · cases e
    unfold ofInt ofUnits at hj
    rw [dif_neg hr, hunits] at hj
    unfold ofRatio at hj
    split at hj
    · split at hj <;> exact hcount (by omega) hj
    · cases hj

/-- One less than a whole number. -/
theorem finite_sub_one {i : Int} (h : Representable (i * one)) :
    (Number.finite (i * one) h).sub (.ofNat 1) = ofInt (i - 1) := by
  have hone : Representable ((1 : Nat) * one) := representable_mul_one (by decide)
  have h1 : Number.ofNat 1 = .finite ((1 : Nat) * one) hone := ofInt_of_representable hone
  have hsub : i * (one : Int) + -(((1 : Nat) : Int) * one) = (i - 1) * one := by
    rw [Int.sub_mul]
    rfl
  rw [h1]
  show ofUnits (i * one + -(((1 : Nat) : Int) * one)) = _
  rw [hsub]
  rfl

end Number

end Coroutines
