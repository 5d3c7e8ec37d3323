import Coroutines.Proofs.Format.Numerals
import Coroutines.Proofs.Nearest

/-!
# Layouts of decimals

The text of a decimal shows a point or a power of ten unless it is a whole number of at most 21 places
(`Decimal.layout_marks_iff`).  The digits of a number have no zero at their end, so its text does not end in a point
and a zero (`Decimal.not_pointZero_layout`).
-/

namespace Coroutines

namespace Decimal

/-! ### Zeros at the end of the digits -/

theorem exponent_le_stripZeros (fuel : Nat) (d : Decimal) : d.exponent ≤ (d.stripZeros fuel).exponent := by
  induction fuel generalizing d with
  | zero => exact Int.le_refl _
  | succ fuel ih =>
      unfold stripZeros
      split
      · exact Int.le_trans (show d.exponent ≤ d.exponent + 1 by omega) (ih _)
      · exact Int.le_refl _

theorem exponent_le_reduced (d : Decimal) : d.exponent ≤ d.reduced.exponent := by
  unfold reduced
  split
  · exact Int.le_refl _
  · exact exponent_le_stripZeros _ _

/-- All zeros that the digits are known to end with are moved into the exponent. -/
theorem exponent_add_le_stripZeros {fuel n k : Nat} {e : Int} (hn : n ≤ fuel) :
    e + n ≤ (stripZeros fuel ⟨k * 10 ^ n, e⟩).exponent := by
  induction n generalizing fuel e with
  | zero =>
      have hexp := exponent_le_stripZeros fuel ⟨k * 10 ^ 0, e⟩
      simpa using hexp
  | succ n ih =>
      obtain ⟨fuel, rfl⟩ : ∃ m, fuel = m + 1 := ⟨fuel - 1, by omega⟩
      have hten : k * 10 ^ (n + 1) = k * 10 ^ n * 10 := by rw [Nat.pow_succ, Nat.mul_assoc]
      rw [stripZeros, if_pos (by simp only [hten, Nat.mul_mod_left])]
      simp only [hten, Nat.mul_div_cancel _ (show 0 < 10 by decide)]
      have hstep : e + 1 + n ≤ (stripZeros fuel ⟨k * 10 ^ n, e + 1⟩).exponent := ih (by omega)
      push_cast
      omega

theorem exponent_add_le_reduced {k n : Nat} (hk : k ≠ 0) (e : Int) :
    e + n ≤ (reduced ⟨k * 10 ^ n, e⟩).exponent := by
  have hdigits : k * 10 ^ n ≠ 0 := Nat.mul_ne_zero hk (Nat.ne_of_gt (Nat.pow_pos (by decide)))
  have hfuel : n ≤ (k * 10 ^ n).log2 := by
    rw [Nat.le_log2 hdigits]
    exact Nat.le_trans (Nat.pow_le_pow_left (by decide) n) (Nat.le_mul_of_pos_left _ (Nat.pos_of_ne_zero hk))
  rw [reduced, if_neg hdigits]
  exact exponent_add_le_stripZeros hfuel

/-- The digits that are left do not end with a zero: each zero that is dropped takes a binary digit at least. -/
theorem stripZeros_mod_ten {fuel : Nat} {d : Decimal} (h0 : d.digits ≠ 0) (hfuel : d.digits.log2 ≤ fuel) :
    (d.stripZeros fuel).digits % 10 ≠ 0 := by
  induction fuel generalizing d with
  | zero =>
      have hone : d.digits < 2 := by
        have h := @Nat.lt_log2_self d.digits
        rwa [Nat.le_zero.mp hfuel] at h
      rw [stripZeros]
      omega
  | succ fuel ih =>
      unfold stripZeros
      split
      · next hzero =>
          have hten : d.digits = 10 * (d.digits / 10) := by omega
          have hne : d.digits / 10 ≠ 0 := by omega
          refine ih hne ?_
          have hlog := Number.log2_ten_mul hne
          rw [← hten] at hlog
          show (d.digits / 10).log2 ≤ fuel
          omega
      · next hzero => exact hzero

theorem reduced_mod_ten {d : Decimal} (h0 : d.digits ≠ 0) : d.reduced.digits % 10 ≠ 0 := by
  rw [reduced, if_neg h0]
  exact stripZeros_mod_ten h0 (Nat.le_refl _)

/-! ### Where the point stands -/

/-- How many places stand before the point. -/
def point (d : Decimal) : Int := (Nat.toDigits 10 d.digits).length + d.exponent

/-- The decimal is a whole number of at most 21 places. -/
def IsPlain (d : Decimal) : Prop := 0 ≤ d.exponent ∧ d.point ≤ 21

/-- With zeros behind it a number takes as many places more. -/
theorem length_toDigits_add_le_iff {k : Nat} (hk : k ≠ 0) (e m : Nat) :
    (Nat.toDigits 10 k).length + e ≤ m ↔ k * 10 ^ e < 10 ^ m := by
  have hplace := @Nat.length_toDigits_pos 10 k
  rcases Nat.lt_or_ge e m with h | h
  · obtain ⟨j, rfl⟩ : ∃ j, m = j + e := ⟨m - e, by omega⟩
    rw [Nat.add_le_add_iff_right, Nat.length_toDigits_le_iff (by decide) (by omega), Nat.pow_add,
      Nat.mul_lt_mul_right (Nat.pow_pos (by decide))]
  · have hlarge : 10 ^ m ≤ k * 10 ^ e :=
      Nat.le_trans (Nat.pow_le_pow_right (by decide) h) (Nat.le_mul_of_pos_left _ (Nat.pos_of_ne_zero hk))
    exact iff_of_false (by omega) (Nat.not_lt_of_le hlarge)

theorem point_le_iff {d : Decimal} (h0 : d.digits ≠ 0) (hexp : 0 ≤ d.exponent) (m : Nat) :
    d.point ≤ m ↔ d.digits * 10 ^ d.exponent.toNat < 10 ^ m := by
  rw [← length_toDigits_add_le_iff h0, point]
  omega

theorem layout_of_isPlain {d : Decimal} (h : d.IsPlain) :
    d.layout = Nat.toDigits 10 d.digits ++ List.replicate d.exponent.toNat '0' := by
  obtain ⟨hexp, hpoint⟩ := h
  unfold point at hpoint
  have hzeros : ((Nat.toDigits 10 d.digits).length + d.exponent - (Nat.toDigits 10 d.digits).length).toNat =
      d.exponent.toNat := by omega
  rw [layout]
  dsimp only
  rw [if_pos ⟨by omega, hpoint⟩, hzeros]

theorem IsPlain.isDigit {d : Decimal} (h : d.IsPlain) {c : Char} (hc : c ∈ d.layout) : c.isDigit = true := by
  rw [layout_of_isPlain h, List.mem_append] at hc
  rcases hc with hc | hc
  · exact isDigit_of_mem_toDigits hc
  · rw [List.eq_of_mem_replicate hc]
    rfl

/-- The text of a decimal shows a point or a power of ten unless the decimal is plain. -/
theorem layout_marks_iff (d : Decimal) : ('.' ∈ d.layout ∨ 'e' ∈ d.layout) ↔ ¬ d.IsPlain := by
  by_cases h : d.IsPlain
  · refine iff_of_false ?_ (not_not_intro h)
    rintro (hc | hc) <;> exact absurd (h.isDigit hc) (by decide)
  · refine iff_of_true ?_ h
    unfold IsPlain point at h
    rw [layout]
    dsimp only
    rw [if_neg (by omega)]
    split
    · exact .inl (by simp)
    split
    · exact .inl (by simp)
    · exact .inr (by simp)

/-- The last digit is that of the ones. -/
theorem toDigits_eq_append (n : Nat) : ∃ cs, Nat.toDigits 10 n = cs ++ [(n % 10).digitChar] := by
  rw [Nat.toDigits_eq_if (by decide)]
  split
  · next h => exact ⟨[], by rw [Nat.mod_eq_of_lt h]; rfl⟩
  · exact ⟨_, rfl⟩

theorem not_pointZero_of_getLast? {xs cs : List Char} {n : Nat} (h : n % 10 ≠ 0)
    (hlast : xs.getLast? = some (n % 10).digitChar) : xs ≠ cs ++ ['.', '0'] := by
  rintro rfl
  have hzero : ∀ m < 10, '0' = m.digitChar → m = 0 := by decide
  exact h (hzero _ (Nat.mod_lt _ (by decide)) (by simpa [List.getLast?_append] using hlast))

/-- A power of ten has a sign before its digits, and no point. -/
theorem not_pointZero_power {xs cs : List Char} {sign : Char} (hsign : sign ≠ '.') (n : Nat) :
    xs ++ 'e' :: sign :: Nat.toDigits 10 n ≠ cs ++ ['.', '0'] := by
  intro heq
  obtain ⟨ds, hdigits⟩ := toDigits_eq_append n
  have hlast : (xs ++ 'e' :: sign :: ds) ++ [(n % 10).digitChar] = (cs ++ ['.']) ++ ['0'] := by
    simpa [hdigits] using heq
  have hpoint := congrArg List.getLast? (List.append_inj' hlast rfl).1
  have hmem : '.' ∈ sign :: ds :=
    List.mem_of_getLast? (by simpa [List.getLast?_append, List.getLast?_cons] using hpoint)
  rcases List.mem_cons.mp hmem with h | h
  · exact hsign h.symm
  · exact absurd (isDigit_of_mem_toDigits (n := n) (by rw [hdigits]; exact List.mem_append_left _ h)) (by decide)

/-- Without a zero at the end of the digits there is none right behind the point. -/
theorem not_pointZero_layout {d : Decimal} (h : d.digits % 10 ≠ 0) (cs : List Char) :
    d.layout ≠ cs ++ ['.', '0'] := by
  by_cases hplain : d.IsPlain
  · intro heq
    have hpoint := hplain.isDigit (c := '.') (by rw [heq]; simp)
    exact absurd hpoint (by decide)
  obtain ⟨ds, hdigits⟩ := toDigits_eq_append d.digits
  unfold IsPlain point at hplain
  rw [layout]
  dsimp only
  rw [if_neg (by omega)]
  -- with a point among the digits or before them the last digit of the text is that of the decimal
  split
  · next hbetween =>
      refine not_pointZero_of_getLast? h ?_
      rw [hdigits, List.length_append, List.length_singleton] at hbetween hplain ⊢
      rw [List.drop_append_of_le_length (by omega)]
      simp [List.getLast?_append, List.getLast?_cons]
  split
  · refine not_pointZero_of_getLast? h ?_
    simp [hdigits, List.getLast?_append, List.getLast?_cons]
  · refine not_pointZero_power ?_ _
    split <;> decide

end Decimal

end Coroutines
