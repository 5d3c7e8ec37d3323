import Coroutines.Number.Basic

/-!
# Numbers without a fraction

Dropping the fraction of a number leaves a whole number, an infinity or `nan`
(`Number.trunc_isWhole`); these are the values of the script's integers.
-/

namespace Coroutines

/-- An exact quotient stays as it is. -/
theorem roundDiv_of_dvd {num den : Nat} (hd : 0 < den) (h : den ∣ num) :
    roundDiv num den = num / den := by
  have hr : num % den = 0 := Nat.mod_eq_zero_of_dvd h
  unfold roundDiv
  rw [hr, if_pos (by omega)]

namespace Number

theorem one_dvd_roundSignificant (k : Nat) : one ∣ roundSignificant (k * one) 1 := by
  unfold roundSignificant
  generalize spareBits (k * one / 1) = s
  dsimp only
  rw [Nat.one_mul]
  by_cases hs : places ≤ s
  · exact Nat.dvd_trans (Nat.pow_dvd_pow 2 hs) (Nat.dvd_mul_left _ _)
  · have hd : 2 ^ s ∣ k * one :=
      Nat.dvd_trans (Nat.pow_dvd_pow 2 (by omega)) (Nat.dvd_mul_left _ _)
    rw [Nat.pow_eq, roundDiv_of_dvd (Nat.two_pow_pos s) hd, Nat.div_mul_cancel hd]
    exact Nat.dvd_mul_left _ _

/-- The number has no fraction. -/
def IsWhole : Number → Prop
  | .finite u _ => (one : Int) ∣ u
  | _ => True

theorem ofInt_isWhole (i : Int) : (ofInt i).IsWhole := by
  unfold ofInt ofUnits
  split
  · exact Int.dvd_mul_left i one
  · unfold ofRatio
    rw [Int.natAbs_mul, Int.natAbs_natCast]
    have h := one_dvd_roundSignificant i.natAbs
    split
    · simp only [IsWhole]
      split
      · exact Int.dvd_neg.mpr (Int.natCast_dvd_natCast.mpr h)
      · exact Int.natCast_dvd_natCast.mpr h
    · trivial

theorem trunc_isWhole (n : Number) : n.trunc.IsWhole := by
  cases n with
  | finite u h =>
    by_cases hu : u % one = 0
    · simpa only [trunc, if_pos hu, IsWhole] using Int.dvd_of_emod_eq_zero hu
    · simpa only [trunc, if_neg hu] using ofInt_isWhole _
  | infinite s => trivial
  | nan => trivial

end Number

/-- A number without a fraction. -/
structure Whole where
  val : Number
  isWhole : val.IsWhole
  deriving DecidableEq

namespace Whole

/-- Drops the fraction. -/
def ofNumber (n : Number) : Whole := ⟨n.trunc, n.trunc_isWhole⟩

def ofInt (i : Int) : Whole := ⟨.ofInt i, Number.ofInt_isWhole i⟩

def ofNat (n : Nat) : Whole := ofInt n

end Whole

end Coroutines
