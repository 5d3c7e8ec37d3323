/-!
# Numbers

A number is a binary64 datum without the sign of zero: no text, comparison or result of this
library tells the two zeros apart.  A finite number is a whole count of the least positive one,
`2 ^ -1074`, so sums, products and comparisons are those of `Int`, followed by one rounding
(`Number.ofRatio`: to nearest, ties to even, overflow to infinity).
-/

namespace Coroutines

/-- `num / den` to the nearest whole number, a tie to the even one. -/
def roundDiv (num den : Nat) : Nat :=
  let q := num / den
  let r := num % den
  if 2 * r < den then q
  else if den < 2 * r then q + 1
  else if q % 2 = 0 then q else q + 1

theorem roundDiv_le (num den : Nat) : roundDiv num den ≤ num / den + 1 := by
  unfold roundDiv; dsimp only; repeat' split
  all_goals omega

/-- Digits below the 53 leading ones of a count whose whole part is `n`. -/
def spareBits (n : Nat) : Nat := n.log2 - 52

/-- A count has at most 53 significant binary digits. -/
def Significant (n : Nat) : Prop := Nat.pow 2 (spareBits n) ∣ n

instance (n : Nat) : Decidable (Significant n) :=
  inferInstanceAs (Decidable (_ ∣ _))

/-- `num / den` to the nearest count with at most 53 significant digits, a tie to the even one. -/
def roundSignificant (num den : Nat) : Nat :=
  let s := spareBits (num / den)
  roundDiv num (den * Nat.pow 2 s) * Nat.pow 2 s

theorem lt_two_pow_spareBits (n : Nat) : n < Nat.pow 2 (53 + spareBits n) := by
  have h : n < 2 ^ (n.log2 + 1) := Nat.lt_log2_self
  exact Nat.lt_of_lt_of_le h (Nat.pow_le_pow_right (by decide) (by unfold spareBits; omega))

theorem significant_of_le {m s : Nat} (h : m * Nat.pow 2 s ≤ Nat.pow 2 (53 + s)) :
    Significant (m * Nat.pow 2 s) := by
  simp only [Significant, Nat.pow_eq] at h ⊢
  rcases Nat.lt_or_eq_of_le h with h | h
  · have hlog : spareBits (m * 2 ^ s) ≤ s := by
      unfold spareBits
      by_cases h0 : m * 2 ^ s = 0
      · simp [h0]
      · have := (Nat.log2_lt h0).mpr h
        omega
    exact Nat.dvd_trans (Nat.pow_dvd_pow 2 hlog) (Nat.dvd_mul_left _ _)
  · rw [h]
    have hlog : spareBits (2 ^ (53 + s)) ≤ 53 + s := by
      unfold spareBits; rw [Nat.log2_two_pow]; omega
    exact Nat.pow_dvd_pow 2 hlog

theorem roundSignificant_significant (num den : Nat) :
    Significant (roundSignificant num den) := by
  unfold roundSignificant
  refine significant_of_le ?_
  have h₁ := roundDiv_le num (den * 2 ^ spareBits (num / den))
  have h₂ : num / (den * 2 ^ spareBits (num / den)) < 2 ^ 53 := by
    rw [← Nat.div_div_eq_div_mul, Nat.div_lt_iff_lt_mul (Nat.two_pow_pos _), ← Nat.pow_add]
    exact lt_two_pow_spareBits _
  rw [Nat.pow_eq, Nat.pow_eq, Nat.pow_add]
  exact Nat.mul_le_mul_right _ (by omega)

/-- Binary places of the least positive number. -/
@[irreducible] def Number.places : Nat := 1074

/-- The count of one. -/
def Number.one : Nat := Nat.pow 2 Number.places

theorem Number.one_pos : 0 < Number.one := Nat.two_pow_pos _

/-- The least count that is no longer finite, that of `2 ^ 1024`. -/
def Number.bound : Nat := Nat.pow 2 (1024 + Number.places)

/-- The counts that are finite numbers. -/
def Representable (units : Int) : Prop :=
  Significant units.natAbs ∧ units.natAbs < Number.bound

instance (units : Int) : Decidable (Representable units) :=
  inferInstanceAs (Decidable (_ ∧ _))

/-- A binary64 number; `finite units _` is `units * 2 ^ -1074`. -/
inductive Number where
  | finite (units : Int) (representable : Representable units)
  | infinite (negative : Bool)
  | nan
  deriving DecidableEq

namespace Number

/-- `± num / den` units, rounded. -/
def ofRatio (negative : Bool) (num den : Nat) : Number :=
  if h : roundSignificant num den < bound then
    .finite (if negative then -(roundSignificant num den : Int) else roundSignificant num den) <| by
      have := roundSignificant_significant num den
      cases negative <;> simpa [Representable] using ⟨this, h⟩
  else .infinite negative

/-- A whole count of units, rounded where it is no number itself. -/
def ofUnits (units : Int) : Number :=
  if h : Representable units then .finite units h else ofRatio (units < 0) units.natAbs 1

def ofInt (i : Int) : Number := ofUnits (i * one)

def ofNat (n : Nat) : Number := ofInt n

/-- Up to here whole numbers are exact. -/
def maxExact : Nat := Nat.pow 2 53

instance : Inhabited Number := ⟨ofNat 0⟩

def zero : Number := ofNat 0

def neg : Number → Number
  | .finite u h => .finite (-u) (by simpa [Representable] using h)
  | .infinite s => .infinite !s
  | .nan => .nan

def add : Number → Number → Number
  | .nan, _ | _, .nan => .nan
  | .finite a _, .finite b _ => ofUnits (a + b)
  | .finite _ _, .infinite s => .infinite s
  | .infinite s, .finite _ _ => .infinite s
  | .infinite s, .infinite t => if s = t then .infinite s else .nan

def sub (a b : Number) : Number := a.add b.neg

def mul : Number → Number → Number
  | .nan, _ | _, .nan => .nan
  | .finite a _, .finite b _ => ofRatio (decide (a < 0) ^^ decide (b < 0)) (a.natAbs * b.natAbs) one
  | .finite a _, .infinite s => if a = 0 then .nan else .infinite (decide (a < 0) ^^ s)
  | .infinite s, .finite a _ => if a = 0 then .nan else .infinite (decide (a < 0) ^^ s)
  | .infinite s, .infinite t => .infinite (s ^^ t)

def abs : Number → Number
  | .finite u h => .finite u.natAbs (by rwa [Representable, Int.natAbs_natCast])
  | .infinite _ => .infinite false
  | .nan => .nan

/-- Numeric order; `nan` is below nothing and nothing is below it. -/
def lt : Number → Number → Bool
  | .finite a _, .finite b _ => a < b
  | .finite _ _, .infinite s => !s
  | .infinite s, .finite _ _ => s
  | .infinite s, .infinite t => s && !t
  | .nan, _ | _, .nan => false

def le : Number → Number → Bool
  | .finite a _, .finite b _ => a ≤ b
  | .finite _ _, .infinite s => !s
  | .infinite s, .finite _ _ => s
  | .infinite s, .infinite t => s || !t
  | .nan, _ | _, .nan => false

/-- Numeric equality; `nan` differs from itself. -/
def equals : Number → Number → Bool
  | .nan, _ | _, .nan => false
  | a, b => decide (a = b)

def max (a b : Number) : Number := if a.lt b then b else a

def min (a b : Number) : Number := if b.lt a then b else a

def isFinite : Number → Bool
  | .finite _ _ => true
  | _ => false

/-- The place of a number on the line of units, whose ends are the infinities. -/
def position : Number → Int
  | .finite u _ => u
  | .infinite s => if s then -bound else bound
  | .nan => 0

/-- The value of a finite whole number. -/
def toInt? : Number → Option Int
  | .finite u _ => if u % one = 0 then some (u / one) else none
  | _ => none

def isInteger (n : Number) : Bool := n.toInt?.isSome

/-- Drops the fraction. -/
def trunc : Number → Number
  | .finite u h => if u % one = 0 then .finite u h else ofInt (u.tdiv one)
  | n => n

/-- The whole part of a number that is not negative, zero for any other. -/
def toNat (n : Number) : Nat := (n.trunc.toInt?.getD 0).toNat

/-- Whether a count of things lies above the number, compared exactly. -/
def exceededBy (n : Nat) : Number → Bool
  | .finite u _ => u < n * one
  | .infinite s => s
  | .nan => false

end Number

end Coroutines
