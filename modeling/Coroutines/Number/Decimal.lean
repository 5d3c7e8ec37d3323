import Coroutines.Number.Basic

/-!
# Decimal text of a number

A number is written with the fewest decimal digits that read back as the same number, and of
those with the digits nearest to it.  `Number.ofDecimal` reads, `Number.shortest` chooses the
digits and `Decimal.layout` places the point.
-/

namespace Coroutines

/-- The rational `digits * 10 ^ exponent`. -/
structure Decimal where
  digits : Nat
  exponent : Int
  deriving DecidableEq

namespace Decimal

/-- Moves at most `fuel` trailing zeros of the digits into the exponent. -/
def stripZeros : (fuel : Nat) → Decimal → Decimal
  | 0, d => d
  | fuel + 1, d =>
    if d.digits % 10 = 0 then stripZeros fuel ⟨d.digits / 10, d.exponent + 1⟩ else d

/-- The same rational without trailing zeros in its digits. -/
def reduced (d : Decimal) : Decimal := if d.digits = 0 then d else d.stripZeros d.digits.log2

/-- Digits with the point in place: positional while the first digit stands at most 21 places
before the point and at most six after it, else with an exponent. -/
def layout (d : Decimal) : List Char :=
  let s := Nat.toDigits 10 d.digits
  let point : Int := s.length + d.exponent
  if s.length ≤ point ∧ point ≤ 21 then
    s ++ List.replicate (point - s.length).toNat '0'
  else if 0 < point ∧ point ≤ 21 then
    s.take point.toNat ++ '.' :: s.drop point.toNat
  else if -6 < point ∧ point ≤ 0 then
    '0' :: '.' :: List.replicate (-point).toNat '0' ++ s
  else
    let mantissa := match s with
      | [] => []
      | [c] => [c]
      | c :: rest => c :: '.' :: rest
    let power := point - 1
    mantissa ++ 'e' :: (if power < 0 then '-' else '+') :: Nat.toDigits 10 power.natAbs

end Decimal

namespace Number

/-- The number nearest to a decimal.  Exponents far outside the range of numbers are settled
before any power of ten is formed. -/
def ofDecimal (negative : Bool) (d : Decimal) : Number :=
  if d.digits = 0 then zero
  else if 400 < d.exponent then .infinite negative
  else if 0 ≤ d.exponent then ofRatio negative (d.digits * Nat.pow 10 d.exponent.toNat * one) 1
  else if d.digits.log2 + 1 + 3 * d.exponent < -1100 then zero
  else ofRatio negative (d.digits * one) (Nat.pow 10 (-d.exponent).toNat)

/-- Zeros between the point and the first digit of a count below one, at most `fuel`. -/
def leadingZeros : (fuel : Nat) → (units : Nat) → Nat
  | 0, _ => 0
  | fuel + 1, units => if one ≤ units * 10 then 0 else leadingZeros fuel (units * 10) + 1

/-- The power of ten that a positive count lies just below: `10 ^ (m - 1) ≤ value < 10 ^ m`. -/
def magnitude (units : Nat) : Int :=
  if one ≤ units then (Nat.toDigits 10 (units / one)).length
  else -leadingZeros 330 units

/-- The decimal is read as the positive finite number of the count `units`. -/
def ReadsAs (units : Nat) (d : Decimal) : Prop :=
  match ofDecimal false d with
  | .finite u _ => u = units
  | _ => False

instance (units : Nat) (d : Decimal) : Decidable (ReadsAs units d) := by
  unfold ReadsAs; split <;> infer_instance

/-- Of the two neighbours of a count among the multiples of `10 ^ exponent`, the nearer one that
is read as the count, an exact tie going to the even multiple. -/
def onGrid? (units : Nat) (exponent : Int) : Option Decimal :=
  let num := if 0 ≤ exponent then units else units * Nat.pow 10 (-exponent).toNat
  let den := if 0 ≤ exponent then one * Nat.pow 10 exponent.toNat else one
  let near := roundDiv num den
  let far := if near = num / den then near + 1 else near - 1
  if ReadsAs units ⟨near, exponent⟩ then some ⟨near, exponent⟩
  else if ReadsAs units ⟨far, exponent⟩ then some ⟨far, exponent⟩
  else none

/-- All decimal places of a count. -/
def expansion (units : Nat) : Decimal := ⟨units * Nat.pow 5 places, -places⟩

/-- The shortest decimal that is read as a positive count, and of these the nearest. -/
def shortest (units : Nat) : Decimal :=
  let found := (List.range 17).findSome? fun (n : Nat) => onGrid? units (magnitude units - (n + 1 : Nat))
  (found.getD (expansion units)).reduced

/-- The text of a number. -/
def chars : Number → List Char
  | .nan => "NaN".toList
  | .infinite false => "Infinity".toList
  | .infinite true => "-Infinity".toList
  | .finite units _ =>
    if units = 0 then ['0']
    else if units < 0 then '-' :: (shortest units.natAbs).layout
    else (shortest units.natAbs).layout

def text (n : Number) : String := String.ofList n.chars

end Number

end Coroutines
