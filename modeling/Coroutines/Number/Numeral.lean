import Coroutines.Number.Decimal
import Coroutines.Text

/-!
# Numerals

The decimal numerals shared by data files and the command line: digits with an optional point
and an optional power of ten.  `Number.ofNumeral` is the lenient reading of a whole text, which
gives `nan` for what is no numeral.
-/

namespace Coroutines

/-- The value of decimal digits. -/
def digitsValue (cs : List Char) : Nat := cs.foldl (fun n c => 10 * n + (c.toNat - 48)) 0

/-- The leading decimal digits and the rest. -/
def scanDigits (cs : List Char) : List Char × List Char :=
  (cs.takeWhile Char.isDigit, cs.dropWhile Char.isDigit)

theorem scanDigits_append (cs : List Char) : (scanDigits cs).1 ++ (scanDigits cs).2 = cs :=
  List.takeWhile_append_dropWhile

/-- An optional power of ten and the rest: `e` or `E`, an optional sign, digits.  Without a digit
nothing is taken. -/
def scanPower (cs : List Char) : Int × List Char :=
  match cs with
  | c :: rest =>
    if c = 'e' ∨ c = 'E' then
      let signed : Bool × List Char := match rest with
        | '-' :: r => (true, r)
        | '+' :: r => (false, r)
        | r => (false, r)
      let (digits, after) := scanDigits signed.2
      if digits.isEmpty then (0, cs)
      else (if signed.1 then -(digitsValue digits : Int) else digitsValue digits, after)
    else (0, cs)
  | [] => (0, cs)

namespace Decimal

/-- Reads digits, a point and digits (one side may be missing) and a power of ten, to the end. -/
def ofChars? (cs : List Char) : Option Decimal :=
  let (whole, rest) := scanDigits cs
  let (fraction, rest) := match rest with
    | '.' :: r => scanDigits r
    | r => ([], r)
  if whole.isEmpty && fraction.isEmpty then none
  else
    let (power, rest) := scanPower rest
    if rest.isEmpty then some ⟨digitsValue (whole ++ fraction), power - fraction.length⟩ else none

end Decimal

/-- The value of digits of a base up to sixteen. -/
def ofBase? (base : Nat) (cs : List Char) : Option Nat :=
  if cs.isEmpty then none
  else cs.foldlM (fun n c =>
    let d :=
      if c.isDigit then c.toNat - 48
      else if 'a' ≤ c ∧ c ≤ 'f' then c.toNat - 87
      else if 'A' ≤ c ∧ c ≤ 'F' then c.toNat - 55
      else 16
    if d < base then some (base * n + d) else none) 0

namespace Number

/-- A numeral without sign, or `Infinity`. -/
def ofUnsigned? (negative : Bool) (cs : List Char) : Option Number :=
  if cs = "Infinity".toList then some (.infinite negative)
  else (Decimal.ofChars? cs).map (ofDecimal negative)

/-- Reads a text as a number: white space around is dropped, the empty text is zero, and what is
neither a decimal numeral nor an unsigned one of base 16, 8 or 2 is `nan`. -/
def ofNumeral (s : String) : Number :=
  match Text.trim s.toList with
  | [] => zero
  | '0' :: b :: rest =>
    let base := if b = 'x' ∨ b = 'X' then 16 else if b = 'o' ∨ b = 'O' then 8
      else if b = 'b' ∨ b = 'B' then 2 else 0
    if base = 0 then (ofUnsigned? false ('0' :: b :: rest)).getD .nan
    else ((ofBase? base rest).map ofNat).getD .nan
  | '+' :: rest => (ofUnsigned? false rest).getD .nan
  | '-' :: rest => (ofUnsigned? true rest).getD .nan
  | cs => (ofUnsigned? false cs).getD .nan

end Number

end Coroutines
