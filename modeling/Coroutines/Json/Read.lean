import Coroutines.Json.Basic
import Coroutines.Number.Numeral

/-!
# Reading JSON

The grammar of RFC 8259 and nothing more: no byte order mark, no comment, no comma at the end, no
leading zero.  The reader's fuel is the length of the text, of which every value takes at least
one character.
-/

namespace Coroutines.Json

def isSpace (c : Char) : Bool := c = ' ' || c = '\t' || c = '\n' || c = '\r'

def skipSpace (cs : List Char) : List Char := cs.dropWhile isSpace

/-- Four digits of base sixteen. -/
def hex4? (cs : List Char) : Option (Nat × List Char) :=
  if (cs.take 4).length = 4 then (ofBase? 16 (cs.take 4)).map (·, cs.drop 4) else none

/-- What follows a backslash and `u`: a code unit, or two that make up one character.  A half of
such a pair on its own becomes the replacement character. -/
def readUnits? (cs : List Char) : Option (Char × List Char) :=
  match hex4? cs with
  | none => none
  | some (u, rest) =>
    if 0xD800 ≤ u ∧ u < 0xDC00 then
      match rest with
      | '\\' :: 'u' :: more =>
        match hex4? more with
        | some (v, after) =>
          if 0xDC00 ≤ v ∧ v < 0xE000 then
            some (Char.ofNat (0x10000 + (u - 0xD800) * 0x400 + (v - 0xDC00)), after)
          else some (Char.ofNat 0xFFFD, rest)
        | none => some (Char.ofNat 0xFFFD, rest)
      | _ => some (Char.ofNat 0xFFFD, rest)
    else if 0xDC00 ≤ u ∧ u < 0xE000 then some (Char.ofNat 0xFFFD, rest)
    else some (Char.ofNat u, rest)

/-- What follows a backslash. -/
def readEscape? : List Char → Option (Char × List Char)
  | '"' :: rest => some ('"', rest)
  | '\\' :: rest => some ('\\', rest)
  | '/' :: rest => some ('/', rest)
  | 'b' :: rest => some ('\x08', rest)
  | 'f' :: rest => some ('\x0c', rest)
  | 'n' :: rest => some ('\n', rest)
  | 'r' :: rest => some ('\r', rest)
  | 't' :: rest => some ('\t', rest)
  | 'u' :: rest => readUnits? rest
  | _ => none

/-- The characters of a text up to its closing quote. -/
def readText : (fuel : Nat) → List Char → Option (List Char × List Char)
  | 0, _ => none
  | _ + 1, [] => none
  | _ + 1, '"' :: rest => some ([], rest)
  | fuel + 1, '\\' :: rest =>
    match readEscape? rest with
    | some (c, after) => (readText fuel after).map fun (cs, r) => (c :: cs, r)
    | none => none
  | fuel + 1, c :: rest =>
    if c.toNat < 0x20 then none
    else (readText fuel rest).map fun (cs, r) => (c :: cs, r)

/-- The digits before the point, where a zero stands alone. -/
def scanWhole : List Char → List Char × List Char
  | '0' :: r => (['0'], r)
  | r => scanDigits r

/-- The digits after a point; a point without a digit is not taken. -/
def scanFraction (cs : List Char) : List Char × List Char :=
  match cs with
  | '.' :: r => if (scanDigits r).1.isEmpty then ([], cs) else scanDigits r
  | _ => ([], cs)

/-- A numeral without sign. -/
def readUnsigned (negative : Bool) (cs : List Char) : Option (Number × List Char) :=
  let (whole, rest) := scanWhole cs
  if whole.isEmpty then none
  else
    let (fraction, rest) := scanFraction rest
    let (power, rest) := scanPower rest
    some (.ofDecimal negative ⟨digitsValue (whole ++ fraction), power - fraction.length⟩, rest)

def readNumber : List Char → Option (Number × List Char)
  | '-' :: rest => readUnsigned true rest
  | cs => readUnsigned false cs

mutual

/-- A value at the head of the characters, and what follows it. -/
def readValue : (fuel : Nat) → List Char → Option (Json × List Char)
  | 0, _ => none
  | fuel + 1, cs =>
    match cs with
    | '\x7b' :: rest =>
      match skipSpace rest with
      | '\x7d' :: after => some (.object [], after)
      | more => (readMembers fuel more).map fun (members, r) => (.ofMembers members, r)
    | '[' :: rest =>
      match skipSpace rest with
      | ']' :: after => some (.array [], after)
      | more => (readItems fuel more).map fun (items, r) => (.array items, r)
    | '"' :: rest => (readText fuel rest).map fun (s, r) => (.text (.ofList s), r)
    | 't' :: 'r' :: 'u' :: 'e' :: rest => some (.bool true, rest)
    | 'f' :: 'a' :: 'l' :: 's' :: 'e' :: rest => some (.bool false, rest)
    | 'n' :: 'u' :: 'l' :: 'l' :: rest => some (.null, rest)
    | _ => (readNumber cs).map fun (n, r) => (.number n, r)

/-- The items of an array after its opening bracket, of which there is at least one. -/
def readItems : (fuel : Nat) → List Char → Option (List Json × List Char)
  | 0, _ => none
  | fuel + 1, cs =>
    match readValue fuel cs with
    | none => none
    | some (v, rest) =>
      match skipSpace rest with
      | ',' :: more => (readItems fuel (skipSpace more)).map fun (vs, r) => (v :: vs, r)
      | ']' :: after => some ([v], after)
      | _ => none

/-- The members of an object after its opening brace, of which there is at least one. -/
def readMembers : (fuel : Nat) → List Char → Option (List (String × Json) × List Char)
  | 0, _ => none
  | fuel + 1, cs =>
    match cs with
    | '"' :: rest =>
      match readText fuel rest with
      | none => none
      | some (key, rest) =>
        match skipSpace rest with
        | ':' :: rest =>
          match readValue fuel (skipSpace rest) with
          | none => none
          | some (v, rest) =>
            let member := (String.ofList key, v)
            match skipSpace rest with
            | ',' :: more => (readMembers fuel (skipSpace more)).map fun (ms, r) => (member :: ms, r)
            | '\x7d' :: after => some ([member], after)
            | _ => none
        | _ => none
    | _ => none

end

/-- Reads a whole text as one value. -/
def parse? (s : String) : Option Json :=
  let cs := skipSpace s.toList
  match readValue (cs.length + 1) cs with
  | some (v, rest) => if (skipSpace rest).isEmpty then some v else none
  | none => none

end Coroutines.Json
