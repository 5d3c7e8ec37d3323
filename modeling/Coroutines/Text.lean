import Coroutines.Number.Basic

/-!
# Text measured in 16-bit units

Texts are `String`s; lengths, columns and the order of texts count the 16-bit code units of
their characters, of which a character outside the basic plane has two.  Texts have a greatest
length, `Text.maxLength`; building a longer one is refused.
-/

namespace Coroutines.Text

/-- The code units of a character. -/
def unitsOfChar (c : Char) : List Nat :=
  if c.toNat < 0x10000 then [c.toNat]
  else [0xD800 + (c.toNat - 0x10000) / 0x400, 0xDC00 + (c.toNat - 0x10000) % 0x400]

def units (s : String) : List Nat := s.toList.flatMap unitsOfChar

/-- How many code units a list of characters takes. -/
def width (cs : List Char) : Nat :=
  cs.foldl (fun n c => if c.toNat < 0x10000 then n + 1 else n + 2) 0

/-- How many code units a text takes: as many as bytes where every character is one byte. -/
def length (s : String) : Nat := if s.utf8ByteSize = s.length then s.length else width s.toList

/-- Dictionary order of code units. -/
def unitsLt : List Nat → List Nat → Bool
  | [], [] => false
  | [], _ :: _ => true
  | _ :: _, [] => false
  | a :: as, b :: bs => if a = b then unitsLt as bs else a < b

def lt (a b : String) : Bool := unitsLt (units a) (units b)

/-- White space at the ends of a text: controls that move the cursor, the space separators, the
line and paragraph separators and the byte order mark. -/
def isBlank (c : Char) : Bool :=
  let n := c.toNat
  (0x9 ≤ n && n ≤ 0xD) || n = 0x20 || n = 0xA0 || n = 0x1680 || (0x2000 ≤ n && n ≤ 0x200A) ||
    n = 0x2028 || n = 0x2029 || n = 0x202F || n = 0x205F || n = 0x3000 || n = 0xFEFF

def trimStart (cs : List Char) : List Char := cs.dropWhile isBlank

def trimEnd (cs : List Char) : List Char := (cs.reverse.dropWhile isBlank).reverse

def trim (cs : List Char) : List Char := trimEnd (trimStart cs)

/-- The lines of a text, split at line feeds with or without a carriage return before them. -/
def linesOf : List Char → List (List Char)
  | [] => [[]]
  | '\r' :: '\n' :: rest => [] :: linesOf rest
  | '\n' :: rest => [] :: linesOf rest
  | c :: rest =>
    match linesOf rest with
    | [] => [[c]]
    | line :: more => (c :: line) :: more

def lines (s : String) : List String := (linesOf s.toList).map String.ofList

/-- The greatest length of a text. -/
def maxLength : Nat := 536870888

/-- How many copies a count asks for: without its fraction, `nan` as none; refused at `-1` or
less and beyond the greatest length. -/
def copyCount? (count : Number) : Option Nat :=
  match count.trunc with
  | .nan => some 0
  | .infinite _ => none
  | n =>
    match n.toInt? with
    | some k => if k < 0 ∨ (maxLength : Int) < k then none else some k.toNat
    | none => none

/-- A text over and over; the empty text may be copied any finite number of times. -/
def copies? (s : String) (count : Number) : Option String :=
  if s.isEmpty then
    if count.trunc.lt .zero || count.abs.equals (.infinite false) then none else some ""
  else
    match copyCount? count with
    | some k =>
      if maxLength < length s * k then none else some (String.join (List.replicate k s))
    | none => none

/-- A text that was put together, refused beyond the greatest length. -/
def bounded? (s : String) : Option String := if maxLength < length s then none else some s

/-- The texts one after the other, refused beyond the greatest length. -/
def append? (a b : String) : Option String :=
  if maxLength < length a + length b then none else some (a ++ b)

/-- The length of texts with a separator between them. -/
def joinedLength (sep : String) : List String → Nat
  | [] => 0
  | [s] => length s
  | s :: rest => length s + length sep + joinedLength sep rest

/-- Texts with a separator between them, refused beyond the greatest length. -/
def join? (sep : String) (parts : List String) : Option String :=
  if maxLength < joinedLength sep parts then none else some (sep.intercalate parts)

/-- The line of a number, counted from one. -/
def lineAt? (lines : List String) (line : Number) : Option String :=
  match (line.sub (.ofNat 1)).toInt? with
  | some i => if i < 0 then none else lines[i.toNat]?
  | none => none

end Coroutines.Text
