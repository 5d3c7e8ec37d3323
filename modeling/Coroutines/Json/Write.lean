import Coroutines.Json.Basic

/-!
# Writing JSON

The compact form has no white space; the indented form puts each item on a line of its own, two
spaces deeper than its container.  A number that is not finite is written as `null`.
-/

namespace Coroutines.Json

def hexDigit (n : Nat) : Char := if n < 10 then Char.ofNat (48 + n) else Char.ofNat (87 + n)

/-- A character inside a quoted text: quotes, backslashes and control characters are escaped. -/
def escape (c : Char) : List Char :=
  if c = '"' then ['\\', '"']
  else if c = '\\' then ['\\', '\\']
  else if c = '\x08' then ['\\', 'b']
  else if c = '\t' then ['\\', 't']
  else if c = '\n' then ['\\', 'n']
  else if c = '\x0c' then ['\\', 'f']
  else if c = '\r' then ['\\', 'r']
  else if c.toNat < 0x20 then
    ['\\', 'u', '0', '0', hexDigit (c.toNat / 16), hexDigit (c.toNat % 16)]
  else [c]

def textChars (s : String) : List Char := '"' :: s.toList.flatMap escape ++ ['"']

def numberChars (n : Number) : List Char := if n.isFinite then n.chars else "null".toList

mutual

def compactChars : Json → List Char
  | .null => "null".toList
  | .bool b => if b then "true".toList else "false".toList
  | .number n => numberChars n
  | .text s => textChars s
  | .array items => '[' :: compactItems items ++ [']']
  | .object members => '\x7b' :: compactMembers members ++ ['\x7d']

def compactItems : List Json → List Char
  | [] => []
  | [v] => compactChars v
  | v :: rest => compactChars v ++ ',' :: compactItems rest

def compactMembers : List (String × Json) → List Char
  | [] => []
  | [(key, v)] => textChars key ++ ':' :: compactChars v
  | (key, v) :: rest => textChars key ++ ':' :: compactChars v ++ ',' :: compactMembers rest

end

def compact (v : Json) : String := String.ofList v.compactChars

/-- A line break and the indentation of a depth. -/
def lineBreak (depth : Nat) : List Char := '\n' :: List.replicate (2 * depth) ' '

mutual

def indentedChars (depth : Nat) : Json → List Char
  | .array [] => ['[', ']']
  | .array items => '[' :: indentedItems (depth + 1) items ++ lineBreak depth ++ [']']
  | .object [] => ['\x7b', '\x7d']
  | .object members =>
    '\x7b' :: indentedMembers (depth + 1) members ++ lineBreak depth ++ ['\x7d']
  | .null => "null".toList
  | .bool b => if b then "true".toList else "false".toList
  | .number n => numberChars n
  | .text s => textChars s

def indentedItems (depth : Nat) : List Json → List Char
  | [] => []
  | [v] => lineBreak depth ++ indentedChars depth v
  | v :: rest => lineBreak depth ++ indentedChars depth v ++ ',' :: indentedItems depth rest

def indentedMembers (depth : Nat) : List (String × Json) → List Char
  | [] => []
  | [(key, v)] => lineBreak depth ++ textChars key ++ ':' :: ' ' :: indentedChars depth v
  | (key, v) :: rest =>
    lineBreak depth ++ textChars key ++ ':' :: ' ' :: indentedChars depth v ++
      ',' :: indentedMembers depth rest

end

def indented (v : Json) : String := String.ofList (v.indentedChars 0)

end Coroutines.Json
