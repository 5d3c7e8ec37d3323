import Coroutines.Value.Basic
import Coroutines.Number.Decimal

/-!
# Text of values

`repr` is the text of a value in a listing, `display` the one that `print` writes.
-/

namespace Coroutines

/-- The text of a float: a point and a zero after a whole number below `10 ^ 16`. -/
def Number.floatChars (x : Number) : List Char :=
  match x with
  | .nan => "nan".toList
  | .infinite false => "inf".toList
  | .infinite true => "-inf".toList
  | _ =>
    if x.isInteger && x.abs.lt (.ofNat (Nat.pow 10 16)) then x.chars ++ ['.', '0'] else x.chars

namespace Value

/-- A character inside quotes; the single quote is escaped where it is the mark. -/
def escape (single : Bool) (c : Char) : List Char :=
  if c = '\\' then ['\\', '\\']
  else if c = '\n' then ['\\', 'n']
  else if c = '\t' then ['\\', 't']
  else if c = '\'' ∧ single then ['\\', '\'']
  else [c]

/-- A text in quotes: single ones, unless it holds a single quote and no double one. -/
def quote (cs : List Char) : List Char :=
  if cs.contains '\'' && !cs.contains '"' then '"' :: cs.flatMap (escape false) ++ ['"']
  else '\'' :: cs.flatMap (escape true) ++ ['\'']

mutual

/-- The text of a value in a listing. -/
def reprChars : Value → List Char
  | .none => "None".toList
  | .bool b => if b then "True".toList else "False".toList
  | .int n => n.val.chars
  | .float x => x.floatChars
  | .str s => quote s.toList
  | .list items => '[' :: reprItems items ++ [']']
  | .tuple [v] => '(' :: reprChars v ++ [',', ')']
  | .tuple items => '(' :: reprItems items ++ [')']
  | .builtin b => s!"<built-in function {b.name}>".toList
  | .function _ decl => s!"<function {decl.name}>".toList
  | .coroutine c => s!"<coroutine object {c.name}>".toList
  | .joinGroup g => s!"<_GatheringFuture size={g.size}>".toList
  | .exception _ record =>
    record.failure.excType.name.toList ++ '(' ::
      (match record.failure.message? with
        | some message => quote message.toList
        | Option.none => []) ++ [')']
  | .range _ _ _ _ => "<range object>".toList
  | .object _ kind _ _ => s!"<{kind} object>".toList

/-- The texts of items, separated by a comma and a space. -/
def reprItems : List Value → List Char
  | [] => []
  | [v] => reprChars v
  | v :: rest => reprChars v ++ ',' :: ' ' :: reprItems rest

end

def repr (v : Value) : String := String.ofList v.reprChars

/-- What `print` writes: a text bare, an exception as its message, anything else as listed. -/
def display : Value → String
  | .str s => s
  | .exception _ record => record.failure.message?.getD ""
  | v => v.repr

/-- What `print` writes, absent beyond the greatest length of a text. -/
def display? (v : Value) : Option String := Text.bounded? v.display

end Value

end Coroutines
