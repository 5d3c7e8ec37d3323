import Coroutines.UnitFile.Decode

/-!
# What is wrong with a unit file

The issues of a JSON value that should be a unit, in the order of the fields below, each at the
path of the offending value.  Fields that are not listed are of no account.
-/

namespace Coroutines

/-- A defect of a unit file. -/
structure Issue where
  path : List String
  message : String
  deriving DecidableEq

namespace Issue

/-- The path as text, or a mark for the whole file. -/
def place (i : Issue) : String := if i.path.isEmpty then "<root>" else ".".intercalate i.path

end Issue

namespace UnitFile

/-- What is wrong with a value, if there is one, at a path. -/
abbrev Check := List String → Option Json → List Issue

def typeName : Json → String
  | .null => "null"
  | .bool _ => "boolean"
  | .number _ => "number"
  | .text _ => "string"
  | .array _ => "array"
  | .object _ => "object"

/-- The issue of a value that is absent or not of the expected type. -/
def mistyped (expected : String) : Check
  | path, none => [⟨path, "Required"⟩]
  | path, some j => [⟨path, s!"Expected {expected}, received {typeName j}"⟩]

def text (missing : String) : Check
  | _, some (.text _) => []
  | path, none => [⟨path, missing⟩]
  | path, j => mistyped "string" path j

def name : Check
  | path, some (.text s) =>
    if s.isEmpty then [⟨path, "String must contain at least 1 character(s)"⟩] else []
  | path, j => mistyped "string" path j

def boolean : Check
  | _, some (.bool _) => []
  | path, j => mistyped "boolean" path j

/-- A whole number with a lower bound; both rules are checked. -/
def whole (least : Nat) : Check
  | path, some (.number n) =>
    (if n.isInteger then [] else [⟨path, "Expected integer, received float"⟩]) ++
      if n.lt (.ofNat least) then
        [⟨path, s!"Number must be greater than or equal to {least}"⟩]
      else []
  | path, j => mistyped "number" path j

/-- A value that may be absent. -/
def optional (check : Check) : Check
  | _, none => []
  | path, j => check path j

def arrayOf (check : Check) : Check
  | path, some (.array items) =>
    items.zipIdx.flatMap fun (v, i) => check (path ++ [toString i]) (some v)
  | path, j => mistyped "array" path j

/-- The issues of fields, one after the other. -/
def fields (path : List String) (j : Json) (checks : List (String × Check)) : List Issue :=
  checks.flatMap fun (key, check) => check (path ++ [key]) (j.get? key)

def object (checks : List (String × Check)) : Check
  | path, some (.object members) => fields path (.object members) checks
  | path, j => mistyped "object" path j

/-- Alternatives in quotes. -/
def alternatives (names : List String) : String := " | ".intercalate (names.map fun n => s!"'{n}'")

/-- An object whose kind says which fields it has. -/
def variant (kinds : List (String × List (String × Check))) : Check
  | path, some (.object members) =>
    match ((Json.object members).field? "kind" Json.text?).bind (Bindings.get? kinds) with
    | some checks => fields path (.object members) checks
    | none =>
      let known := alternatives (kinds.map Prod.fst)
      [⟨path ++ ["kind"], s!"Invalid discriminator value. Expected {known}"⟩]
  | path, j => mistyped "object" path j

def site : Check := object [("line", whole 1), ("col", whole 0), ("endCol", whole 0)]

def literal : Check
  | path, none => [⟨path, "Invalid input"⟩]
  | path, some j => if (literal? j).isSome then [] else [⟨path, "Invalid input"⟩]

def operator : Check
  | path, some (.text s) =>
    if (BinaryOp.ofSymbol? s).isSome then []
    else
      let known := alternatives (BinaryOp.all.map BinaryOp.symbol)
      [⟨path, s!"Invalid enum value. Expected {known}, received '{s}'"⟩]
  | path, j => mistyped (alternatives (BinaryOp.all.map BinaryOp.symbol)) path j

/-- An expression nested at most `levels` deep. -/
def expr : (levels : Nat) → Check
  | 0, path, _ => [⟨path, "Invalid input"⟩]
  | levels + 1, path, j =>
    let elements := arrayOf (expr levels)
    variant
      [("Const", [("value", literal), ("float", optional boolean)]),
        ("Name", [("name", name), ("at", optional site)]),
        ("List", [("elements", elements)]),
        ("Tuple", [("elements", elements)]),
        ("Binary", [("op", operator), ("left", expr levels), ("right", expr levels), ("at", site)]),
        ("Call",
          [("callee", expr levels), ("args", elements),
            ("keywords", optional (arrayOf (object [("name", name), ("value", expr levels)]))),
            ("at", site)])]
      path j

/-- An expression of any depth. -/
def expression : Check
  | path, none => mistyped "object" path none
  | path, some j => expr (j.depth + 1) path (some j)

def stmt : Check :=
  variant
    [("Assign", [("name", name), ("value", expression), ("at", optional site)]),
      ("Expr", [("value", expression), ("at", optional site)]),
      ("Await", [("target", optional name), ("value", expression), ("at", site)]),
      ("Return", [("value", optional expression), ("at", optional site)]),
      ("Assert", [("test", expression), ("msg", optional expression), ("at", site)])]

def function : Check :=
  object [("name", name), ("async", boolean), ("params", arrayOf name), ("body", arrayOf stmt)]

def unit : Check :=
  object
    [("file", optional name), ("source", text "A unit needs its 'source' text"),
      ("inputs", optional (arrayOf name)), ("functions", optional (arrayOf function)),
      ("module", arrayOf stmt)]

/-- The issues of a unit file. -/
def issues (j : Json) : List Issue := unit [] (some j)

end UnitFile

end Coroutines
