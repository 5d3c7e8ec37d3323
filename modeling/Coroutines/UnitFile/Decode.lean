import Coroutines.Code
import Coroutines.Json.Basic

/-!
# Units from JSON

The unit that a JSON object describes.  Only the shape counts here: names may be empty and sites
may lie anywhere, which is what `UnitFile.Issues` reports.
-/

namespace Coroutines

namespace Json

mutual

/-- How deep arrays and objects are nested. -/
def depth : Json → Nat
  | .array items => itemsDepth items + 1
  | .object members => membersDepth members + 1
  | _ => 0

def itemsDepth : List Json → Nat
  | [] => 0
  | v :: rest => Nat.max (depth v) (itemsDepth rest)

def membersDepth : List (String × Json) → Nat
  | [] => 0
  | (_, v) :: rest => Nat.max (depth v) (membersDepth rest)

end

def text? : Json → Option String
  | .text s => some s
  | _ => none

def number? : Json → Option Number
  | .number n => some n
  | _ => none

def bool? : Json → Option Bool
  | .bool b => some b
  | _ => none

def items? : Json → Option (List Json)
  | .array items => some items
  | _ => none

/-- A member that must be there. -/
def field? {α : Type} (j : Json) (key : String) (read : Json → Option α) : Option α :=
  (j.get? key).bind read

/-- A member that may be absent; one that is there must be readable. -/
def optional? {α : Type} (j : Json) (key : String) (read : Json → Option α) :
    Option (Option α) :=
  match j.get? key with
  | none => some none
  | some v => (read v).map some

/-- An array of readable items. -/
def list? {α : Type} (read : Json → Option α) (j : Json) : Option (List α) :=
  j.items?.bind fun items => items.mapM read

end Json

namespace UnitFile

def site? (j : Json) : Option Site := do
  let line ← j.field? "line" Json.number?
  let column ← j.field? "col" Json.number?
  let endColumn ← j.field? "endCol" Json.number?
  some ⟨line, column, endColumn⟩

def literal? : Json → Option Literal
  | .null => some .none
  | .bool b => some (.bool b)
  | .number n => some (.number n)
  | .text s => some (.text s)
  | _ => none

def operator? (j : Json) : Option BinaryOp := j.text?.bind BinaryOp.ofSymbol?

/-- A keyword argument, its value read by `expr`. -/
def keyword? (expr : Json → Option Expr) (j : Json) : Option (String × Expr) := do
  let name ← j.field? "name" Json.text?
  let value ← j.field? "value" expr
  some (name, value)

/-- An expression nested at most `levels` deep. -/
def expr? : (levels : Nat) → Json → Option Expr
  | 0, _ => none
  | levels + 1, j => do
    match ← j.field? "kind" Json.text? with
    | "Const" => do
      let value ← j.field? "value" literal?
      let float ← j.optional? "float" Json.bool?
      some (.const value float)
    | "Name" => do
      let name ← j.field? "name" Json.text?
      let site ← j.optional? "at" site?
      some (.name name site)
    | "List" => do
      let elements ← j.field? "elements" (Json.list? (expr? levels))
      some (.list elements)
    | "Tuple" => do
      let elements ← j.field? "elements" (Json.list? (expr? levels))
      some (.tuple elements)
    | "Binary" => do
      let op ← j.field? "op" operator?
      let left ← j.field? "left" (expr? levels)
      let right ← j.field? "right" (expr? levels)
      let site ← j.field? "at" site?
      some (.binary op left right site)
    | "Call" => do
      let callee ← j.field? "callee" (expr? levels)
      let args ← j.field? "args" (Json.list? (expr? levels))
      let keywords ← j.optional? "keywords" (Json.list? (keyword? (expr? levels)))
      let site ← j.field? "at" site?
      some (.call callee args keywords site)
    | _ => none

/-- An expression of any depth. -/
def expression? (j : Json) : Option Expr := expr? (j.depth + 1) j

def stmt? (j : Json) : Option Stmt := do
  match ← j.field? "kind" Json.text? with
  | "Assign" => do
    let name ← j.field? "name" Json.text?
    let value ← j.field? "value" expression?
    let site ← j.optional? "at" site?
    some (.assign name value site)
  | "Expr" => do
    let value ← j.field? "value" expression?
    let site ← j.optional? "at" site?
    some (.expr value site)
  | "Await" => do
    let target ← j.optional? "target" Json.text?
    let value ← j.field? "value" expression?
    let site ← j.field? "at" site?
    some (.await target value site)
  | "Return" => do
    let value ← j.optional? "value" expression?
    let site ← j.optional? "at" site?
    some (.ret value site)
  | "Assert" => do
    let test ← j.field? "test" expression?
    let message ← j.optional? "msg" expression?
    let site ← j.field? "at" site?
    some (.assert test message site)
  | _ => none

def function? (j : Json) : Option FunctionDecl := do
  let name ← j.field? "name" Json.text?
  let isAsync ← j.field? "async" Json.bool?
  let params ← j.field? "params" (Json.list? Json.text?)
  let body ← j.field? "body" (Json.list? stmt?)
  some ⟨name, isAsync, params, body⟩

/-- The unit of an object; `file` is its name where the object has none. -/
def decode? (file : String) (j : Json) : Option CompiledUnit := do
  let declared ← j.optional? "file" Json.text?
  let source ← j.field? "source" Json.text?
  let inputs ← j.optional? "inputs" (Json.list? Json.text?)
  let functions ← j.optional? "functions" (Json.list? function?)
  let module ← j.field? "module" (Json.list? stmt?)
  some ⟨declared.getD file, source, inputs, functions.getD [], module⟩

end UnitFile

end Coroutines
