import Coroutines.Code
import Coroutines.Json.Basic

/-!
# Units as JSON

The object of a unit.  An optional field that is absent in the unit is absent in the object.
-/

namespace Coroutines

/-- The member of an optional field. -/
def Json.member? (key : String) (value : Option Json) : List (String × Json) :=
  (value.map fun v => (key, v)).toList

def Site.json (s : Site) : Json :=
  .object [("line", .number s.line), ("col", .number s.column), ("endCol", .number s.endColumn)]

def Literal.json : Literal → Json
  | .none => .null
  | .bool b => .bool b
  | .number n => .number n
  | .text s => .text s

namespace Expr

mutual

def json : Expr → Json
  | .const value float =>
    .object ([("kind", .text "Const"), ("value", value.json)] ++ Json.member? "float" (float.map .bool))
  | .name n site =>
    .object ([("kind", .text "Name"), ("name", .text n)] ++ Json.member? "at" (site.map Site.json))
  | .list elements => .object [("kind", .text "List"), ("elements", .array (jsons elements))]
  | .tuple elements => .object [("kind", .text "Tuple"), ("elements", .array (jsons elements))]
  | .binary op left right site =>
    .object [("kind", .text "Binary"), ("op", .text op.symbol), ("left", json left),
      ("right", json right), ("at", site.json)]
  | .call callee args keywords site =>
    .object ([("kind", .text "Call"), ("callee", json callee), ("args", .array (jsons args))] ++
      (match keywords with
        | some ks => [("keywords", .array (keywordJsons ks))]
        | none => []) ++
      [("at", site.json)])

def jsons : List Expr → List Json
  | [] => []
  | e :: rest => json e :: jsons rest

def keywordJsons : List (String × Expr) → List Json
  | [] => []
  | (n, e) :: rest => .object [("name", .text n), ("value", json e)] :: keywordJsons rest

end

end Expr

namespace Stmt

def json : Stmt → Json
  | .assign name value site =>
    .object ([("kind", .text "Assign"), ("name", .text name), ("value", value.json)] ++
      Json.member? "at" (site.map Site.json))
  | .expr value site =>
    .object ([("kind", .text "Expr"), ("value", value.json)] ++
      Json.member? "at" (site.map Site.json))
  | .await target value site =>
    .object ([("kind", .text "Await")] ++ Json.member? "target" (target.map .text) ++
      [("value", value.json), ("at", site.json)])
  | .ret value site =>
    .object ([("kind", .text "Return")] ++ Json.member? "value" (value.map Expr.json) ++
      Json.member? "at" (site.map Site.json))
  | .assert test message site =>
    .object ([("kind", .text "Assert"), ("test", test.json)] ++
      Json.member? "msg" (message.map Expr.json) ++ [("at", site.json)])

end Stmt

def FunctionDecl.json (fn : FunctionDecl) : Json :=
  .object [("name", .text fn.name), ("async", .bool fn.isAsync),
    ("params", .array (fn.params.map .text)), ("body", .array (fn.body.map Stmt.json))]

namespace CompiledUnit

def inputsJson (names : List String) : Json := .array (names.map .text)

/-- The object of a unit without its file name. -/
def namelessMembers (unit : CompiledUnit) : List (String × Json) :=
  [("source", .text unit.source)] ++ Json.member? "inputs" (unit.inputs.map inputsJson) ++
    [("functions", .array (unit.functions.map FunctionDecl.json)),
      ("module", .array (unit.module.map Stmt.json))]

def json (unit : CompiledUnit) : Json := .object (("file", .text unit.file) :: unit.namelessMembers)

end CompiledUnit

end Coroutines
