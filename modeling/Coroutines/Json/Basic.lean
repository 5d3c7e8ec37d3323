import Coroutines.Number.Decimal
import Coroutines.Bindings

/-!
# JSON data

An object holds each key once, index keys first and rising (`Json.ofMembers`).
-/

namespace Coroutines

inductive Json where
  | null
  | bool (b : Bool)
  | number (n : Number)
  | text (s : String)
  | array (items : List Json)
  | object (members : List (String × Json))

instance : Inhabited Json := ⟨.null⟩

namespace Json

/-- The object of members given one after the other; of members with one key the last counts. -/
def ofMembers (members : List (String × Json)) : Json :=
  .object (Bindings.ofList members).indexFirst

def nat (n : Nat) : Json := .number (.ofNat n)

/-- The value under a key of an object. -/
def get? : Json → String → Option Json
  | .object members, key => Bindings.get? members key
  | _, _ => none

end Json

end Coroutines
