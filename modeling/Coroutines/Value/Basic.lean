import Coroutines.Number.Whole
import Coroutines.Record
import Coroutines.Code
import Coroutines.Text

/-!
# Script values

Values, their kinds and what a kind allows, the items of an iterable value and truth.
Coroutines and join groups are references into the scheduler's world; a function, a range, a host
object and an exception value carry the identity by which they are told apart.
-/

namespace Coroutines

/-- A coroutine of the world, with the name it was created under. -/
structure CoroutineRef where
  id : Nat
  name : String
  deriving DecidableEq, Repr

/-- A join group of the world, with the number of its members. -/
structure GroupRef where
  id : Nat
  size : Nat
  deriving DecidableEq, Repr

inductive Builtin where
  | abs
  | len
  | list
  | range
  | map
  | filter
  | sum
  | any
  | all
  | print
  | run
  | gather
  deriving DecidableEq, Repr

namespace Builtin

/-- The name by which scripts call a builtin. -/
def name : Builtin → String
  | .abs => "abs"
  | .len => "len"
  | .list => "list"
  | .range => "range"
  | .map => "map"
  | .filter => "filter"
  | .sum => "sum"
  | .any => "any"
  | .all => "all"
  | .print => "print"
  | .run => "asyncio.run"
  | .gather => "asyncio.gather"

def values : List Builtin :=
  [.abs, .len, .list, .range, .map, .filter, .sum, .any, .all, .print, .run, .gather]

theorem mem_values (b : Builtin) : b ∈ values := by cases b <;> simp [values]

def names : List String := values.map name

def ofName? (s : String) : Option Builtin := values.find? (·.name = s)

theorem ofName?_name (b : Builtin) : ofName? b.name = some b := by cases b <;> decide

end Builtin

inductive Value where
  | none
  | bool (b : Bool)
  | int (n : Whole)
  | float (x : Number)
  | str (s : String)
  | list (items : List Value)
  | tuple (items : List Value)
  | builtin (b : Builtin)
  | function (identity : Nat) (decl : FunctionDecl)
  | coroutine (c : CoroutineRef)
  | joinGroup (g : GroupRef)
  /-- A failure held as a value, such as a result of a group that returns exceptions. -/
  | exception (identity : Nat) (record : Record)
  | range (identity : Nat) (start stop step : Whole)
  /-- An object of a kind that the host declares, with the items it yields. -/
  | object (identity : Nat) (kind : String) (capabilities : List Capability) (items : List Value)

instance : Inhabited Value := ⟨.none⟩

/-- The kind of a value, as diagnostics name it, and what it allows. -/
structure Kind where
  name : String
  capabilities : List Capability
  deriving DecidableEq, Repr

namespace Value

def kind : Value → Kind
  | .none => ⟨"NoneType", []⟩
  | .bool _ => ⟨"bool", []⟩
  | .int _ => ⟨"int", []⟩
  | .float _ => ⟨"float", []⟩
  | .str _ => ⟨"str", [.iterable]⟩
  | .list _ => ⟨"list", [.iterable]⟩
  | .tuple _ => ⟨"tuple", [.iterable]⟩
  | .builtin _ => ⟨"builtin_function_or_method", [.callable]⟩
  | .function _ _ => ⟨"function", [.callable]⟩
  | .coroutine _ => ⟨"coroutine", [.awaitable]⟩
  | .joinGroup _ => ⟨"_GatheringFuture", [.awaitable]⟩
  | .exception _ record => ⟨record.failure.excType.name, []⟩
  | .range _ _ _ _ => ⟨"range", [.iterable]⟩
  | .object _ kind capabilities _ => ⟨kind, capabilities⟩

def kindName (v : Value) : String := v.kind.name

def supports (v : Value) (c : Capability) : Bool := v.kind.capabilities.contains c

/-- Why a kind that the host declares is refused: an iterable kind must say what it yields. -/
def kindError? (kind : String) (capabilities : List Capability) (yields : Bool) : Option String :=
  if capabilities.contains .iterable && !yields then
    some s!"Kind '{kind}' declares 'iterable' without an iterate hook."
  else Option.none

/-- Whether an upward count still goes on at `i`. -/
def ranges (i stop step : Number) : Bool :=
  if Number.zero.lt step then i.lt stop else step.lt .zero && stop.lt i

/-- How many units lie between two numbers. -/
def gap (a b : Number) : Nat := (b.position - a.position).natAbs

/-- The numbers `i`, `i + step`, ... before `stop`.  It is cut where the next number comes no
closer to `stop`, for there it would not end (`staysBefore`). -/
def progression (i stop step : Number) : List Whole :=
  if ranges i stop step then
    let next := i.add step
    if ranges next stop step then
      if gap next stop < gap i stop then Whole.ofNumber i :: progression next stop step
      else [Whole.ofNumber i]
    else [Whole.ofNumber i]
  else []
termination_by gap i stop

/-- Whether the numbers `i`, `i + step`, ... stay before `stop` for ever, as they do once the next one
comes no closer. -/
def staysBefore (i stop step : Number) : Bool :=
  if ranges i stop step then
    let next := i.add step
    if ranges next stop step then
      if gap next stop < gap i stop then staysBefore next stop step else true
    else false
  else false
termination_by gap i stop

/-- Whether the items of a value have no end. -/
def endless : Value → Bool
  | .range _ start stop step => staysBefore start.val stop.val step.val
  | _ => false

/-- The items of an iterable value; none for any other. -/
def items : Value → List Value
  | .str s => s.toList.map fun c => .str (String.singleton c)
  | .list items | .tuple items => items
  | .range _ start stop step => (progression start.val stop.val step.val).map .int
  | .object _ _ capabilities items => if capabilities.contains .iterable then items else []
  | _ => []

def truthy : Value → Bool
  | .none => false
  | .bool b => b
  | .int n => !n.val.equals .zero
  | .float x => !x.equals .zero
  | .str s => s ≠ ""
  | .list items | .tuple items => !items.isEmpty
  | _ => true

/-- The number that a bool, an int or a float stands for. -/
def numeric? : Value → Option Number
  | .bool b => some (.ofNat b.toNat)
  | .int n => some n.val
  | .float x => some x
  | _ => Option.none

end Value

end Coroutines
