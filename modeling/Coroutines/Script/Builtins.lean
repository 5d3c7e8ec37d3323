import Coroutines.Script.Program
import Coroutines.Signature
import Coroutines.Value.Text

/-!
# Builtins

The signature of each builtin and what it does once its arguments have been checked.  `map` and
`filter` call back through `call`; the others call nothing.
-/

namespace Coroutines

/-- Does some work, unless the arguments for it are refused. -/
def Signature.guard (sig : Signature) (args : List Value) (kwargs : Bindings Value) (work : Script Value) :
    Script Value :=
  match sig.check args kwargs with
  | some f => .abort (.raise f)
  | none => work

namespace Builtin

def anyParam (name : String) : ParamShape := ⟨name, none⟩

def signature : Builtin → Signature
  | .abs => ⟨"abs", [anyParam "x"], none, none, none, []⟩
  | .len => ⟨"len", [anyParam "obj"], none, none, none, []⟩
  | .list => ⟨"list", [⟨"iterable", some .iterable⟩], some 0, none, none, []⟩
  | .range => ⟨"range", [anyParam "start", anyParam "stop", anyParam "step"], some 1, none, none, []⟩
  | .map =>
    ⟨"map", [⟨"function", some .callable⟩, ⟨"iterable", some .iterable⟩], none,
      some ⟨"iterables", some .iterable⟩, some "map() must have at least two arguments.", []⟩
  | .filter =>
    ⟨"filter", [anyParam "function", ⟨"iterable", some .iterable⟩], none, none, none, []⟩
  | .sum => ⟨"sum", [⟨"iterable", some .iterable⟩, anyParam "start"], some 1, none, none, []⟩
  | .any => ⟨"any", [⟨"iterable", some .iterable⟩], none, none, none, []⟩
  | .all => ⟨"all", [⟨"iterable", some .iterable⟩], none, none, none, []⟩
  | .print => ⟨"print", [], none, some (anyParam "values"), none, []⟩
  | .run => ⟨"asyncio.run", [⟨"main", some .awaitable⟩], none, none, none, []⟩
  | .gather =>
    ⟨"asyncio.gather", [], none, some ⟨"aws", some .awaitable⟩, none, ["return_exceptions"]⟩

theorem signature_name (b : Builtin) : b.signature.name = b.name := by cases b <;> rfl

def typeError (message : String) : Abort := .raise (.raised .typeError (some message))

/-- The size of a value with a size. -/
def length (v : Value) : Except Abort Value :=
  let counted (n : Nat) : Except Abort Value := .ok (.int (.ofNat n))
  match v with
  | .str s => counted s.length
  | .list items | .tuple items => counted items.length
  | .range _ _ _ _ => counted v.items.length
  | _ => .error (typeError s!"object of type '{v.kindName}' has no len()")

def absolute : Value → Except Abort Value
  | .int n => .ok (.int (.ofNumber n.val.abs))
  | .bool b => .ok (.int (.ofNat b.toNat))
  | .float x => .ok (.float x.abs)
  | v => .error (typeError s!"bad operand type for abs(): '{v.kindName}'")

/-- A bound of a range. -/
def index : Value → Except Abort Whole
  | .int n => .ok n
  | .bool b => .ok (.ofNat b.toNat)
  | v => .error (typeError s!"'{v.kindName}' object cannot be interpreted as an integer")

/-- The start, stop and step that one to three arguments give. -/
def rangeBounds : List Whole → Whole × Whole × Whole
  | [stop] => (.ofNat 0, stop, .ofNat 1)
  | [start, stop] => (start, stop, .ofNat 1)
  | start :: stop :: step :: _ => (start, stop, step)
  | [] => (.ofNat 0, .ofNat 0, .ofNat 1)

/-- A new range. -/
def makeRange (args : List Value) : Script Value := do
  let bounds ← Action.ofExcept (args.mapM index)
  let (start, stop, step) := rangeBounds bounds
  if step.val.equals .zero then
    .abort (.raise (.raised .valueError (some "range() arg 3 must not be zero")))
  else
    .identity fun n => pure (.range n start stop step)

/-- The first `n` rows of columns. -/
def rows : (n : Nat) → List (List Value) → List (List Value)
  | 0, _ => []
  | n + 1, columns => columns.map (·.headD .none) :: rows n (columns.map List.tail)

/-- The length of the shortest column. -/
def shortest : List (List Value) → Nat
  | [] => 0
  | [column] => column.length
  | column :: rest => Nat.min column.length (shortest rest)

/-- Calls a function with each row in turn. -/
def mapRows (call : Calls) (fn : Value) : List (List Value) → Script (List Value)
  | [] => pure []
  | row :: rest => do
    let v ← call fn row []
    let vs ← mapRows call fn rest
    pure (v :: vs)

/-- The items that a predicate holds of, or the true ones without a predicate. -/
def filterItems (call : Calls) (predicate : Value) : List Value → Script (List Value)
  | [] => pure []
  | v :: rest => do
    let keep ← match predicate with
      | .none => pure v
      | _ => call predicate [v] []
    let vs ← filterItems call predicate rest
    pure (if keep.truthy then v :: vs else vs)

/-- The sum of items onto a start. -/
def sumItems (acc : Value) : List Value → Except Abort Value
  | [] => .ok acc
  | v :: rest =>
    match BinaryOp.add.apply acc v with
    | .ok acc => sumItems acc rest
    | .error e => .error e

/-- What `print` writes, the values with spaces between them and a line break, and how it ends: before
the first value whose text is too long. -/
def printed : List Value → String × Except Abort Value
  | [] => ("\n", .ok .none)
  | v :: rest =>
    match v.display? with
    | none => ("", .error .tooLarge)
    | some text =>
      let (more, result) := printed rest
      (text ++ (if rest.isEmpty then more else " " ++ more), result)

theorem printed_snd (args : List Value) :
    (printed args).2 = .ok .none ∨ (printed args).2 = .error .tooLarge := by
  induction args with
  | nil => exact .inl rfl
  | cons v rest ih =>
    cases h : v.display? with
    | none => exact .inr (by rw [printed, h])
    | some text =>
      rw [printed, h]
      exact ih

/-- The coroutines that a group is made of; a group among them is awaited by a coroutine of its
own. -/
def members : List Value → Script (List CoroutineRef)
  | [] => pure []
  | .coroutine c :: rest => do
    let cs ← members rest
    pure (c :: cs)
  | .joinGroup g :: rest =>
    .spawn "_GatheringFuture" (.joined g) [] fun c => do
      let cs ← members rest
      pure (c :: cs)
  | _ :: rest => members rest

/-- The arguments of which a builtin goes through all items. -/
def iterated (args : List Value) : Builtin → List Value
  | .len | .list | .any | .all => args.take 1
  | .map => args.tail
  | .filter =>
    match (args.headD .none).kind.capabilities.contains .callable, args.headD .none with
    | false, .none | true, _ => args.tail.take 1
    | false, _ => []
  | .sum =>
    match args.tail.head? with
    | some (.str _) => []
    | _ => args.take 1
  | _ => []

/-- What a builtin does with arguments that fit its signature and whose items have an end. -/
def compute (call : Calls) (kwargs : Bindings Value) : Builtin → List Value → Script Value
  | .abs, args => .ofExcept (absolute (args.headD .none))
  | .len, args => .ofExcept (length (args.headD .none))
  | .list, args => pure (.list ((args.head?.map Value.items).getD []))
  | .range, args => makeRange args
  | .map, args => do
    let columns := args.tail.map Value.items
    let vs ← mapRows call (args.headD .none) (rows (shortest columns) columns)
    pure (.list vs)
  | .filter, args => do
    let predicate := args.headD .none
    match predicate.kind.capabilities.contains .callable, predicate with
    | false, .none | true, _ =>
      let vs ← filterItems call predicate (args.tail.headD .none).items
      pure (.list vs)
    | false, _ => .abort (.raise (.argumentShape predicate.kindName .callable))
  | .sum, args =>
    match args.tail.head? with
    | some (.str _) =>
      .abort (typeError "sum() can't sum strings [use ''.join(seq) instead]")
    | start => .ofExcept (sumItems (start.getD (.int (.ofNat 0))) (args.headD .none).items)
  | .any, args => pure (.bool ((args.headD .none).items.any Value.truthy))
  | .all, args => pure (.bool ((args.headD .none).items.all Value.truthy))
  | .print, args =>
    .modify (fun g => { g with output := g.output ++ (printed args).1 }) (.ofExcept (printed args).2)
  | .run, args =>
    match args.headD .none with
    | .coroutine c => .run 0 c fun r => .ofOutcome r
    | v =>
      .abort (.raise (.raised .valueError (some s!"a coroutine was expected, got {v.kindName}")))
  | .gather, args => do
    let cs ← members args
    let flag := ((kwargs.get? "return_exceptions").map Value.truthy).getD false
    .joinAll 0 cs flag fun r => do
      let g ← .ofOutcome r
      pure (.joinGroup g)

/-- What a builtin does with arguments that fit its signature. -/
def execute (call : Calls) (kwargs : Bindings Value) (b : Builtin) (args : List Value) : Script Value :=
  if (b.iterated args).any Value.endless then .abort .outOfFuel else b.compute call kwargs args

/-- Calls a builtin: nothing happens unless the arguments fit its signature. -/
def invoke (call : Calls) (b : Builtin) (args : List Value) (kwargs : Bindings Value) :
    Script Value :=
  b.signature.guard args kwargs (b.execute call kwargs args)

end Builtin

end Coroutines
