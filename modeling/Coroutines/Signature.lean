import Coroutines.Value.Basic
import Coroutines.Bindings

/-!
# Argument checking

A builtin declares how many arguments it takes, what each must allow and which keywords it
accepts.  The check runs before the builtin, so a rejected call has no effect.
-/

namespace Coroutines

structure ParamShape where
  name : String
  requires : Option Capability
  deriving DecidableEq

structure Signature where
  name : String
  params : List ParamShape
  /-- How many leading parameters must be given; absent, all of them. -/
  required : Option Nat
  /-- The shape of every argument after `params`, which lifts the upper bound. -/
  rest : Option ParamShape
  /-- Stands in for the arity message. -/
  arityMessage : Option String
  keywords : List String
  deriving DecidableEq

namespace Signature

def minimum (sig : Signature) : Nat := sig.required.getD sig.params.length

/-- The greatest number of arguments, absent where there is none. -/
def maximum? (sig : Signature) : Option Nat :=
  if sig.rest.isSome then none else some sig.params.length

def admits (sig : Signature) (given : Nat) : Bool :=
  sig.minimum ≤ given && sig.maximum?.all (given ≤ ·)

/-- The shape of the argument at a place. -/
def shapeAt? (sig : Signature) (i : Nat) : Option ParamShape := sig.params[i]? <|> sig.rest

/-- Why one argument is refused. -/
def argFailure? (shape : Option ParamShape) (arg : Value) : Option Failure :=
  match shape.bind ParamShape.requires with
  | some c => if arg.supports c then none else some (.argumentShape arg.kindName c)
  | none => none

/-- The first reason to refuse a call: the number of arguments, then the keywords in order, then
the arguments in order. -/
def check (sig : Signature) (args : List Value) (kwargs : Bindings Value) : Option Failure :=
  if !sig.admits args.length then
    some (.arity sig.name sig.minimum sig.maximum? args.length sig.arityMessage)
  else
    (kwargs.names.find? (!sig.keywords.contains ·)).map (.unexpectedKeyword sig.name) <|>
      args.zipIdx.findSome? fun (arg, i) => argFailure? (sig.shapeAt? i) arg

end Signature

end Coroutines
