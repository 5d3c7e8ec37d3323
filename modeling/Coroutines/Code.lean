import Coroutines.Number.Basic

/-!
# Compiled units

What a compiler hands to the runtime: the source text, the function definitions and the module
statements.  Awaits stand at statement level, so a coroutine is suspended only between two
statements.
-/

namespace Coroutines

/-- An extent on one line: the line counts from one, the columns from zero. -/
structure Site where
  line : Number
  column : Number
  /-- The column after the last one. -/
  endColumn : Number
  deriving DecidableEq

inductive Literal where
  | none
  | bool (b : Bool)
  | number (n : Number)
  | text (s : String)
  deriving DecidableEq

inductive BinaryOp where
  | add
  | sub
  | mul
  | eq
  | ne
  | lt
  deriving DecidableEq, Repr

namespace BinaryOp

def symbol : BinaryOp → String
  | .add => "+"
  | .sub => "-"
  | .mul => "*"
  | .eq => "=="
  | .ne => "!="
  | .lt => "<"

def all : List BinaryOp := [.add, .sub, .mul, .eq, .ne, .lt]

def ofSymbol? (s : String) : Option BinaryOp := all.find? (·.symbol = s)

theorem ofSymbol?_symbol (op : BinaryOp) : ofSymbol? op.symbol = some op := by
  cases op <;> decide

end BinaryOp

inductive Expr where
  /-- A constant; a whole number is an integer unless `float` is set. -/
  | const (value : Literal) (float : Option Bool)
  /-- A name, dotted for a builtin of a namespace. -/
  | name (name : String) (site : Option Site)
  | list (elements : List Expr)
  | tuple (elements : List Expr)
  | binary (op : BinaryOp) (left right : Expr) (site : Site)
  | call (callee : Expr) (args : List Expr) (keywords : Option (List (String × Expr))) (site : Site)

inductive Stmt where
  | assign (name : String) (value : Expr) (site : Option Site)
  | expr (value : Expr) (site : Option Site)
  /-- Suspends on the value and binds its result to the target, if there is one. -/
  | await (target : Option String) (value : Expr) (site : Site)
  | ret (value : Option Expr) (site : Option Site)
  | assert (test : Expr) (message : Option Expr) (site : Site)

structure FunctionDecl where
  name : String
  isAsync : Bool
  params : List String
  body : List Stmt

structure CompiledUnit where
  file : String
  source : String
  /-- Names that the host binds before the module runs. -/
  inputs : Option (List String)
  functions : List FunctionDecl
  module : List Stmt

namespace CompiledUnit

/-- The frame name of module statements. -/
def moduleFrame : String := "<module>"

end CompiledUnit

end Coroutines
