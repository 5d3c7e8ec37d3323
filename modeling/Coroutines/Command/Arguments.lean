import Coroutines.Command.Execute

/-!
# The command line

From the words after the program's name to a command.  A word that starts with a dash is an option;
one that takes a value takes the next word, whatever it is, or what follows an equals sign.
-/

namespace Coroutines

/-- An option, with the name of its value if it takes one. -/
structure OptionShape where
  flag : String
  value : Option String
  deriving DecidableEq, Repr

namespace OptionShape

/-- The option as messages show it. -/
def usage (o : OptionShape) : String :=
  match o.value with
  | some v => s!"{o.flag} <{v}>"
  | none => o.flag

end OptionShape

inductive UsageError where
  | missingArgument (name : String)
  | unknownCommand (name : String)
  | unknownOption (word : String)
  | missingValue (option : OptionShape)
  deriving DecidableEq, Repr

def UsageError.message : UsageError → String
  | .missingArgument name => s!"error: missing required argument '{name}'"
  | .unknownCommand name => s!"error: unknown command '{name}'"
  | .unknownOption word => s!"error: unknown option '{word}'"
  | .missingValue option => s!"error: option '{option.usage}' argument missing"

/-- What the command line asks for. -/
inductive Invocation where
  | version
  | help
  /-- No command at all. -/
  | nothing
  | run (file : String) (options : Command.RunOptions)
  | check (file : String) (pretty : Bool)
  | trace (file : String) (json : Bool)
  | config (json : Bool)

namespace Arguments

def isOption (word : String) : Bool := word.startsWith "-" && word ≠ "-"

/-- What follows the double dash is never an option. -/
def marksEnd (word : String) : Bool := word = "--"

/-- Words sorted into options with their values, plain words and unknown options with all that
follows them. -/
structure Sorted where
  given : List (String × String)
  plain : List String
  unknown : List String

namespace Sorted

def addPlain (s : Sorted) (words : List String) : Sorted :=
  if s.unknown.isEmpty then { s with plain := s.plain ++ words }
  else { s with unknown := s.unknown ++ words }

def addUnknown (s : Sorted) (word : String) : Sorted := { s with unknown := s.unknown ++ [word] }

def addOption (s : Sorted) (flag value : String) : Sorted :=
  { s with given := s.given ++ [(flag, value)] }

def has (s : Sorted) (flag : String) : Bool := s.given.any (·.1 = flag)

/-- All values of an option, in order. -/
def values (s : Sorted) (flag : String) : List String :=
  (s.given.filter (·.1 = flag)).map Prod.snd

end Sorted

/-- A flag and its value in one word, with an equals sign between them. -/
def assignment? (word : String) : Option (String × String) :=
  let cs := word.toList
  match cs.takeWhile (· ≠ '='), cs.dropWhile (· ≠ '=') with
  | '-' :: '-' :: c :: name, _ :: value =>
    some (String.ofList ('-' :: '-' :: c :: name), String.ofList value)
  | _, _ => none

/-- Sorts words by the options of a command. -/
def sort (options : List OptionShape) (s : Sorted) : List String → Except UsageError Sorted
  | [] => .ok s
  | word :: rest =>
    if marksEnd word then
      .ok (if s.unknown.isEmpty then s.addPlain rest else s.addPlain (word :: rest))
    else if !isOption word then sort options (s.addPlain [word]) rest
    else
      match options.find? (·.flag = word) with
      | some ⟨flag, none⟩ => sort options (s.addOption flag "") rest
      | some ⟨flag, some v⟩ =>
        match rest with
        | [] => .error (.missingValue ⟨flag, some v⟩)
        | value :: rest => sort options (s.addOption flag value) rest
      | none =>
        match assignment? word with
        | some (flag, value) =>
          if options.any fun o => o.flag = flag && o.value.isSome then
            sort options (s.addOption flag value) rest
          else sort options (s.addUnknown word) rest
        | none => sort options (s.addUnknown word) rest

/-- Words that ask for the version wherever they stand before a double dash. -/
def asksVersion (word : String) : Bool :=
  word = "--version" || word.startsWith "-V"

def asksHelp (word : String) : Bool := word = "-h" || word = "--help"

def runOptions : List OptionShape :=
  [⟨"--trace", some "path"⟩, ⟨"--max-steps", some "n"⟩, ⟨"--input", some "name=json"⟩,
    ⟨"--pretty", none⟩]

def checkOptions : List OptionShape := [⟨"--pretty", none⟩]

def reportOptions : List OptionShape := [⟨"--json", none⟩]

/-- The sorted words of a command, of which `plain` came before its first option; nothing if they
ask for help. -/
def sortCommand (options : List OptionShape) (plain words : List String) :
    Except UsageError (Option Sorted) := do
  let s ← sort options ⟨[], [], []⟩ words
  if s.unknown.any asksHelp then pure none
  else
    match s.unknown with
    | word :: _ => .error (.unknownOption word)
    | [] => pure (some { s with plain := plain ++ s.plain })

/-- The command of sorted words that has a file. -/
def withFile (s : Sorted) (next : String → Invocation) : Except UsageError Invocation :=
  match s.plain with
  | file :: _ => .ok (next file)
  | [] => .error (.missingArgument "file")

/-- The options of a run; of an option given several times the last counts, but inputs add up. -/
def runOptionsOf (s : Sorted) : Command.RunOptions where
  trace := (s.values "--trace").getLast?
  maxSteps := (s.values "--max-steps").getLast?
  inputs := s.values "--input"
  pretty := s.has "--pretty"

/-- What the words after a command's name ask for. -/
def ofCommand (name : String) (plain words : List String) : Except UsageError Invocation := do
  let options? := match name with
    | "run" => some runOptions
    | "check" => some checkOptions
    | "trace" | "config" => some reportOptions
    | _ => none
  match options? with
  | none => if name = "help" then pure .help else .error (.unknownCommand name)
  | some options =>
    match ← sortCommand options plain words with
    | none => pure .help
    | some s =>
      match name with
      | "run" => withFile s fun file => .run file (runOptionsOf s)
      | "check" => withFile s fun file => .check file (s.has "--pretty")
      | "trace" => withFile s fun file => .trace file (s.has "--json")
      | _ => pure (.config (s.has "--json"))

/-- What the words of a command line ask for. -/
def parse (words : List String) : Except UsageError Invocation :=
  if (words.takeWhile (!marksEnd ·)).any asksVersion then .ok .version
  else
    match sort [] ⟨[], [], []⟩ words with
    | .error e => .error e
    | .ok s =>
      match s.plain, s.unknown with
      | name :: plain, unknown => ofCommand name plain unknown
      | [], [] => .ok .nothing
      | [], word :: rest =>
        if (word :: rest).any asksHelp then .ok .help else .error (.unknownOption word)

end Arguments

namespace Command

def version : String := "0.1.0"

def usage : List String :=
  ["Usage: tasklet <command> [options]",
    "  run <file>    Run a compiled unit",
    "  check <file>  Check a unit without running it",
    "  trace <file>  Summarise a trace file",
    "  config        Show the effective configuration"]

/-- Carries out what the command line asks for. -/
def ofInvocation (p : Places) : Invocation → Shell Nat
  | .version => do
    .printLine .output version
    pure 0
  | .help => do
    .printLines .output usage
    pure 0
  | .nothing => do
    .printLines .error usage
    pure 1
  | .run file options => run p file options
  | .check file pretty => check file pretty
  | .trace file json => trace file json
  | .config json => config p json

/-- The whole program. -/
def main (p : Places) (words : List String) : Shell Nat :=
  match Arguments.parse words with
  | .ok invocation => ofInvocation p invocation
  | .error e => do
    .printLine .error e.message
    pure 1

end Command

end Coroutines
