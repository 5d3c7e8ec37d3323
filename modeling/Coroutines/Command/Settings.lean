import Coroutines.Command.Shell
import Coroutines.Config
import Coroutines.Json.Read
import Coroutines.UnitFile.Load

/-!
# Effective configuration

The file of the project comes before the file of the user.  A file that cannot be used is skipped
with a reason, and without any file the standard configuration holds.
-/

namespace Coroutines

/-- A path without `.`, without repeated separators and with each `..` applied to the name before
it. -/
def normalPath (path : String) : String :=
  let absolute := path.startsWith "/"
  let kept := (path.splitOn "/").foldl (fun kept c =>
    if c = "" ∨ c = "." then kept
    else if c = ".." then
      if kept.getLast?.any (· ≠ "..") then kept.dropLast
      else if absolute then kept else kept ++ [".."]
    else kept ++ [c]) []
  let joined := "/".intercalate kept
  if absolute then "/" ++ joined else joined

/-- A file below a directory, the empty name being the current one. -/
def joinPath (directory file : String) : String :=
  normalPath (if directory = "" then file else s!"{directory}/{file}")

/-- How reports call a file that cannot be read. -/
def Contents.readError : String := "<io error>"

inductive ConfigSource where
  | project
  | user
  | default
  deriving DecidableEq, Repr

def ConfigSource.name : ConfigSource → String
  | .project => "project"
  | .user => "user"
  | .default => "default"

/-- A configuration file that was not used. -/
structure SkippedFile where
  path : String
  reason : String
  deriving DecidableEq, Repr

structure Settings where
  config : Config
  source : ConfigSource
  path : Option String
  skipped : List SkippedFile

/-- The directories that may hold configuration files. -/
structure Places where
  project : String
  home : String

namespace Places

def files (p : Places) : List (ConfigSource × String) :=
  [(.project, joinPath p.project ".tasklet.json"), (.user, joinPath p.home ".tasklet/config.json")]

end Places

namespace Settings

/-- The configuration in a file, or the reason to skip it; nothing for a file that is not there. -/
def fromContents : Contents → Option (Except String Config)
  | .absent => none
  | .unreadable => some (.error Contents.readError)
  | .text s =>
    match Json.parse? s with
    | none => some (.error Json.syntaxError)
    | some j => some ((Config.ofJson j).mapError ConfigError.message)

/-- The first of some files that can be used. -/
def choose (skipped : List SkippedFile) : List (ConfigSource × String) → Shell Settings
  | [] => pure ⟨.standard, .default, none, skipped⟩
  | (source, path) :: rest => .read path fun contents =>
    match fromContents contents with
    | none => choose skipped rest
    | some (.error reason) => choose (skipped ++ [⟨path, reason⟩]) rest
    | some (.ok config) => pure ⟨config, source, some path, skipped⟩

def find (p : Places) : Shell Settings := choose [] p.files

def skippedJson (f : SkippedFile) : Json :=
  .object [("path", .text f.path), ("reason", .text f.reason)]

def json (s : Settings) : Json :=
  .object [("source", .text s.source.name), ("path", (s.path.map Json.text).getD .null),
    ("config", s.config.json), ("skipped", .array (s.skipped.map skippedJson))]

/-- The settings for a reader. -/
def report (s : Settings) : List String :=
  let path := s.path.getD "(none)"
  let maxSteps := (s.config.maxSteps.map Number.text).getD "(unlimited)"
  ["Effective tasklet config",
    s!"  Source:    {s.source.name}",
    s!"  Path:      {path}",
    s!"  Max steps: {maxSteps}"] ++
  s.skipped.map fun f => s!"  Skipped:   {f.path} ({f.reason})"

end Settings

end Coroutines
