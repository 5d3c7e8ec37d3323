import Coroutines.Command.Shell
import Coroutines.Bindings

/-!
# Files in memory

A tree of files on which commands can be carried out without touching anything.  A directory
exists where something lies under it or where it was put.
-/

namespace Coroutines

structure FileTree where
  files : List (List String × String)
  directories : List (List String)

namespace FileTree

def empty : FileTree := ⟨[], []⟩

/-- The components of a path, empty ones included. -/
def components (path : String) : List String := path.splitOn "/"

def text? (t : FileTree) (at_ : List String) : Option String :=
  (t.files.find? (·.1 = at_)).map Prod.snd

def isDirectory (t : FileTree) (at_ : List String) : Bool :=
  at_.isEmpty || t.directories.any (at_.isPrefixOf ·) ||
    t.files.any fun f => at_.isPrefixOf f.1 && f.1 ≠ at_

/-- Where components lead from a directory; only the last may name what does not exist. -/
def walk (t : FileTree) (at_ : List String) : List String → Option (List String)
  | [] => some at_
  | c :: rest =>
    if !t.isDirectory at_ then none
    else if c = "" ∨ c = "." then t.walk at_ rest
    else if c = ".." then if at_.isEmpty then none else t.walk at_.dropLast rest
    else t.walk (at_ ++ [c]) rest

/-- Where a path leads from the root of the tree; nothing lies outside it. -/
def resolve? (t : FileTree) (path : String) : Option (List String) :=
  if path = "" ∨ path.startsWith "/" then none else t.walk [] (components path)

def contents (t : FileTree) (path : String) : Contents :=
  match t.resolve? path with
  | none => .absent
  | some place =>
    match t.text? place with
    | some s => .text s
    | none => if t.isDirectory place then .unreadable else .absent

def put (t : FileTree) (place : List String) (text : String) : FileTree :=
  { t with files := (place, text) :: t.files.filter (·.1 ≠ place) }

/-- The tree with an empty file at a path, unless a directory lies there or none holds it. -/
def create? (t : FileTree) (path : String) : Option FileTree :=
  match t.resolve? path with
  | none => none
  | some place => if t.isDirectory place then none else some (t.put place "")

def append (t : FileTree) (path text : String) : FileTree :=
  match t.resolve? path with
  | none => t
  | some place => t.put place ((t.text? place).getD "" ++ text)

end FileTree

/-- Surroundings in memory. -/
structure Sandbox where
  tree : FileTree
  input : String
  /-- The name of any run, and the time, which stands still. -/
  stamp : Stamp
  /-- What was printed, in order. -/
  printed : List (Channel × String)

namespace Sandbox

/-- The text printed to some channels. -/
def text (s : Sandbox) (channels : List Channel) : String :=
  String.join ((s.printed.filter (channels.contains ·.1)).map Prod.snd)

end Sandbox

/-- Carries out a command in a sandbox. -/
def Shell.perform {α : Type} : Shell α → Sandbox → Except Abort α × Sandbox
  | .done result, s => (result, s)
  | .read path next, s => (next (s.tree.contents path)).perform s
  | .input next, s => (next s.input).perform s
  | .create path next, s =>
    match s.tree.create? path with
    | some tree => (next true).perform { s with tree }
    | none => (next false).perform s
  | .append path text next, s => next.perform { s with tree := s.tree.append path text }
  | .runId next, s => (next s.stamp.runId).perform s
  | .time next, s => (next s.stamp.time).perform s
  | .print channel text next, s => next.perform { s with printed := s.printed ++ [(channel, text)] }

end Coroutines
