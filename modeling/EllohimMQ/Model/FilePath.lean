import EllohimMQ.Model.Json
import Mathlib.Data.List.Infix

/-!
# Paths

`std::filesystem::path` on the two platforms: what a string is taken apart into, `is_absolute`,
`parent_path`, `filename`, `/`, and the lexically normal form.
-/

namespace EllohimMQ

/-- The two readings of a path. -/
inductive Platform where
  | posix
  | windows
  deriving DecidableEq

/-- A path in its parts.  The last name is empty when the path ends with a separator. -/
structure FilePath where
  rootName : Str
  rootDirectory : Bool
  names : List Str
  deriving DecidableEq

namespace Platform

/-- What separates the names of a path. -/
def isSeparator : Platform → UInt8 → Bool
  | .posix, c => c = 47
  | .windows, c => c = 47 || c = 92

/-- The letters of drives. -/
def isLetter (c : UInt8) : Bool := (65 ≤ c && c ≤ 90) || (97 ≤ c && c ≤ 122)

/-- The root name and what follows it: on Windows a drive, or two separators and the name of a
server. -/
def splitRootName : Platform → Str → Str × Str
  | .posix, s => ([], s)
  | .windows, c :: d :: s =>
    if isLetter c && d = 58 then ([c, d], s)
    else if isSeparator .windows c && isSeparator .windows d &&
        s.head?.any fun e => !isSeparator .windows e then
      (c :: d :: s.takeWhile fun e => !isSeparator .windows e,
        s.dropWhile fun e => !isSeparator .windows e)
    else ([], c :: d :: s)
  | .windows, s => ([], s)

/-- The names of a relative path: separators in a row count as one, and one at the end is followed by
an empty name. -/
def splitNames (platform : Platform) (s : Str) : List Str :=
  let names := (s.splitOnP platform.isSeparator).filter (· ≠ [])
  if s.getLast?.any platform.isSeparator then names ++ [[]] else names

end Platform

namespace FilePath

/-- The constructor from a string. -/
def parse (platform : Platform) (s : Str) : FilePath :=
  let (rootName, rest) := platform.splitRootName s
  { rootName
    rootDirectory := rest.head?.any platform.isSeparator
    names := platform.splitNames (rest.dropWhile platform.isSeparator) }

/-- `empty()` -/
def isEmpty (p : FilePath) : Bool := p.rootName = [] && !p.rootDirectory && p.names = []

/-- `is_absolute()` -/
def isAbsolute (p : FilePath) : Platform → Bool
  | .posix => p.rootDirectory
  | .windows => p.rootName ≠ [] && p.rootDirectory

/-- `filename()` -/
def filename (p : FilePath) : Str := p.names.getLast?.getD []

/-- `parent_path()` -/
def parentPath (p : FilePath) : FilePath := { p with names := p.names.dropLast }

/-- `a / b` -/
def append (platform : Platform) (a b : FilePath) : FilePath :=
  if b.isAbsolute platform || (b.rootName ≠ [] && b.rootName ≠ a.rootName) then b
  else if b.rootDirectory then { b with rootName := a.rootName }
  else if b.names = [] then
    if a.filename = [] then a else { a with names := a.names ++ [[]] }
  else { a with names := a.names.filter (· ≠ []) ++ b.names }

/-! ## The lexically normal form -/

/-- One name of the normal form, with the names before it. -/
def normalStep (rooted : Bool) (names : List Str) (name : Str) : List Str :=
  if name = [] ∨ name = bytes "." then names
  else if name = bytes ".." then
    match names.getLast? with
    | none => if rooted then [] else [name]
    | some last => if last = bytes ".." then names ++ [name] else names.dropLast
  else names ++ [name]

/-- The names of `lexically_normal()`, without the empty one at the end. -/
def normalNames (p : FilePath) : List Str := p.names.foldl (normalStep p.rootDirectory) []

end FilePath

/-- `std::string::contains` -/
def containsStr (s t : Str) : Bool := t <:+: s

end EllohimMQ
