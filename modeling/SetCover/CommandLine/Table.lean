import SetCover.CommandLine.Run

/-!
# Runs against a table of files

A host whose files are a table and on which no time passes: a run is then a plain function of the
files and the arguments.

* `FileTable.read`, `FileTable.write`: the files. A directory exists if it leads to a file.
* `FileTable.follow`: the way along a path. Each part but the last has to be a directory, also one
  that is left again at once.
* `tableHost`: the host.
* `runOnTable`: the outcome of a run.
-/

namespace SetCover.CommandLine

/-- Files with their places, latest first. A place is the list of the names on the way to it. The
way starts where all paths start, or at the root if `/` is the first name; `..` stands at the front
for each directory it starts above. -/
abbrev FileTable := List (List String × ByteArray)

namespace FileTable

/-- The most bytes that a name has. -/
def nameLimit : Nat := 255

/-- The most bytes that a path has. -/
def pathLimit : Nat := 4095

/-- A file that every machine has. It is empty, and what is written to it is lost. -/
def nullDevice : List String × ByteArray := (["/", "dev", "null"], .empty)

/-- Where a path starts. -/
def origin (path : String) : List String := if path.startsWith "/" then ["/"] else []

/-- The directory above a directory. The root is above itself. -/
def above (place : List String) : List String :=
  if place == ["/"] then place
  else if place.all (· == "..") then ".." :: place
  else place.dropLast

/-- Where a part of a path leads from a directory, whether there is anything or not. -/
def beyond (place : List String) : String → List String
  | "." => place
  | ".." => above place
  | name => place ++ [name]

/-- The place that a path leads to, whether there is anything or not. -/
def place (path : String) : List String := (pathParts path).foldl beyond (origin path)

/-- Whether a place is a directory: the place where all paths start, a place above it, the root, or
a place on the way to a file. -/
def isDirectory (files : FileTable) (place : List String) : Bool :=
  place == ["/"] || place.all (· == "..") ||
    files.any fun f => place.isPrefixOf f.1 && f.1 != place

/-- What is wrong with a place when a file was expected and it is none, or when a directory was
expected and it is none. -/
def troubleAt (files : FileTable) (place : List String) : FileTrouble :=
  if files.isDirectory place then .isDirectory
  else if (files.lookup place).isSome then .notDirectory
  else .notFound

/-- Follows one part of a path, which starts at a directory. -/
def step (files : FileTable) (place : List String) (part : String) :
    Except FileTrouble (List String) :=
  if !files.isDirectory place then .error (files.troubleAt place)
  else if part.utf8ByteSize > nameLimit then .error .nameTooLong
  else .ok (beyond place part)

/-- Follows these parts of a path. The last one may lead to a file or to nothing. -/
def follow (files : FileTable) (path : String) (parts : List String) :
    Except FileTrouble (List String) :=
  if path.contains '\x00' then .error .nulInPath
  else if path.utf8ByteSize > pathLimit then .error .nameTooLong
  else parts.foldlM files.step (origin path)

/-- What a path leads to. With a slash at its end it does not lead to a file. -/
def read (files : FileTable) (path : String) : FileContent := do
  let place ← files.follow path (pathParts path)
  match files.lookup place with
  | some data => if path.endsWith "/" then .error .notDirectory else .ok data
  | none => .error (files.troubleAt place)

/-- Puts bytes into a file of an existing directory. With a slash at the end of the path this fails
in that directory already: what the last name leads to is not looked at. -/
def write (files : FileTable) (path : String) (data : ByteArray) :
    Except FileTrouble FileTable := do
  let parts := pathParts path
  let place ← files.follow path (if path.endsWith "/" then parts.dropLast ++ ["."] else parts)
  if files.isDirectory place then .error .isDirectory
  else if place == nullDevice.1 then .ok files
  else .ok ((place, data) :: files)

end FileTable

/-- What a run does to its surroundings. -/
structure Desk where
  files : FileTable
  /-- The lines that were printed, last one first. -/
  printed : List String

/-- A host whose files are a table and on which no time passes; `seed` is the seed of every run
that is given none. -/
def tableHost (seed : UInt64) : Host (StateM Desk) where
  read path := do return (← get).files.read path
  write path text := do
    match (← get).files.write path text.toUTF8 with
    | .ok files =>
        modify fun desk => { desk with files }
        return .ok ()
    | .error why => return .error why
  say line := modify fun desk => { desk with printed := line :: desk.printed }
  freshSeed := pure seed
  perform job session :=
    match (job.run fun _ => 0).run session with
    | .ok s session => pure (.ok (s, ⟨0⟩), session)
    | .error fault session => pure (.error fault, session)

/-- The outcome of a run, and the surroundings after it. -/
def runOnTable (files : FileTable) (seed : UInt64) (o : Options) : Except Fault Unit × Desk :=
  (execute (tableHost seed) o).run ⟨files, []⟩

end SetCover.CommandLine
