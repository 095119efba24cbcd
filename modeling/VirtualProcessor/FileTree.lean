import VirtualProcessor.Files
import VirtualProcessor.Text.Fields

/-!
# A tree of files

Directories and files around a working directory, as a value. A path starts at the working directory, or at
the root if it begins with a slash; it leads through directories one step at a time, `..` goes back up, and
every step but the last has to be a directory that exists. Outside the working directory nothing is known
but that those above it and the root are directories.
-/

namespace VirtualProcessor

inductive FileTree.Entry where
  | file (bytes : List UInt8)
  | directory
deriving DecidableEq, Repr

/-- The entries by the names that lead to them from the working directory, or from the root, which is then
the first name. The root, the working directory and those above it, to which only `..` leads, always exist. -/
structure FileTree where
  entries : List (List String × FileTree.Entry) := []
deriving DecidableEq, Repr

namespace FileTree

inductive Error where
  | notFound
  | isDirectory
  | notDirectory
  | alreadyThere
deriving DecidableEq, Repr

def Error.message : Error → String
  | notFound => "No such file or directory (os error 2)"
  | isDirectory => "Is a directory (os error 21)"
  | notDirectory => "Not a directory (os error 20)"
  | alreadyThere => "File exists (os error 17)"

def root : List String := ["/"]

/-- Whether a place is a directory that needs no entry. -/
def isGiven (place : List String) : Bool := place == root || place.all (· == "..")

def entry? (t : FileTree) (place : List String) : Option Entry :=
  if isGiven place then some .directory else t.entries.lookup place

/-- The place one level up; there is none above the root. -/
def parent (place : List String) : List String :=
  if place = root then root
  else if isGiven place then place ++ [".."]
  else place.dropLast

/-- Takes one step from a place, which has to be a directory. -/
def step (t : FileTree) (place : List String) (name : String) : Except Error (List String) :=
  match t.entry? place with
  | none => .error .notFound
  | some (.file _) => .error .notDirectory
  | some .directory =>
    if name = "." ∨ name = "" then .ok place
    else if name = ".." then .ok (parent place)
    else .ok (place ++ [name])

def follow (t : FileTree) (place : List String) : List String → Except Error (List String)
  | [] => .ok place
  | name :: names => do
    let next ← t.step place name
    t.follow next names

/-- The steps of a path, parted by slashes. -/
def steps (path : String) : List String :=
  (Text.fields (· == '/') path.toList).map String.ofList

/-- The place a path starts at. -/
def start (path : String) : List String := if path.toList.head? = some '/' then root else []

/-- The place a path leads to; what is there is another matter. -/
def locate (t : FileTree) (path : String) : Except Error (List String) :=
  if path.isEmpty then .error .notFound else t.follow (start path) (steps path)

def read (t : FileTree) (path : String) : Except Error (List UInt8) := do
  let place ← t.locate path
  match t.entry? place with
  | some (.file bytes) => .ok bytes
  | some .directory => .error .isDirectory
  | none => .error .notFound

/-- The files of the tree as a reader sees them. -/
def files (t : FileTree) : Files where
  bytes path := (t.read path).mapError Error.message

/-- The tree with an entry put at a place. -/
def put (t : FileTree) (place : List String) (e : Entry) : FileTree :=
  ⟨(place, e) :: t.entries.filter (·.1 != place)⟩

/-- The place to which a path leads, slashes at its end not counted. Every step but the last has to be a
directory that exists. -/
def locateNew (t : FileTree) (path : String) : Except Error (List String) :=
  match (steps path).reverse.dropWhile (· == "") with
  | [] => t.locate path
  | last :: before => do
    let directory ← t.follow (start path) before.reverse
    t.step directory last

/-- Writes a file, over another one if need be. Its directory has to exist, and a slash at the end of the
path asks for a directory. -/
def write (t : FileTree) (path : String) (bytes : List UInt8) : Except Error FileTree := do
  let place ← t.locateNew path
  if path.toList.getLast? = some '/' then .error .isDirectory
  else
    match t.entry? place with
    | some .directory => .error .isDirectory
    | _ => .ok (t.put place (.file bytes))

/-- Makes a directory where nothing is yet. The directory around it has to exist. -/
def makeDirectory (t : FileTree) (path : String) : Except Error FileTree := do
  let place ← t.locateNew path
  match t.entry? place with
  | some _ => .error .alreadyThere
  | none => .ok (t.put place .directory)

/-- Makes the directories that lead from a place along the names, where they are missing. -/
def makeAlong (t : FileTree) (place : List String) : List String → Except Error FileTree
  | [] => .ok t
  | name :: names => do
    let next ← t.step place name
    match t.entry? next with
    | some .directory => t.makeAlong next names
    | some (.file _) => .error .notDirectory
    | none => (t.put next .directory).makeAlong next names

/-- Writes a file and makes the directories that lead to it. -/
def plant (t : FileTree) (path : String) (bytes : List UInt8) : Except Error FileTree := do
  let made ← t.makeAlong [] (steps path).dropLast
  made.write path bytes

end FileTree

end VirtualProcessor
