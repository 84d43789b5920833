import Lineage.Files.Path
import Lineage.Table
import Lineage.Text.Quoted
import Lineage.Text.Utf8

/-! A tree of files as a table from places to what is there. -/

namespace Lineage

namespace Files

/-- A place in the tree: the names on the way from the root. -/
abbrev Place := List String

/-- What is at a place. -/
inductive Entry where
  | directory
  | file (bytes : List UInt8)
  deriving DecidableEq, Repr

/-- Whether something is a file. -/
def Entry.isFile : Entry → Bool
  | .directory => false
  | .file _ => true

/-- Why something cannot be done with a path. -/
inductive FaultKind where
  | notFound
  | exists
  | notDirectory
  | isDirectory
  deriving DecidableEq, Repr

/-- What cannot be done and with which path. -/
structure Fault where
  kind : FaultKind
  path : Path
  deriving DecidableEq, Repr

/-- What is wrong, in words. -/
def Fault.message (fault : Fault) : String :=
  let reason := match fault.kind with
    | .notFound => "[Errno 2] No such file or directory"
    | .exists => "[Errno 17] File exists"
    | .notDirectory => "[Errno 20] Not a directory"
    | .isDirectory => "[Errno 21] Is a directory"
  reason ++ ": " ++ Text.quoted fault.path.text

end Files

/-- Files and directories, and the directory at which relative paths begin. The root is always a
directory. -/
structure Files where
  table : Table Files.Place Files.Entry
  workingDirectory : Files.Place

namespace Files

/-- What is at a place. -/
def at? (files : Files) (place : Place) : Option Entry :=
  if place.isEmpty then some .directory else files.table.get? place

/-- Puts something at a place. -/
def put (files : Files) (place : Place) (entry : Entry) : Files :=
  { files with table := files.table.put place entry }

/-- The place at which a path begins. -/
def anchorPlace (files : Files) (path : Path) : Place :=
  if path.isAbsolute then [] else files.workingDirectory

/-- One name further along from a place; a double dot goes up. -/
def step (place : Place) (name : String) : Place :=
  if name == ".." then place.dropLast else place ++ [name]

/-- The place of a path if each name along it is taken at its word, whether anything is there or
not. -/
def resolve (files : Files) (path : Path) : Place :=
  path.parts.foldl step (files.anchorPlace path)

/-- The path from the root to a place. -/
def pathTo (place : Place) : Path :=
  ⟨.root, place⟩

/-- Follows names from a place. All that is passed on the way must be directories. -/
def follow (files : Files) (place : Place) : List String → Except FaultKind Place
  | [] => .ok place
  | name :: more =>
    match files.at? place with
    | none => .error .notFound
    | some (.file _) => .error .notDirectory
    | some .directory => follow files (step place name) more

/-- The place of a path in the tree, where there may be nothing. -/
def locate (files : Files) (path : Path) : Except Fault Place :=
  match files.follow (files.anchorPlace path) path.parts with
  | .ok place => .ok place
  | .error kind => .error ⟨kind, path⟩

/-- What a path leads to. -/
def lookup (files : Files) (path : Path) : Option Entry :=
  match files.locate path with
  | .ok place => files.at? place
  | .error _ => none

/-- Whether a path leads to anything. -/
def isPresent (files : Files) (path : Path) : Bool :=
  (files.lookup path).isSome

/-- Whether a path leads to a directory. -/
def isDirectory (files : Files) (path : Path) : Bool :=
  files.lookup path == some .directory

/-- The name of a place that lies directly in a directory. -/
def nameIn? (directory place : Place) : Option String :=
  if place.dropLast == directory then place.getLast? else none

/-- A place is that of a name in a directory exactly if it is the directory's with the name behind
it. -/
theorem nameIn?_eq_some_iff {directory place : Place} {name : String} :
    nameIn? directory place = some name ↔ place = directory ++ [name] := by
  unfold nameIn?
  constructor
  · intro named
    split at named
    · rename_i inside
      -- A place is its last name behind the directory that it lies in.
      obtain ⟨front, rfl⟩ := List.getLast?_eq_some_iff.mp named
      rw [List.dropLast_concat, beq_iff_eq] at inside
      rw [inside]
    · cases named
  · rintro rfl
    simp

/-- The names directly in a directory, of those entries that satisfy a condition, in the order of
the table. There is nothing in what is no directory. -/
def namesIn (files : Files) (directory : Place) (p : Entry → Bool) : List String :=
  if files.at? directory == some .directory then
    (files.table.entries.filter fun entry => p entry.2).filterMap fun entry =>
      nameIn? directory entry.1
  else []

/-- The names of the files directly in a directory. -/
def filesIn (files : Files) (directory : Place) : List String :=
  files.namesIn directory Entry.isFile

/-- The names of the directories directly in a directory. -/
def directoriesIn (files : Files) (directory : Place) : List String :=
  files.namesIn directory fun entry => !entry.isFile

/-- The greatest number of names on the way to a place in the table. -/
def depth (files : Files) : Nat :=
  (files.table.names.map List.length).foldr max 0

/-- No entry lies deeper than the tree is deep. -/
theorem length_le_depth {files : Files} {place : Place} (listed : place ∈ files.table.names) :
    place.length ≤ files.depth := by
  -- The depth is the greatest length among the places, and this place is one of them.
  unfold depth
  generalize files.table.names = names at listed
  induction names with
  | nil => cases listed
  | cons first more ih =>
    rw [List.map_cons, List.foldr_cons]
    rcases List.mem_cons.mp listed with rfl | later
    · exact Nat.le_max_left _ _
    · exact Nat.le_trans (ih later) (Nat.le_max_right _ _)

/-- A directory in which there is something is not as deep as the table. -/
theorem length_lt_depth {files : Files} {directory : Place} {p : Entry → Bool} {name : String}
    (inside : name ∈ files.namesIn directory p) : directory.length < files.depth := by
  -- The name makes the place of the directory longer by one, and that place is an entry of the
  -- table.
  unfold namesIn at inside
  split at inside
  · obtain ⟨entry, listed, named⟩ := List.mem_filterMap.mp inside
    have bound := length_le_depth (List.mem_map_of_mem (List.mem_filter.mp listed).1)
    rw [nameIn?_eq_some_iff.mp named, List.length_append, List.length_singleton] at bound
    omega
  · cases inside

/-- The bytes of a file. -/
def read (files : Files) (path : Path) : Except Fault (List UInt8) := do
  let place ← files.locate path
  match files.at? place with
  | none => .error ⟨.notFound, path⟩
  | some .directory => .error ⟨.isDirectory, path⟩
  | some (.file bytes) => return bytes

/-- Writes a file, whether it is new or not. -/
def write (files : Files) (path : Path) (bytes : List UInt8) : Except Fault Files := do
  let place ← files.locate path
  match files.at? place with
  | some .directory => .error ⟨.isDirectory, path⟩
  | _ => return files.put place (.file bytes)

/-- Makes one directory, which must be new. -/
def makeDirectory (files : Files) (path : Path) : Except Fault Files := do
  let place ← files.locate path
  match files.at? place with
  | some _ => .error ⟨.exists, path⟩
  | none => return files.put place .directory

/-- Makes one directory unless it is there. Returns the fault, if any, and the files as they are
then. -/
def ensureDirectory (files : Files) (path : Path) : Option Fault × Files :=
  match files.makeDirectory path with
  | .ok made => (none, made)
  | .error fault => if files.isDirectory path then (none, files) else (some fault, files)

/-- Makes a directory and all above it that are missing, the names given from the last to the first.
What was made stays if a later one cannot be made. -/
def ensureDirectoriesUp (anchor : Anchor) (files : Files) : List String → Option Fault × Files
  | [] => files.ensureDirectory ⟨anchor, []⟩
  | name :: above =>
    let path : Path := ⟨anchor, (name :: above).reverse⟩
    match files.makeDirectory path with
    | .ok made => (none, made)
    | .error fault =>
      if fault.kind == .notFound then
        -- A directory above is missing; once it is made, this one is tried again.
        match ensureDirectoriesUp anchor files above with
        | (some deeper, changed) => (some deeper, changed)
        | (none, changed) => changed.ensureDirectory path
      else if files.isDirectory path then (none, files)
      else (some fault, files)

/-- Makes a directory and all above it that are missing. -/
def ensureDirectories (files : Files) (path : Path) : Option Fault × Files :=
  ensureDirectoriesUp path.anchor files path.parts.reverse

/-- Writes a file into a directory that is made if it is missing. -/
def writeWithParents (files : Files) (path : Path) (bytes : List UInt8) : Option Fault × Files :=
  match files.ensureDirectories path.parent with
  | (some fault, changed) => (some fault, changed)
  | (none, changed) =>
    match changed.write path bytes with
    | .ok written => (none, written)
    | .error fault => (some fault, changed)

/-- The files without what is at a place and below it. -/
def remove (files : Files) (place : Place) : Files :=
  { files with table := files.table.eraseAll place.isPrefixOf }

/-- What is new or has changed, in the order of the table. -/
def differencesSince (files before : Files) : List (Place × Entry) :=
  files.table.entries.filter fun (place, entry) => before.at? place != some entry

/-- The files that are new or have changed, in the order of the table. -/
def changesSince (files before : Files) : List (Place × List UInt8) :=
  (files.differencesSince before).filterMap fun (place, entry) =>
    match entry with
    | .directory => none
    | .file bytes => some (place, bytes)

end Files

end Lineage
