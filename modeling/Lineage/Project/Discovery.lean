import Lineage.Files
import Lineage.Settings.Value

/-! Which files of a project are Java sources. -/

namespace Lineage.Project

open Lineage.Files Lineage.Settings

/-- Files that declare no types. -/
def skippedFiles : List String :=
  ["package-info.java", "module-info.java"]

/-- Directories that hold no sources worth a look. -/
def skippedDirectories : List String :=
  [".git", ".gradle", ".idea", ".mvn", ".svn", ".vscode", "__pycache__", "build", "node_modules",
    "out", "target"]

/-- Whether a path names a Java source, whatever the case of the letters of its ending. -/
def isSource (path : Path) : Bool :=
  path.suffix.toLower == ".java" && !skippedFiles.contains path.name

/-- A value that cannot be a member of a set, because it can change. -/
inductive Unhashable where
  | list
  | table
  deriving DecidableEq, Repr

/-- What is wrong, in words. -/
def Unhashable.message : Unhashable → String
  | .list => "unhashable type: 'list'"
  | .table => "unhashable type: 'dict'"

/-- The first of the given values that cannot be a member of a set. -/
def unhashable? (values : List Value) : Option Unhashable :=
  values.findSome? fun value =>
    match value with
    | .list _ => some .list
    | .table _ => some .table
    | _ => none

/-- Whether a file is found by its name. Here the case of the letters matters. -/
def isSourceName (name : String) : Bool :=
  name.endsWith ".java" && !skippedFiles.contains name

/-- The Java sources in a directory and below it, each by the names that lead to it, those directly
in the directory first. A directory with a skipped name is not entered. -/
def sourcesBelow (files : Files) (skipped : List String) (place : Place) : List (List String) :=
  let entered := (files.directoriesIn place).filter fun name => !skipped.contains name
  ((files.filesIn place).filter isSourceName).map ([·]) ++
    entered.attach.flatMap fun name =>
      (sourcesBelow files skipped (place ++ [name.1])).map (name.1 :: ·)
termination_by files.depth - place.length
decreasing_by
  have := length_lt_depth (List.mem_filter.mp name.2).1
  simp only [List.length_append, List.length_singleton]
  omega

/-- The Java sources below a directory in order. Directories with an excluded name are not entered;
the name of the directory itself does not matter. -/
def discover (files : Files) (root : Path) (exclude : List Value) : Except Unhashable (List Path) :=
  match unhashable? exclude with
  | some fault => .error fault
  | none =>
    let skipped := skippedDirectories ++ exclude.filterMap Value.text?
    match files.locate root with
    | .error _ => .ok []
    | .ok top => .ok (((sourcesBelow files skipped top).map root.descend).mergeSort Path.le)

end Lineage.Project
