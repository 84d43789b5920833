import Lineage.Project.Discovery
import Lineage.Settings.Config

/-! Reading the sources of a project and assembling what they declare. -/

namespace Lineage.Project

open Lineage.Files Lineage.Settings

/-- The text of a source with its line ends unified, or nothing, with a note, if it cannot be
read. -/
def readSource (files : Files) (path : Path) : Logged (Option (List Char)) :=
  let unread (reason : String) : Logged (Option (List Char)) := do
    Logged.note .warning ("Could not read " ++ path.text ++ ": " ++ reason)
    return none
  match files.read path with
  | .error fault => unread fault.message
  | .ok bytes =>
    match Text.decode bytes with
    | .error fault => unread fault.message
    | .ok text => return some (Text.unifyLineEnds text)

/-- The declarations of one file, each with the path of the file. A source that is missing is
reported. -/
def declarationsOfFile (path : Path) (source : Option (List Char)) (scope : Java.DocScope) :
    Logged (Option (List Declaration)) :=
  match source with
  | none => do
    Logged.note .debug ("Could not normalize source, using it as-is: " ++ Java.noText)
    Logged.note .warning
      ("Could not extract declarations from " ++ path.text ++ ": " ++ Java.noText)
    return none
  | some text => do
    let declarations ← Java.declarationsOf text scope
    Logged.note .debug (path.name ++ ": " ++ toString declarations.length ++ " declarations")
    return some (declarations.map fun declaration =>
      { declaration with sourceFile := some path.text })

/-- The graph of a project and how it came about. -/
structure Survey where
  graph : Graph
  filesScanned : Nat
  failedFiles : List String
  declarationCount : Nat

/-- Whether there was nothing to be found. -/
def Survey.isEmpty (survey : Survey) : Bool :=
  survey.filesScanned == 0 || survey.declarationCount == 0

/-- The paths among the given ones that name a Java source. The others are noted. -/
def selectSources (paths : List Path) : Logged (List Path) := do
  let selected ← paths.mapM fun path => do
    if isSource path then return some path
    else
      Logged.note .debug ("Skipping " ++ path.text ++ ": not a Java source file")
      return none
  return selected.filterMap id

/-- What was read from each path, in order. -/
def readSources (files : Files) (paths : List Path) : Logged (List (Path × Option (List Char))) :=
  paths.mapM fun path => do
    return (path, ← readSource files path)

/-- The declarations of each source that was read, in order. -/
def declarationsOfAll (scope : Java.DocScope) (sources : List (Path × Option (List Char))) :
    Logged (List Declaration) := do
  let found ← sources.mapM fun (path, source) =>
    match source with
    | none => return []
    | some text => do return (← declarationsOfFile path (some text) scope).getD []
  return found.flatten

/-- Surveys the given files: all sources are read, and one that cannot be read adds nothing. -/
def survey (files : Files) (config : Config) (paths : List Path) :
    Logged (Except DuplicateType Survey) := do
  let sources ← readSources files (← selectSources paths)
  let declarations ← declarationsOfAll config.docScope sources
  let failed := sources.filter (·.2.isNone)
  match ← assemble config.mergePolicy config.danglingEdges declarations with
  | .error duplicate => return .error duplicate
  | .ok graph => do
    Logged.note .debug ("Extracted " ++ toString declarations.length ++ " declarations from " ++
        toString sources.length ++
        " files (" ++ toString failed.length ++ " failed)")
    return .ok
      { graph
        filesScanned := sources.length
        failedFiles := failed.map (·.1.text)
        declarationCount := declarations.length }

end Lineage.Project
