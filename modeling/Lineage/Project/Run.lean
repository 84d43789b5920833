import Lineage.Export
import Lineage.Graph.Cycle
import Lineage.Page
import Lineage.Project.Survey

/-! The whole work on a project: finding its sources, surveying them, and writing the page. -/

namespace Lineage.Project

open Lineage.Files Lineage.Settings

/-- Why the work on a project ends early. -/
inductive Stop where
  | exit (status : Nat)
  | unhashable (fault : Unhashable)
  | duplicate (duplicate : DuplicateType)
  | relation (unknown : Page.UnknownRelation)
  | file (fault : Files.Fault)
  | relativeLink

/-- What is wrong, in words. -/
def Stop.message : Stop → String
  | .exit status => toString status
  | .unhashable fault => fault.message
  | .duplicate fault => fault.message
  | .relation unknown => Text.quoted unknown.label
  | .file fault => fault.message
  | .relativeLink => "relative path can't be expressed as a file URI"

/-- What the work changes: the files, the notes taken, and the links that were opened. -/
structure Desk where
  files : Files
  notes : List Note := []
  opened : List String := []

/-- Work that reads and changes the desk and may end early. What it changed before stays changed. -/
abbrev Work := ExceptT Stop (StateM Desk)

namespace Work

/-- Takes one note. -/
def note (level : Level) (text : String) : Work Unit :=
  modify fun desk => { desk with notes := desk.notes ++ [⟨level, text⟩] }

/-- Takes over a value and its notes. -/
def logged {α : Type} (result : Logged α) : Work α := do
  modify fun desk => { desk with notes := desk.notes ++ result.notes }
  return result.value

/-- Takes over a value, or ends for the reason why there is none. -/
def orStop {ε α : Type} (reason : ε → Stop) (result : Except ε α) : Work α :=
  match result with
  | .ok value => return value
  | .error fault => throw (reason fault)

/-- Writes a file and makes the directories above it that are missing. -/
def writeFile (path : Path) (text : List Char) : Work Unit := do
  let desk ← get
  let (fault, files) := desk.files.writeWithParents path (Text.encode text)
  set { desk with files }
  match fault with
  | some fault => throw (.file fault)
  | none => return

end Work

/-- What is asked for beside the page: where it goes, where the data goes, and whether the page is
opened. -/
structure Request where
  project : Path
  config : Config := {}
  output : Option Path := none
  exportTo : Option Path := none
  openPage : Bool := false

/-- The format that the ending of a path asks for. -/
def formatFor (path : Path) : Format :=
  let ending := path.suffix.toLower
  if ending == ".yaml" || ending == ".yml" then .yaml else .json

/-- Writes the page of a graph. -/
def writePage (graph : Graph) (path : Path) (title : String) : Work Unit := do
  let page ← Work.orStop .relation (Page.render graph title)
  Work.writeFile path page

/-- Writes the data of a graph in the format that the path asks for. -/
def writeGraph (graph : Graph) (path : Path) : Work Unit :=
  Work.writeFile path (graph.written (formatFor path))

/-- Notes each group of types that inherit from each other. -/
def reportCycles (graph : Graph) : Work Unit :=
  graph.cycles.forM fun cycle =>
    Work.note .warning ("Inheritance cycle: " ++ " -> ".intercalate cycle)

/-- Opens a page that was written. -/
def openPage (path : Path) : Work Unit := do
  match path.link? with
  | none => throw .relativeLink
  | some link => modify fun desk => { desk with opened := desk.opened ++ [link] }

/-- The sources of a project, of which there must be one. -/
def findSources (project : Path) (exclude : List Value) : Work (List Path) := do
  let sources ← Work.orStop .unhashable (discover (← get).files project exclude)
  Work.note .debug ("Found " ++ toString sources.length ++ " Java files under " ++ project.text)
  if sources.isEmpty then
    Work.note .error ("No Java files found in " ++ project.text)
    throw (.exit 1)
  return sources

/-- The survey of a project, which must find a declaration. -/
def surveySources (project : Path) (config : Config) (sources : List Path) : Work Survey := do
  let result ← Work.logged (survey (← get).files config sources)
  let survey ← Work.orStop .duplicate result
  if survey.isEmpty then
    Work.note .error ("No class or interface declarations found in " ++ project.text)
    throw (.exit 1)
  return survey

/-- The page of a project goes into it unless another place is given. -/
def Request.page (request : Request) (project : Path) : Path :=
  request.output.getD (project.child "inheritzoom.html")

/-- Writes and opens what is asked for. The title of the page is the name of the project's
directory. -/
def deliver (request : Request) (project : Path) (survey : Survey) : Work Survey := do
  let output := request.page project
  writePage survey.graph output project.name
  Work.note .info ("Generated " ++ output.text)
  match request.exportTo with
  | none => pure ()
  | some path =>
    writeGraph survey.graph path
    Work.note .info ("Exported graph data to " ++ path.text)
  if request.openPage then openPage output
  return survey

/-- Does all that is asked for on a project. -/
def run (request : Request) : Work Survey := do
  -- From here on the project is known by its path from the root, whatever the request called it.
  let project := Files.pathTo ((← get).files.resolve request.project)
  let sources ← findSources project request.config.exclude
  let survey ← surveySources project request.config sources
  reportCycles survey.graph
  deliver request project survey

end Lineage.Project
