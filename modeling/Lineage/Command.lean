import Lineage.Command.Help
import Lineage.Command.Options
import Lineage.Graph.Neighborhood
import Lineage.Project.Run
import Lineage.Settings.Load

/-! The command: from its arguments to what it prints and writes. -/

namespace Lineage.Command

open Lineage.Files Lineage.Project Lineage.Settings

/-- A text with spaces behind it up to a width. -/
def padded (width : Nat) (text : String) : String :=
  text ++ String.ofList (List.replicate (width - text.length) ' ')

/-- A line of the table of neighbors. -/
def tableLine (distance name relation methods : String) : String :=
  padded 9 distance ++ " " ++ padded 32 name ++ " " ++ padded 32 relation ++ " " ++ methods ++ "\n"

/-- Whether one neighbor comes no later than another in the table: the nearer first, then by
name. -/
def neighborLe (one other : Graph.Neighbor) : Bool :=
  one.distance < other.distance || (one.distance == other.distance && !(other.name < one.name))

/-- The table of the types around a type. -/
def neighborTable (reached : List Graph.Neighbor) : String :=
  String.join (tableLine "Distance" "Type" "Relation" "Methods" ::
    (reached.mergeSort neighborLe).map fun neighbor =>
      tableLine (toString neighbor.distance) neighbor.name (neighbor.relation.getD "START")
        (toString neighbor.methodCount))

/-- A failure that the command does not answer for. -/
inductive Crash where
  | load (fault : LoadFault)
  | stop (stop : Stop)

/-- What is wrong, in words. -/
def Crash.message : Crash → String
  | .load fault => fault.message
  | .stop reason => reason.message

/-- What a command has done: its exit status, unless it failed, what it printed, and the desk it
left. -/
structure Outcome where
  status : Except Crash Nat
  printed : String
  errors : String
  desk : Desk

/-- The status with which the process ends: 1 for a failure that the command does not answer for. -/
def Outcome.exitStatus (outcome : Outcome) : Nat :=
  match outcome.status with
  | .ok status => status
  | .error _ => 1

/-- The settings that switches put over those of the project. -/
def Options.overrides (options : Options) : List (String × Value) :=
  [("merge_policy", (options.mergePolicy.map fun policy => Value.text policy.label).getD .absent),
    ("dangling_edges", if options.keepDangling then .text DanglingPolicy.keep.label else .absent),
    ("doc_scope", (options.docScope.map fun scope => Value.text scope.label).getD .absent)]

/-- The notes that the command shows: warnings and errors, or all if it is asked to be verbose. -/
def shownNotes (verbose : Bool) (notes : List Note) : String :=
  String.join ((notesFrom (if verbose then .debug else .warning) notes).map (·.text ++ "\n"))

/-- The table of the types around the one in focus, or a note that there is no such type. No focus
is asked for by an empty name. -/
def showFocus (options : Options) (graph : Graph) : Work String := do
  match options.focus with
  | none | some "" => return ""
  | some focus =>
    match graph.neighborhood? focus options.depth with
    | some reached => return neighborTable reached
    | none =>
      Work.note .error ("Type " ++ focus ++ " is not in the graph")
      return ""

/-- What is done once the settings are known. A type that is declared twice although it must not be
ends the work with the status 2. -/
def workOn (options : Options) (project : Path) (config : Config) : Work (Nat × String) := do
  let request : Request :=
    { project, config, output := options.output, exportTo := options.exportTo,
      openPage := options.openPage }
  let result : Except Stop Survey ← ExceptT.lift (Project.run request).run
  match result with
  | .ok survey => return (0, ← showFocus options survey.graph)
  | .error (.duplicate duplicate) =>
    Work.note .error duplicate.message
    return (2, "")
  | .error (.exit status) => return (status, "")
  | .error other => throw other

/-- The outcome of a command that ends before it does any work. -/
def endedEarly (files : Files) (status : Nat) (printed errors : String) : Outcome :=
  { status := .ok status, printed, errors, desk := { files } }

/-- What a command does with the files of a project. -/
def execute (options : Options) (files : Files) : Outcome :=
  let project := options.project.getD (.ofText "")
  let loaded := Settings.load files project options.overrides
  let desk : Desk := { files, notes := loaded.notes }
  match loaded.value with
  | .error (.config fault) =>
    let notes := loaded.notes ++ [⟨.error, "Invalid configuration: " ++ fault.message⟩]
    { status := .ok 2, printed := "", errors := shownNotes options.verbose notes,
      desk := { desk with notes } }
  | .error fault =>
    { status := .error (.load fault), printed := "",
      errors := shownNotes options.verbose desk.notes, desk }
  | .ok config =>
    match (workOn options project config).run.run desk with
    | (.ok (status, printed), after) =>
      { status := .ok status, printed, errors := shownNotes options.verbose after.notes,
        desk := after }
    | (.error stop, after) =>
      { status := .error (.stop stop), printed := "",
        errors := shownNotes options.verbose after.notes
        desk := after }

/-- Runs the command with its arguments on a tree of files. -/
def runCommand (arguments : List String) (files : Files) : Outcome :=
  match Options.read arguments with
  | .error .help => endedEarly files 0 helpText ""
  | .error (.fault fault) =>
    endedEarly files 2 "" (usageText ++ "inheritzoom: error: " ++ fault.message ++ "\n")
  | .ok options => execute options files

end Lineage.Command
