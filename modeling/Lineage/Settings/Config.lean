import Lineage.Graph.Assembly
import Lineage.Java.Source
import Lineage.Settings.Value

/-! The settings of an extraction. -/

namespace Lineage.Settings

/-- The settings of an extraction after they are checked. What is excluded is a list of any values,
of which only texts name a directory, and the number of workers is a positive number or the truth
value that counts as one. -/
structure Config where
  exclude : List Value := []
  mergePolicy : MergePolicy := .first
  danglingEdges : DanglingPolicy := .drop
  docScope : Java.DocScope := .declaration
  workers : Value := .whole 4
  deriving Repr

/-- Why settings cannot be used. -/
inductive ConfigFault where
  | notTable (place : String) (value : Value)
  | mergePolicy (value : Value)
  | danglingEdges (value : Value)
  | docScope (value : Value)
  | workers (value : Value)
  | exclude (value : Value)
  deriving Repr

/-- Choices between parentheses, in the order in which they are listed. -/
def choices (labels : List String) : String :=
  "(" ++ ", ".intercalate (labels.map Text.quoted) ++ ")"

/-- What is wrong, in words. -/
def ConfigFault.message : ConfigFault → String
  | .notTable place value => place ++ " must be a table, got " ++ describe value
  | .mergePolicy value =>
    "merge_policy must be one of " ++ choices (MergePolicy.all.map MergePolicy.label) ++ ", got " ++
      describe value
  | .danglingEdges value =>
    "dangling_edges must be one of " ++ choices (DanglingPolicy.all.map DanglingPolicy.label) ++
      ", got " ++ describe value
  | .docScope value =>
    "doc_scope must be one of " ++ choices (Java.DocScope.all.map Java.DocScope.label) ++
      ", got " ++ describe value
  | .workers value => "workers must be a positive integer, got " ++ describe value
  | .exclude value => "exclude must be a list, got " ++ describe value

/-- The value that cannot be used. -/
def ConfigFault.value : ConfigFault → Value
  | .notTable _ value => value
  | .mergePolicy value => value
  | .danglingEdges value => value
  | .docScope value => value
  | .workers value => value
  | .exclude value => value

/-- The names of the settings. -/
def settingNames : List String :=
  ["exclude", "merge_policy", "dangling_edges", "doc_scope", "workers"]

/-- A setting that names one of several choices. -/
def choose {α : Type} (entries : List (String × Value)) (name : String)
    (ofLabel? : String → Option α) (fallback : α) (fault : Value → ConfigFault) :
    Except ConfigFault α :=
  match entries.lookup name with
  | none => .ok fallback
  | some value =>
    match value.text?.bind ofLabel? with
    | some chosen => .ok chosen
    | none => .error (fault value)

/-- Whether a value can be a number of workers: a whole number above zero, or true. -/
def isWorkerCount : Value → Bool
  | .whole count => 1 ≤ count
  | .boolean value => value
  | _ => false

/-- Checks the settings that are given, and takes the default for the others. The first fault
counts, in the order of the policies, the scope, the workers and the exclusions. -/
def Config.check (entries : List (String × Value)) : Except ConfigFault Config := do
  let defaults : Config := {}
  let mergePolicy ← choose entries "merge_policy" MergePolicy.ofLabel? defaults.mergePolicy
    .mergePolicy
  let danglingEdges ←
    choose entries "dangling_edges" DanglingPolicy.ofLabel? defaults.danglingEdges .danglingEdges
  let docScope ← choose entries "doc_scope" Java.DocScope.ofLabel? defaults.docScope .docScope
  let workers := (entries.lookup "workers").getD defaults.workers
  if !isWorkerCount workers then throw (.workers workers)
  match entries.lookup "exclude" with
  | none => return { mergePolicy, danglingEdges, docScope, workers }
  | some (.list exclude) => return { exclude, mergePolicy, danglingEdges, docScope, workers }
  | some other => throw (.exclude other)

/-- The given names in the order of their code points. -/
def sortedNames (names : List String) : List String :=
  names.mergeSort fun one other => !(other < one)

/-- The settings in a table. A name that is no setting is reported and otherwise ignored. -/
def Config.ofEntries (entries : List (String × Value)) : Logged (Except ConfigFault Config) := do
  let unknown := (entries.map Prod.fst).filter (!settingNames.contains ·)
  if !unknown.isEmpty then
    Logged.note .warning
      ("Ignoring unknown inheritzoom settings: " ++ ", ".intercalate (sortedNames unknown))
  return Config.check entries

end Lineage.Settings
