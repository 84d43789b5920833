import Lineage.Text.Quoted

/-! What the command line offers by name, and what can be wrong with a command line. -/

namespace Lineage.Command

/-- What can be asked for by name. -/
inductive Switch where
  | help
  | output
  | exportTo
  | mergePolicy
  | keepDangling
  | docScope
  | focus
  | depth
  | openPage
  | verbose
  deriving DecidableEq, Repr

/-- Every switch, in the order in which the help lists them. -/
def Switch.all : List Switch :=
  [.help, .output, .exportTo, .mergePolicy, .keepDangling, .docScope, .focus, .depth, .openPage,
    .verbose]

/-- The names of a switch, the short one first. -/
def Switch.names : Switch → List String
  | .help => ["-h", "--help"]
  | .output => ["-o", "--output"]
  | .exportTo => ["--export"]
  | .mergePolicy => ["--merge-policy"]
  | .keepDangling => ["--keep-dangling"]
  | .docScope => ["--doc-scope"]
  | .focus => ["--focus"]
  | .depth => ["--depth"]
  | .openPage => ["--open"]
  | .verbose => ["-v", "--verbose"]

/-- Whether a value belongs to a switch. -/
def Switch.takesValue : Switch → Bool
  | .help | .keepDangling | .openPage | .verbose => false
  | _ => true

/-- A switch as messages name it. -/
def Switch.title (switch : Switch) : String :=
  "/".intercalate switch.names

/-- All names with their switches, in the order in which the help lists them. -/
def allNames : List (String × Switch) :=
  Switch.all.flatMap fun switch => switch.names.map fun name => (name, switch)

/-- The switch with a given name. -/
def Switch.ofName? (name : String) : Option Switch :=
  allNames.lookup name

/-- Why a command line cannot be understood. -/
inductive UsageFault where
  | ambiguous (argument : String) (candidates : List String)
  | ignoredValue (switch : Switch) (value : String)
  | missingValue (switch : Switch)
  | noNumber (switch : Switch) (value : String)
  | noChoice (switch : Switch) (value : String) (choices : List String)
  | missingProject
  | unrecognized (arguments : List String)
  deriving DecidableEq, Repr

/-- What is wrong, in words. -/
def UsageFault.message : UsageFault → String
  | .ambiguous argument candidates =>
    "ambiguous option: " ++ argument ++ " could match " ++ ", ".intercalate candidates
  | .ignoredValue switch value =>
    "argument " ++ switch.title ++ ": ignored explicit argument " ++ Text.quoted value
  | .missingValue switch => "argument " ++ switch.title ++ ": expected one argument"
  | .noNumber switch value =>
    "argument " ++ switch.title ++ ": invalid int value: " ++ Text.quoted value
  | .noChoice switch value choices =>
    "argument " ++ switch.title ++ ": invalid choice: " ++ Text.quoted value ++ " (choose from " ++
      ", ".intercalate (choices.map Text.quoted) ++ ")"
  | .missingProject => "the following arguments are required: project_dir"
  | .unrecognized arguments => "unrecognized arguments: " ++ " ".intercalate arguments

end Lineage.Command
