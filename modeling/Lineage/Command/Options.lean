import Lineage.Command.Argument
import Lineage.Files.Path
import Lineage.Graph.Assembly
import Lineage.Java.Source
import Lineage.Number.Whole

/-! What a command line asks for. -/

namespace Lineage.Command

open Lineage.Files

/-- What is asked for. The project is none until it is named. -/
structure Options where
  project : Option Path := none
  output : Option Path := none
  exportTo : Option Path := none
  mergePolicy : Option MergePolicy := none
  keepDangling : Bool := false
  docScope : Option Java.DocScope := none
  focus : Option String := none
  depth : Int := 2
  openPage : Bool := false
  verbose : Bool := false

/-- Why reading a command line ends early. -/
inductive Ending where
  | help
  | fault (fault : UsageFault)

/-- One of several choices. -/
def chosen {α : Type} (switch : Switch) (choices : List α) (label : α → String) (value : String) :
    Except Ending α :=
  match choices.find? (label · == value) with
  | some choice => .ok choice
  | none => .error (.fault (.noChoice switch value (choices.map label)))

/-- The options with a switch taken into account. -/
def Options.apply (options : Options) (switch : Switch) (value : String) : Except Ending Options :=
  match switch with
  | .help => .error .help
  | .output => .ok { options with output := some (.ofText value) }
  | .exportTo => .ok { options with exportTo := some (.ofText value) }
  | .mergePolicy => do
    let policy ← chosen switch MergePolicy.all MergePolicy.label value
    return { options with mergePolicy := some policy }
  | .keepDangling => .ok { options with keepDangling := true }
  | .docScope => do
    let scope ← chosen switch Java.DocScope.all Java.DocScope.label value
    return { options with docScope := some scope }
  | .focus => .ok { options with focus := some value }
  | .depth =>
    match Number.whole? value with
    | some depth => .ok { options with depth }
    | none => .error (.fault (.noNumber switch value))
  | .openPage => .ok { options with openPage := true }
  | .verbose => .ok { options with verbose := true }

/-- How a cluster of switches in one argument ends: with a switch that may want the next argument,
with a switch and its value, or with letters that name no switch. -/
inductive ClusterEnd where
  | switch (switch : Switch)
  | value (switch : Switch) (value : String)
  | unknown (text : String)

/-- The switches without a value in one argument, and how it ends. -/
structure Cluster where
  switches : List Switch
  ending : ClusterEnd

/-- One more switch in front. -/
def Cluster.after (switch : Switch) (cluster : Cluster) : Cluster :=
  { cluster with switches := switch :: cluster.switches }

/-- A switch and what is attached to it. A switch with a short name that takes no value may have
others behind it. -/
def clusterOf (switch : Switch) (isShort byEquals : Bool) : List Char → Except UsageFault Cluster
  | [] =>
    if switch.takesValue then .ok ⟨[], .value switch ""⟩ else .error (.ignoredValue switch "")
  | c :: rest =>
    if switch.takesValue then .ok ⟨[], .value switch (String.ofList (c :: rest))⟩
    -- Only letters right behind a short name can be further switches.
    else if !isShort || byEquals || c == '-' then
      .error (.ignoredValue switch (String.ofList (c :: rest)))
    else
      match Switch.ofName? (String.ofList ['-', c]) with
      | none => .ok ⟨[switch], .unknown (String.ofList ('-' :: c :: rest))⟩
      | some next =>
        match rest with
        | [] => .ok ⟨[switch], .switch next⟩
        | '=' :: value => (clusterOf next true true value).map (.after switch)
        | d :: more => (clusterOf next true false (d :: more)).map (.after switch)

/-- The switches in one argument. -/
def clusterFor (switch : Switch) (isShort : Bool) : Option Attached → Except UsageFault Cluster
  | none => .ok ⟨[], .switch switch⟩
  | some attached => clusterOf switch isShort attached.byEquals attached.value

/-- Options as far as they are read, and the arguments that have found no use. -/
structure Reading where
  options : Options := {}
  unused : List String := []

/-- A fault of usage ends the reading. -/
def orEnd {α : Type} (result : Except UsageFault α) : Except Ending α :=
  result.mapError .fault

/-- Takes the switches of an argument into account. A value may come from the arguments behind it,
of which those that are left are returned. -/
def Reading.take (reading : Reading) (cluster : Cluster) (behind : List Argument) :
    Except Ending (Reading × List Argument) := do
  let plain := cluster.switches.map fun switch => (switch, "")
  let (steps, unused, left) ← match cluster.ending with
    | .unknown text => .ok (plain, [text], behind)
    | .value switch value => .ok (plain ++ [(switch, value)], [], behind)
    | .switch switch =>
      if switch.takesValue then
        match behind with
        | ⟨value, .value⟩ :: left => .ok (plain ++ [(switch, value)], [], left)
        | _ => .error (.fault (.missingValue switch))
      else .ok (plain ++ [(switch, "")], [], behind)
  let options ← steps.foldlM (fun options (switch, value) => options.apply switch value)
    reading.options
  return ({ options, unused := reading.unused ++ unused }, left)

/-- Whether an argument is a switch or looks like one. -/
def Argument.isHyphened (argument : Argument) : Bool :=
  match argument.role with
  | .value | .mark => false
  | _ => true

/-- The first value, with any marks around it, and what is behind. -/
def projectAt? (arguments : List Argument) : Option (String × List Argument) :=
  match arguments.dropWhile (·.role == .mark) with
  | ⟨text, .value⟩ :: left => some (text, left.dropWhile (·.role == .mark))
  | _ => none

/-- Takes the project from the values in front, unless it is known. Otherwise the arguments up to
the next switch find no use. -/
def Reading.takeValues (reading : Reading) (arguments : List Argument) : Reading × List Argument :=
  match reading.options.project, projectAt? arguments with
  | none, some (text, left) =>
    ({ reading with options := { reading.options with project := some (.ofText text) } }, left)
  | _, _ =>
    ({ reading with
        unused := reading.unused ++ (arguments.takeWhile (!·.isHyphened)).map (·.text) },
      arguments.dropWhile (!·.isHyphened))

/-- Reads the arguments from left to right. The first argument bounds their number. -/
def readArguments : Nat → Reading → List Argument → Except Ending Reading
  | 0, reading, _ => .ok reading
  | _, reading, [] => .ok reading
  | budget + 1, reading, argument :: behind =>
    match argument.role with
    | .unknown =>
      readArguments budget { reading with unused := reading.unused ++ [argument.text] } behind
    | .switch switch isShort attached => do
      let cluster ← orEnd (clusterFor switch isShort attached)
      let (next, left) ← reading.take cluster behind
      readArguments budget next left
    | _ =>
      let (next, left) := reading.takeValues (argument :: behind)
      readArguments budget next left

/-- What a command line asks for. All arguments must find a use, and one of them names the
project. -/
def Options.read (arguments : List String) : Except Ending Options := do
  let classified ← orEnd (classify arguments)
  let reading ← readArguments (classified.length + 1) {} classified
  -- A project that is missing is reported before arguments that found no use.
  if reading.options.project.isNone then throw (.fault .missingProject)
  if !reading.unused.isEmpty then throw (.fault (.unrecognized reading.unused))
  return reading.options

end Lineage.Command
