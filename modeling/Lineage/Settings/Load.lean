import Lineage.Files
import Lineage.Settings.Config
import Lineage.Toml.Document

/-! The settings of a project, from its files. -/

namespace Lineage.Settings

open Lineage.Files

/-- Why the settings of a project cannot be loaded. -/
inductive LoadFault where
  | config (fault : ConfigFault)
  | notText (fault : Text.Utf8Fault)
  | tooManyDigits (count : Nat)
  | unshowable
  deriving Repr

/-- What is said of too long a number, with what is known of it. -/
def digitLimitMessage (detail : String) : String :=
  "Exceeds the limit (" ++ toString Toml.digitLimit ++ " digits) for integer string conversion" ++
    detail ++ "; use sys.set_int_max_str_digits() to increase the limit"

/-- What is wrong, in words. -/
def LoadFault.message : LoadFault → String
  | .config fault => fault.message
  | .notText fault => fault.message
  | .tooManyDigits count => digitLimitMessage (": value has " ++ toString count ++ " digits")
  | .unshowable => digitLimitMessage ""

/-- A fault of the settings, which its message has to show. -/
def LoadFault.ofConfig (fault : ConfigFault) : LoadFault :=
  if fault.value.isShowable then .config fault else .unshowable

/-- What a settings file holds: its entries, or nothing if it cannot be used. -/
def readDocument (files : Files) (path : Path) : Logged (Except LoadFault (Option Toml.Entries)) :=
  let unread (reason : String) : Logged (Except LoadFault (Option Toml.Entries)) := do
    Logged.note .warning ("Could not read " ++ path.text ++ ": " ++ reason)
    return .ok none
  match files.read path with
  | .error fault => unread fault.message
  | .ok bytes =>
    match Text.decode bytes with
    | .error fault => return .error (.notText fault)
    | .ok text =>
      match Toml.parse text with
      | .error .malformed => unread "<TOMLDecodeError>"
      | .error (.tooManyDigits count) => return .error (.tooManyDigits count)
      | .ok entries => return .ok (some entries)

/-- A value that must be a table. -/
def asTable (place : String) : Value → Except LoadFault (List (String × Value))
  | .table entries => .ok entries
  | other => .error (.ofConfig (.notTable place other))

/-- The table that a project's own settings file holds. A document without one has an empty
table. -/
def ownTable (path : Path) (entries : Toml.Entries) : Except LoadFault (List (String × Value)) :=
  asTable ("[inheritzoom] in " ++ path.text) ((entries.lookup "inheritzoom").getD (.table []))

/-- The table for this tool that a settings file shared by many tools holds, if it has one. -/
def sharedTable (path : Path) (entries : Toml.Entries) :
    Except LoadFault (Option (List (String × Value))) := do
  let tools ← asTable ("[tool] in " ++ path.text) ((entries.lookup "tool").getD (.table []))
  match tools.lookup "inheritzoom" with
  | none => return none
  | some value => return some (← asTable ("[tool.inheritzoom] in " ++ path.text) value)

/-- The table of the shared settings file, if it is there and can be used. -/
def readShared (files : Files) (project : Path) :
    Logged (Except LoadFault (Option (List (String × Value)))) := do
  let path := project.child "pyproject.toml"
  if !files.isPresent path then return .ok none
  match ← readDocument files path with
  | .error fault => return .error fault
  | .ok none => return .ok none
  | .ok (some entries) => return sharedTable path entries

/-- The settings table of a project. Its own settings file comes first, and the shared one counts
only if the first is missing or cannot be used. -/
def readTable (files : Files) (project : Path) :
    Logged (Except LoadFault (Option (List (String × Value)))) := do
  let path := project.child ".inheritzoom.toml"
  if !files.isPresent path then readShared files project
  else
    match ← readDocument files path with
    | .error fault => return .error fault
    | .ok none => readShared files project
    | .ok (some entries) => return (ownTable path entries).map some

/-- The entries with those that are given put over them. A value that is absent does not count. -/
def override (entries overrides : List (String × Value)) : List (String × Value) :=
  overrides.foldl
    (fun known (name, value) =>
      match value with
      | .absent => known
      | _ => putEntry name value known)
    entries

/-- The settings of a project; what is given here goes over what its files say. That values may be
nested too deeply for the stack of a machine is left out: every value can be read and shown. -/
def load (files : Files) (project : Path) (overrides : List (String × Value)) :
    Logged (Except LoadFault Config) := do
  match ← readTable files project with
  | .error fault => return .error fault
  | .ok table =>
    match ← Config.ofEntries (override (table.getD []) overrides) with
    | .error fault => return .error (.ofConfig fault)
    | .ok config => return .ok config

end Lineage.Settings
