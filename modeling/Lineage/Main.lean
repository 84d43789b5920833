import Lineage.Command

/-! The command line: the command works on a picture of the disk, and what it changed there is then
done on disk. -/

namespace Lineage.Disk

open Lineage.Files

/-- Whether a command may read a file of this name. Of other files it is enough to know that they
are there. -/
def isRead (name : String) : Bool :=
  name.endsWith ".java" || name.endsWith ".toml"

/-- What is on disk at a place, if anything is. -/
def entryAt? (place : Place) : IO (Option Entry) := do
  try
    let path ← IO.FS.realPath (pathTo place).text
    if ← path.isDir then return some .directory
    if !(← path.pathExists) then return none
    if !isRead (place.getLastD "") then return some (.file [])
    return some (.file (← IO.FS.readBinFile path).toList)
  catch _ => return none

/-- The picture with what is on disk at one place. -/
def addEntry (picture : Files) (place : Place) : IO Files := do
  return (← entryAt? place).elim picture (picture.put place)

/-- The picture with what is on disk along a path. -/
def addPath (picture : Files) (path : Path) : IO Files :=
  (List.range (path.parts.length + 1)).foldlM (fun picture count =>
      addEntry picture (picture.resolve { path with parts := path.parts.take count })) picture

/-- The picture with all that is on disk at a place and below it. Links and directories that hold no
sources are not entered. -/
partial def addTree (picture : Files) (place : Place) : IO Files := do
  let added ← addEntry picture place
  if added.at? place != some .directory then return added
  let path ← IO.FS.realPath (pathTo place).text
  (← path.readDir).foldlM
    (fun picture child => do
      let below := place ++ [child.fileName]
      let isLink := (← IO.FS.realPath child.path) != child.path
      if isLink || Project.skippedDirectories.contains child.fileName then addEntry picture below
      else addTree picture below)
    added

/-- A picture of all on disk that matters to a command. -/
def takePicture (options : Command.Options) : IO Files := do
  let workingDirectory := (Path.ofText (← IO.currentDir).toString).parts
  let paths := [options.project, options.output, options.exportTo].filterMap id
  let ways ← (pathTo workingDirectory :: paths).foldlM addPath { table := .empty, workingDirectory }
  match options.project with
  | none => return ways
  | some project => addTree ways (ways.resolve project)

/-- Does on disk what a command did to the picture. -/
def carryOut (after before : Files) : IO Unit :=
  (after.differencesSince before).forM fun (place, entry) =>
    match entry with
    | .directory => IO.FS.createDirAll (pathTo place).text
    | .file bytes => IO.FS.writeBinFile (pathTo place).text ⟨bytes.toArray⟩

end Lineage.Disk

/-- Runs the command on the files of the disk. Pages are written and not shown. -/
def main (arguments : List String) : IO UInt32 := do
  let before ← Lineage.Disk.takePicture ((Lineage.Command.Options.read arguments).toOption.getD {})
  let outcome := Lineage.Command.runCommand arguments before
  Lineage.Disk.carryOut outcome.desk.files before
  IO.print outcome.printed
  IO.eprint outcome.errors
  if let .error crash := outcome.status then IO.eprintln crash.message
  return outcome.exitStatus.toUInt32
