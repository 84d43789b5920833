import Lineage.Files

/-! What writing a file does to a tree: the file is there, directories above it may be new, and all
else stays. -/

namespace Lineage.Files

/-- The bytes of the file at a place, if there is one. -/
def bytesAt? (files : Files) (place : Place) : Option (List UInt8) :=
  match files.at? place with
  | some (.file bytes) => some bytes
  | _ => none

/-- What is at a place after something was put somewhere below the root. -/
theorem at?_put (files : Files) {place : Place} (below : place ≠ []) (entry : Entry)
    (other : Place) :
    (files.put place entry).at? other = if other = place then some entry else files.at? other := by
  unfold at? put
  dsimp only
  rw [Table.get?_put]
  cases other with
  | nil =>
    -- The root is a directory whatever the table has.
    rw [if_neg below.symm, if_neg below.symm]
  | cons name names => rfl

/-- At the root there always is a directory. -/
theorem ne_nil_of_at? {files : Files} {place : Place} (other : files.at? place ≠ some .directory) :
    place ≠ [] := by
  rintro rfl
  exact other rfl

/-- A path that can be followed leads where it says. -/
theorem follow_eq_ok {files : Files} {names : List String} {start place : Place}
    (followed : files.follow start names = .ok place) : place = names.foldl step start := by
  -- Each name is one step, and the last step ends at the place.
  induction names generalizing start with
  | nil => exact (Except.ok.inj followed).symm
  | cons name names ih =>
    unfold follow at followed
    split at followed
    · cases followed
    · cases followed
    · exact ih followed

/-- A path that can be followed leads where its names say. -/
theorem locate_eq_ok {files : Files} {path : Path} {place : Place}
    (located : files.locate path = .ok place) :
    place = files.resolve path := by
  -- The place is not made up from what is found on the way, so the path alone tells it.
  unfold locate at located
  split at located
  · rename_i followed
    cases located
    exact follow_eq_ok followed
  · cases located

/-- A tree with new directories in it, and nothing else changed. -/
structure Grows (files after : Files) : Prop where
  start : after.workingDirectory = files.workingDirectory
  kept : ∀ place entry, files.at? place = some entry → after.at? place = some entry
  new : ∀ place entry, after.at? place = some entry → files.at? place = some entry ∨
    entry = .directory

namespace Grows

theorem refl (files : Files) : Grows files files :=
  ⟨rfl, fun _ _ present => present, fun _ _ present => .inl present⟩

/-- Growing twice is growing. -/
theorem trans {first second third : Files} (one : Grows first second) (other : Grows second third) :
    Grows first third := by
  refine ⟨other.start.trans one.start, ?_, ?_⟩
  · intro place entry present
    exact other.kept place entry (one.kept place entry present)
  · -- What is new was new in the second step or in the first.
    intro place entry present
    rcases other.new place entry present with earlier | isDirectory
    · exact one.new place entry earlier
    · exact .inr isDirectory

/-- No file is new, and none is lost. -/
theorem bytesAt? {files after : Files} (grows : Grows files after) (place : Place) :
    after.bytesAt? place = files.bytesAt? place := by
  unfold Files.bytesAt?
  cases there : files.at? place with
  | some entry => rw [grows.kept place entry there]
  | none =>
    cases now : after.at? place with
    | none => rfl
    | some entry =>
      -- What is there now and was not there before is a directory.
      rcases grows.new place entry now with before | rfl
      · cases there.symm.trans before
      · rfl

theorem resolve {files after : Files} (grows : Grows files after) (path : Path) :
    after.resolve path = files.resolve path := by
  unfold Files.resolve anchorPlace
  rw [grows.start]

end Grows

/-- A directory is made only where nothing was. -/
theorem grows_of_makeDirectory {files made : Files} {path : Path}
    (done : files.makeDirectory path = .ok made) :
    Grows files made := by
  unfold makeDirectory at done
  cases located : files.locate path with
  | error fault =>
    rw [located] at done
    cases done
  | ok place =>
    rw [located] at done
    dsimp only [bind, Except.bind] at done
    cases there : files.at? place with
    | some entry =>
      rw [there] at done
      cases done
    | none =>
      rw [there] at done
      cases done
      -- Nothing is at the place, so it is not the root, and what is elsewhere stays.
      have below : place ≠ [] := by
        rintro rfl
        cases there
      refine ⟨rfl, ?_, ?_⟩
      · intro other entry present
        have apart : other ≠ place := by
          rintro rfl
          cases there.symm.trans present
        rw [at?_put files below, if_neg apart, present]
      · intro other entry present
        rw [at?_put files below] at present
        split at present
        · exact .inr (Option.some.inj present).symm
        · exact .inl present

/-- A directory that is made if it is missing makes the tree grow. -/
theorem grows_ensureDirectory (files : Files) (path : Path) :
    Grows files (files.ensureDirectory path).2 := by
  unfold ensureDirectory
  cases made : files.makeDirectory path with
  | ok after => exact grows_of_makeDirectory made
  | error fault =>
    dsimp only
    split
    · exact .refl files
    · exact .refl files

/-- All directories of a path that are made if they are missing make the tree grow. -/
theorem grows_ensureDirectoriesUp (anchor : Anchor) (files : Files) (names : List String) :
    Grows files (ensureDirectoriesUp anchor files names).2 := by
  -- The directories further up are made first, and then the one that is asked for.
  induction names with
  | nil => exact grows_ensureDirectory files _
  | cons name above ih =>
    unfold ensureDirectoriesUp
    dsimp only
    cases made : files.makeDirectory ⟨anchor, (name :: above).reverse⟩ with
    | ok after => exact grows_of_makeDirectory made
    | error fault =>
      dsimp only
      split
      · generalize ensureDirectoriesUp anchor files above = result at ih ⊢
        obtain ⟨deeper, changed⟩ := result
        cases deeper with
        | some deeper => exact ih
        | none => exact ih.trans (grows_ensureDirectory changed _)
      · split
        · exact .refl files
        · exact .refl files

/-- A tree after files were written one after the other, each with its bytes: they are there, and
otherwise there are new directories at most. -/
structure Wrote (files after : Files) (written : List (Place × List UInt8)) : Prop where
  start : after.workingDirectory = files.workingDirectory
  /-- Each place has what was written there last, or else what it had. -/
  bytes : ∀ place, after.bytesAt? place = (written.reverse.lookup place).or (files.bytesAt? place)
  /-- No directory is lost. -/
  directories : ∀ place, files.at? place = some .directory → after.at? place = some .directory

namespace Wrote

/-- What is written first and what is written then is written together. -/
theorem trans {first second third : Files} {earlier later : List (Place × List UInt8)}
    (one : Wrote first second earlier) (other : Wrote second third later) :
    Wrote first third (earlier ++ later) := by
  refine ⟨other.start.trans one.start, ?_, ?_⟩
  · -- Of two files at one place the later one counts.
    intro place
    rw [other.bytes, one.bytes, List.reverse_append, List.lookup_append, Option.or_assoc]
  · intro place present
    exact other.directories place (one.directories place present)

/-- Where files are written all paths lead to the same places. -/
theorem resolve {files after : Files} {written : List (Place × List UInt8)}
    (wrote : Wrote files after written) (path : Path) :
    after.resolve path = files.resolve path := by
  unfold Files.resolve anchorPlace
  rw [wrote.start]

end Wrote

/-- A file is written where its path says. -/
theorem wrote_of_write {files after : Files} {path : Path} {bytes : List UInt8}
    (done : files.write path bytes = .ok after) :
    Wrote files after [(files.resolve path, bytes)] := by
  unfold write at done
  cases located : files.locate path with
  | error fault =>
    rw [located] at done
    cases done
  | ok place =>
    rw [located] at done
    rw [← locate_eq_ok located]
    dsimp only [bind, Except.bind] at done
    split at done
    · cases done
    · -- Only a directory can be in the way of a file.
      rename_i noDirectory
      cases done
      have below : place ≠ [] := ne_nil_of_at? noDirectory
      refine ⟨rfl, ?_, ?_⟩
      · intro other
        unfold Files.bytesAt?
        rw [at?_put files below, List.reverse_singleton, List.lookup_cons, List.lookup_nil]
        by_cases same : other = place
        · rw [if_pos same, same, beq_self_eq_true]
          rfl
        · rw [if_neg same, beq_false_of_ne same]
          rfl
      · intro other present
        have apart : other ≠ place := by
          rintro rfl
          exact noDirectory present
        rw [at?_put files below, if_neg apart, present]

/-- New directories come first, and then the file. -/
theorem wrote_of_writeWithParents {files after : Files} {path : Path} {bytes : List UInt8}
    (done : files.writeWithParents path bytes = (none, after)) :
    Wrote files after [(files.resolve path, bytes)] := by
  unfold writeWithParents ensureDirectories at done
  have grows := grows_ensureDirectoriesUp path.parent.anchor files path.parent.parts.reverse
  generalize ensureDirectoriesUp path.parent.anchor files path.parent.parts.reverse =
    result at done grows
  obtain ⟨fault, changed⟩ := result
  cases fault with
  | some fault => cases done
  | none =>
    dsimp only at done grows
    cases written : changed.write path bytes with
    | error fault =>
      rw [written] at done
      cases done
    | ok other =>
      rw [written] at done
      cases done
      have wrote := wrote_of_write written
      -- The path leads to the same place with the new directories and without them.
      rw [grows.resolve] at wrote
      refine ⟨wrote.start.trans grows.start, ?_, ?_⟩
      · intro place
        rw [wrote.bytes, grows.bytesAt?]
      · intro place present
        exact wrote.directories place (grows.kept place _ present)

/-- Writes files one after the other until one cannot be written. What was done before stays. -/
def attempt (files : Files) : List (Path × List UInt8) → Option Fault × Files
  | [] => (none, files)
  | (path, bytes) :: more =>
    match files.writeWithParents path bytes with
    | (some fault, left) => (some fault, left)
    | (none, left) => left.attempt more

section Attempt

variable {files left after : Files} {path : Path} {bytes : List UInt8}

/-- Behind a file that can be written the others are tried. -/
theorem attempt_cons_of_none (written : files.writeWithParents path bytes = (none, left))
    (more : List (Path × List UInt8)) :
    files.attempt ((path, bytes) :: more) = left.attempt more := by
  rw [attempt, written]

/-- A file that cannot be written is the last that is tried. -/
theorem attempt_cons_of_some {fault : Fault}
    (failed : files.writeWithParents path bytes = (some fault, left))
    (more : List (Path × List UInt8)) :
    files.attempt ((path, bytes) :: more) = (some fault, left) := by
  rw [attempt, failed]

/-- Where nothing is in the way, all files are written, each where its path says. -/
theorem wrote_of_attempt {outputs : List (Path × List UInt8)}
    (done : files.attempt outputs = (none, after)) :
    Wrote files after (outputs.map fun output => (files.resolve output.1, output.2)) := by
  -- Paths lead to the same places in the tree that the files before have left.
  induction outputs generalizing files with
  | nil =>
    cases done
    exact ⟨rfl, fun place => rfl, fun place present => present⟩
  | cons output more ih =>
    obtain ⟨path, bytes⟩ := output
    cases written : files.writeWithParents path bytes with
    | mk fault left =>
      cases fault with
      | some fault =>
        rw [attempt_cons_of_some written] at done
        cases done
      | none =>
        rw [attempt_cons_of_none written] at done
        have first := wrote_of_writeWithParents written
        have later := ih done
        simp only [first.resolve] at later
        exact first.trans later

end Attempt

end Lineage.Files
