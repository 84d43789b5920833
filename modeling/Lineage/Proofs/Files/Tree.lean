import Lineage.Proofs.Files.Write
import Mathlib.Data.List.Induction

/-! What holds of every tree of files, and what writing a file to the same path a second time
does. -/

namespace Lineage

/-- A table that has a value under a name already is not changed by putting it there. -/
theorem Table.put_of_get? {κ α : Type} [DecidableEq κ] {table : Table κ α} {name : κ} {value : α}
    (present : table.get? name = some value) : table.put name value = table := by
  unfold put
  congr 1
  -- The first entry of the name is the one that is found, and it is put back as it is.
  unfold get? at present
  generalize table.entries = entries at present ⊢
  induction entries with
  | nil => cases present
  | cons entry more ih =>
    obtain ⟨known, old⟩ := entry
    rw [List.lookup_cons] at present
    by_cases same : known = name
    · subst same
      rw [beq_self_eq_true, Option.some.injEq] at present
      rw [putEntry, if_pos rfl, present]
    · rw [beq_false_of_ne fun equal => same equal.symm] at present
      rw [putEntry, if_neg same, ih present]

/-- Of two values put under one name only the second one counts. -/
theorem Table.put_put {κ α : Type} [DecidableEq κ] (table : Table κ α) (name : κ)
    (first second : α) :
    (table.put name first).put name second = table.put name second := by
  -- Both values go to the same entry, the first with this name or a new one at the end.
  unfold put
  congr 1
  dsimp only
  induction table.entries with
  | nil => simp [putEntry]
  | cons entry more ih =>
    obtain ⟨known, old⟩ := entry
    by_cases same : known = name
    · rw [putEntry, if_pos same, putEntry, if_pos same, putEntry, if_pos same]
    · rw [putEntry, if_neg same, putEntry, if_neg same, putEntry, if_neg same, ih]

namespace Files

/-- The bytes at a place are those of the file that is there. -/
theorem bytesAt?_eq_some_iff {files : Files} {place : Place} {bytes : List UInt8} :
    files.bytesAt? place = some bytes ↔ files.at? place = some (.file bytes) := by
  unfold bytesAt?
  cases files.at? place with
  | none => simp
  | some entry => cases entry <;> simp

/-- What holds of the files on a disk, which a table alone does not say. -/
structure IsTree (files : Files) : Prop where
  /-- All that is below the root lies in a directory. -/
  inside : ∀ place name entry, files.at? (place ++ [name]) = some entry →
    files.at? place = some .directory
  /-- Nothing is named by the double dot that goes up. -/
  proper : ∀ place name entry, files.at? (place ++ [name]) = some entry → name ≠ ".."
  /-- The directory at which relative paths begin is there. -/
  start : files.at? files.workingDirectory = some .directory

/-- What lies further down in a tree has directories all the way to it. -/
theorem IsTree.way {files : Files} (tree : files.IsTree) {place : Place} {names : List String}
    {entry : Entry} (present : files.at? (place ++ names) = some entry) :
    ∀ count < names.length, files.at? (place ++ names.take count) = some .directory := by
  -- From the end of the way: the last name lies in a directory, which the names before it lead to.
  induction names using List.reverseRecOn generalizing entry with
  | nil => exact fun count short => absurd short (Nat.not_lt_zero count)
  | append_singleton front last ih =>
    rw [← List.append_assoc] at present
    have above := tree.inside _ _ _ present
    intro count short
    rw [List.length_append, List.length_singleton] at short
    rcases Nat.lt_or_ge count front.length with earlier | here
    · rw [List.take_append_of_le_length (Nat.le_of_lt earlier)]
      exact ih above count earlier
    · have whole : count = front.length := by omega
      rw [whole, List.take_left]
      exact above

/-- Above a directory there is a directory; the root is above itself. -/
theorem IsTree.dropLast {files : Files} (tree : files.IsTree) {place : Place}
    (present : files.at? place = some .directory) : files.at? place.dropLast = some .directory := by
  -- The root is its own parent, and any other directory lies in one.
  rcases List.eq_nil_or_concat place with rfl | ⟨front, last, rfl⟩
  · exact present
  · rw [List.concat_eq_append] at present ⊢
    rw [List.dropLast_concat]
    exact tree.inside front last _ present

/-- Nothing that is missing in a tree lies where a double dot leads. -/
theorem IsTree.step_of_missing {files : Files} (tree : files.IsTree) {place : Place} {name : String}
    (passed : files.at? place = some .directory)
    (missing : files.at? (step place name) ≠ some .directory) :
    step place name = place ++ [name] ∧ name ≠ ".." := by
  -- The step up from a directory leads to a directory, so what is missing is below.
  unfold step at missing ⊢
  by_cases up : name = ".."
  · rw [up, beq_self_eq_true, if_pos rfl] at missing
    exact absurd (tree.dropLast passed) missing
  · rw [if_neg fun equal => up (beq_iff_eq.1 equal)]
    exact ⟨rfl, up⟩

section Following

variable {files after : Files}

/-- To follow names in two parts is to follow the first part and go on from there. -/
theorem follow_append (files : Files) (start : Place) (front back : List String) :
    files.follow start (front ++ back) = (files.follow start front).bind fun place =>
      files.follow place back := by
  -- Along the first part; a way that ends early ends before the second part begins.
  induction front generalizing start with
  | nil => rfl
  | cons name front ih =>
    rw [List.cons_append, follow, follow]
    cases files.at? start with
    | none => rfl
    | some entry =>
      cases entry with
      | file bytes => rfl
      | directory => exact ih _

/-- A path that can be followed can still be followed where no directory is lost. -/
theorem follow_mono
    (kept : ∀ place, files.at? place = some .directory → after.at? place = some .directory)
    {start place : Place} {names : List String} (followed : files.follow start names = .ok place) :
    after.follow start names = .ok place := by
  -- Each name on the way is left from a directory, and all of them are still there.
  induction names generalizing start with
  | nil => exact followed
  | cons name names ih =>
    unfold follow at followed ⊢
    cases there : files.at? start with
    | none =>
      rw [there] at followed
      cases followed
    | some entry =>
      rw [there] at followed
      cases entry with
      | file bytes => cases followed
      | directory =>
        rw [kept start there]
        exact ih followed

/-- A path that can be followed can still be followed where all directories are kept. -/
theorem locate_mono (start : after.workingDirectory = files.workingDirectory)
    (kept : ∀ place, files.at? place = some .directory → after.at? place = some .directory)
    {path : Path} {place : Place} (located : files.locate path = .ok place) :
    after.locate path = .ok place := by
  -- The way begins at the same place, so only the names along it are followed again.
  unfold locate anchorPlace at located ⊢
  rw [start]
  split at located
  · rename_i followed
    rw [follow_mono kept followed]
    exact located
  · cases located

/-- What is found at the end of a path that has a name lies one step behind a directory. -/
theorem exists_step_of_locate {path : Path} {place : Place}
    (located : files.locate path = .ok place) (named : path.parts ≠ []) :
    ∃ above, files.at? above = some .directory ∧ place = step above path.name := by
  obtain ⟨front, last, split⟩ := (List.eq_nil_or_concat path.parts).resolve_left named
  rw [List.concat_eq_append] at split
  unfold locate at located
  rw [split, follow_append] at located
  have isName : path.name = last := by
    unfold Path.name
    rw [split, List.getLast?_concat]
    rfl
  cases followed : files.follow (files.anchorPlace path) front with
  | error kind =>
    rw [followed] at located
    cases located
  | ok above =>
    -- The last name can only be followed from a directory.
    rw [followed] at located
    dsimp only [Except.bind] at located
    refine ⟨above, ?_⟩
    cases there : files.at? above with
    | none =>
      rw [follow, there] at located
      cases located
    | some entry =>
      cases entry with
      | file bytes =>
        rw [follow, there] at located
        cases located
      | directory =>
        rw [follow, there] at located
        cases located
        rw [isName]
        exact ⟨rfl, rfl⟩

end Following

/-- In a tree one gets to all that is there by following its names. -/
theorem IsTree.follow {files : Files} (tree : files.IsTree) {place : Place} {names : List String}
    {entry : Entry} (present : files.at? (place ++ names) = some entry) :
    files.follow place names = .ok (place ++ names) := by
  -- From the last name back: what is above something is a directory, and from a directory the next
  -- name can be followed.
  induction names using List.reverseRecOn generalizing entry with
  | nil => rw [List.append_nil, Files.follow]
  | append_singleton front last ih =>
    rw [← List.append_assoc] at present ⊢
    have above := tree.inside _ _ _ present
    rw [follow_append, ih above]
    dsimp only [Except.bind]
    rw [Files.follow, above]
    dsimp only
    rw [Files.follow, step, if_neg fun up => tree.proper _ _ _ present (beq_iff_eq.1 up)]

/-- A file below a directory is read by its names behind the path of the directory. -/
theorem IsTree.read_descend {files : Files} (tree : files.IsTree) {root : Path} {top : Place}
    {names : List String} {bytes : List UInt8} (located : files.locate root = .ok top)
    (isFile : files.at? (top ++ names) = some (.file bytes)) :
    files.read (root.descend names) = .ok bytes := by
  -- The path of the directory leads to the directory, and its names lead on to the file.
  have found : files.locate (root.descend names) = .ok (top ++ names) := by
    unfold locate at located ⊢
    split at located
    · rename_i followed
      cases located
      unfold Path.descend
      dsimp only
      rw [follow_append]
      have same : files.anchorPlace { root with parts := root.parts ++ names } =
        files.anchorPlace root := rfl
      rw [same, followed]
      dsimp only [Except.bind]
      rw [tree.follow isFile]
    · cases located
  unfold read
  rw [found]
  dsimp only [bind, Except.bind]
  rw [isFile]
  rfl

/-- A path leads to a directory exactly if it can be followed and a directory is there. -/
theorem isDirectory_iff {files : Files} {path : Path} :
    files.isDirectory path = true ↔ ∃ place, files.locate path = .ok place ∧
      files.at? place = some .directory := by
  unfold isDirectory lookup
  rw [beq_iff_eq]
  cases files.locate path with
  | error fault => simp
  | ok place => simp

/-- In a tree, only below a directory is there a place at which nothing is. -/
theorem IsTree.exists_child {files : Files} (tree : files.IsTree) {path : Path} {place : Place}
    (located : files.locate path = .ok place) (missing : files.at? place ≠ some .directory) :
    ∃ above, files.at? above = some .directory ∧ place = above ++
      [path.name] ∧ path.name ≠ ".." := by
  by_cases named : path.parts = []
  · -- A path without names leads to where it begins, and that is a directory.
    unfold locate at located
    rw [named] at located
    cases located
    refine absurd ?_ missing
    unfold anchorPlace
    split
    · rfl
    · exact tree.start
  · obtain ⟨above, passed, rfl⟩ := exists_step_of_locate located named
    obtain ⟨below, proper⟩ := tree.step_of_missing passed missing
    exact ⟨above, passed, below, proper⟩

/-- A tree with something put into a directory of it, where no directory was, is a tree. -/
theorem IsTree.put {files : Files} (tree : files.IsTree) {above : Place} {name : String}
    (entry : Entry) (passed : files.at? above = some .directory) (proper : name ≠ "..")
    (missing : files.at? (above ++ [name]) ≠ some .directory) :
    (files.put (above ++ [name]) entry).IsTree := by
  have below : above ++ [name] ≠ [] :=
    List.append_ne_nil_of_right_ne_nil above (List.cons_ne_nil name [])
  have kept : ∀ place, files.at? place = some .directory →
      (files.put (above ++ [name]) entry).at? place = some .directory := by
    intro place present
    have apart : place ≠ above ++ [name] := by
      rintro rfl
      exact missing present
    rw [at?_put files below, if_neg apart, present]
  -- Only one place is new, and it lies in a directory under a name that leads down.
  refine ⟨?_, ?_, ?_⟩
  · intro place other content present
    rw [at?_put files below] at present
    split at present
    · rename_i same
      rw [(List.append_inj' same rfl).1]
      exact kept above passed
    · exact kept place (tree.inside place other content present)
  · intro place other content present
    rw [at?_put files below] at present
    split at present
    · rename_i same
      rw [List.singleton_inj.1 (List.append_inj' same rfl).2]
      exact proper
    · exact tree.proper place other content present
  · exact kept _ tree.start

section Directories

variable {files made changed : Files} {path : Path} {anchor : Anchor} {names : List String}

/-- A directory is made in a tree at a place where nothing is. -/
theorem makeDirectory_eq_ok (done : files.makeDirectory path = .ok made) :
    ∃ place, files.locate path = .ok place ∧ files.at? place = none ∧
      made = files.put place .directory := by
  -- Either of the two checks before it would have ended the making with a fault.
  unfold makeDirectory at done
  cases located : files.locate path with
  | error fault =>
    rw [located] at done
    cases done
  | ok place =>
    rw [located] at done
    dsimp only [bind, Except.bind] at done
    cases there : files.at? place with
    | some entry =>
      rw [there] at done
      cases done
    | none =>
      rw [there] at done
      cases done
      exact ⟨place, rfl, there, rfl⟩

/-- A directory that is made keeps the tree a tree. -/
theorem IsTree.makeDirectory (tree : files.IsTree) (done : files.makeDirectory path = .ok made) :
    made.IsTree := by
  -- What was missing lies in a directory, since its path could be followed.
  obtain ⟨place, located, missing, rfl⟩ := makeDirectory_eq_ok done
  have noDirectory : files.at? place ≠ some .directory := by
    rw [missing]
    exact fun same => (by cases same)
  obtain ⟨above, passed, rfl, proper⟩ := tree.exists_child located noDirectory
  exact tree.put .directory passed proper noDirectory

/-- A directory that was made is there. -/
theorem isDirectory_of_makeDirectory (done : files.makeDirectory path = .ok made) :
    made.isDirectory path = true := by
  have grows := grows_of_makeDirectory done
  obtain ⟨place, located, missing, rfl⟩ := makeDirectory_eq_ok done
  have below : place ≠ [] := by
    rintro rfl
    cases missing
  refine isDirectory_iff.2 ⟨place,
    locate_mono grows.start (fun other => grows.kept other _) located, ?_⟩
  rw [at?_put files below, if_pos rfl]

/-- A directory that is there cannot be made, since it exists. -/
theorem makeDirectory_of_isDirectory (present : files.isDirectory path = true) :
    files.makeDirectory path = .error ⟨.exists, path⟩ := by
  obtain ⟨place, located, there⟩ := isDirectory_iff.1 present
  unfold Files.makeDirectory
  rw [located]
  dsimp only [bind, Except.bind]
  rw [there]

/-- A directory that is made if it is missing keeps the tree a tree, and is there. -/
theorem ensureDirectory_keeps (tree : files.IsTree)
    (done : files.ensureDirectory path = (none, changed)) :
    changed.IsTree ∧ changed.isDirectory path = true := by
  -- A failure is forgiven only where the directory is already there.
  unfold ensureDirectory at done
  cases made : files.makeDirectory path with
  | ok after =>
    rw [made] at done
    cases done
    exact ⟨tree.makeDirectory made, isDirectory_of_makeDirectory made⟩
  | error fault =>
    rw [made] at done
    dsimp only at done
    split at done
    · cases done
      exact ⟨tree, ‹_›⟩
    · cases done

/-- Where a directory is asked for with all above it, it is there in the end. -/
theorem ensureDirectoriesUp_keeps (tree : files.IsTree)
    (done : ensureDirectoriesUp anchor files names = (none, changed)) :
    changed.IsTree ∧ changed.isDirectory ⟨anchor, names.reverse⟩ = true := by
  induction names generalizing changed with
  | nil => exact ensureDirectory_keeps tree done
  | cons name above ih =>
    unfold ensureDirectoriesUp at done
    dsimp only at done
    cases made : files.makeDirectory ⟨anchor, (name :: above).reverse⟩ with
    | ok after =>
      rw [made] at done
      cases done
      exact ⟨tree.makeDirectory made, isDirectory_of_makeDirectory made⟩
    | error fault =>
      rw [made] at done
      dsimp only at done
      split at done
      · -- The directories above were made first, and this one then in the tree that has them.
        generalize ensureDirectoriesUp anchor files above = result at ih done
        obtain ⟨deeper, between⟩ := result
        cases deeper with
        | some fault => cases done
        | none => exact ensureDirectory_keeps (ih rfl).1 done
      · split at done
        · cases done
          exact ⟨tree, ‹_›⟩
        · cases done

/-- All directories of a path that are made if they are missing keep the tree a tree, and the last
is there. -/
theorem ensureDirectories_keeps (tree : files.IsTree)
    (done : files.ensureDirectories path = (none, changed)) :
    changed.IsTree ∧ changed.isDirectory path = true := by
  -- The names are given from the last to the first, which is undone twice.
  have kept := ensureDirectoriesUp_keeps tree done
  rw [List.reverse_reverse] at kept
  exact kept

/-- Nothing is to be done for a directory that is there. -/
theorem ensureDirectories_of_isDirectory (present : files.isDirectory path = true) :
    files.ensureDirectories path = (none, files) := by
  obtain ⟨anchor, parts⟩ := path
  have exists_ := makeDirectory_of_isDirectory present
  unfold ensureDirectories
  -- The attempt to make the last directory finds it, so none above it is tried.
  rcases List.eq_nil_or_concat parts with rfl | ⟨front, last, rfl⟩
  · rw [List.reverse_nil, ensureDirectoriesUp, ensureDirectory, exists_]
    exact if_pos present
  · rw [List.concat_eq_append] at exists_ present ⊢
    rw [List.reverse_concat, ensureDirectoriesUp, List.reverse_cons, List.reverse_reverse]
    dsimp only
    rw [exists_]
    exact (if_neg Bool.false_ne_true).trans (if_pos present)

end Directories

/-- A path that leads to a file in a directory. -/
structure LeadsToFile (files : Files) (path : Path) (place : Place) : Prop where
  directory : files.isDirectory path.parent = true
  located : files.locate path = .ok place
  file : ∃ bytes, files.at? place = some (.file bytes)

section Writing

variable {files after : Files} {path : Path} {place : Place} {bytes : List UInt8}

/-- What writing a file to a tree makes: a tree in which the path leads to the file, at a place of
the path's name. -/
structure Filed (files after : Files) (path : Path) (bytes : List UInt8) : Prop where
  tree : after.IsTree
  leads : LeadsToFile after path (files.resolve path)
  wrote : Wrote files after [(files.resolve path, bytes)]
  named : ∃ above, files.resolve path = above ++ [path.name]

/-- The file itself is the only thing that is put into the tree once the directories are there. -/
theorem write_eq_ok (done : files.write path bytes = .ok after) :
    ∃ place, files.locate path = .ok place ∧ files.at? place ≠ some .directory ∧
      after = files.put place (.file bytes) := by
  -- Neither of the two faults has ended the writing.
  unfold write at done
  cases located : files.locate path with
  | error fault =>
    rw [located] at done
    cases done
  | ok place =>
    rw [located] at done
    dsimp only [bind, Except.bind] at done
    split at done
    · cases done
    · rename_i noDirectory
      cases done
      exact ⟨place, rfl, noDirectory, rfl⟩

/-- A file that is written with its parents is filed. -/
theorem filed_of_writeWithParents (tree : files.IsTree)
    (done : files.writeWithParents path bytes = (none, after)) :
    Filed files after path bytes := by
  have wrote := wrote_of_writeWithParents done
  unfold writeWithParents at done
  cases ensured : files.ensureDirectories path.parent with
  | mk fault changed =>
    rw [ensured] at done
    cases fault with
    | some fault => cases done
    | none =>
      obtain ⟨treeOfChanged, directory⟩ := ensureDirectories_keeps tree ensured
      dsimp only at done
      cases written : changed.write path bytes with
      | error fault =>
        rw [written] at done
        cases done
      | ok other =>
        rw [written] at done
        cases done
        have more := wrote_of_write written
        obtain ⟨place, located, noDirectory, rfl⟩ := write_eq_ok written
        have here : place = files.resolve path := by
          have grows := grows_ensureDirectoriesUp path.parent.anchor files path.parent.parts.reverse
          rw [← ensureDirectories, ensured] at grows
          exact (locate_eq_ok located).trans (grows.resolve path)
        subst here
        obtain ⟨above, passed, named, proper⟩ := treeOfChanged.exists_child located noDirectory
        -- The file takes the place of no directory, so all that led to it still does.
        refine ⟨?_, ⟨?_, ?_, bytes, ?_⟩, wrote, above, named⟩
        · rw [named] at noDirectory ⊢
          exact treeOfChanged.put (.file bytes) passed proper noDirectory
        · obtain ⟨parent, found, isDirectory⟩ := isDirectory_iff.1 directory
          exact isDirectory_iff.2 ⟨parent, locate_mono more.start more.directories found,
            more.directories _ isDirectory⟩
        · exact locate_mono more.start more.directories located
        · rw [at?_put changed (ne_nil_of_at? noDirectory), if_pos rfl]

/-- A path still leads to a file after other files were written. -/
theorem LeadsToFile.mono {written : List (Place × List UInt8)}
    (leads : LeadsToFile files path place) (wrote : Wrote files after written) :
    LeadsToFile after path place := by
  obtain ⟨directory, located, bytes, isFile⟩ := leads
  obtain ⟨parent, found, isDirectory⟩ := isDirectory_iff.1 directory
  refine ⟨isDirectory_iff.2 ⟨parent, ?_, wrote.directories _ isDirectory⟩, ?_, ?_⟩
  · exact locate_mono wrote.start wrote.directories found
  · exact locate_mono wrote.start wrote.directories located
  · -- Some bytes are there, be it the old ones or those that were written last.
    have now := wrote.bytes place
    rw [bytesAt?_eq_some_iff.2 isFile, Option.or_some] at now
    exact ⟨_, bytesAt?_eq_some_iff.1 now⟩

/-- Writing to a path that leads to a file replaces the bytes of that file and does nothing else. -/
theorem LeadsToFile.writeWithParents (leads : LeadsToFile files path place) (bytes : List UInt8) :
    files.writeWithParents path bytes = (none, files.put place (.file bytes)) := by
  -- The directory above is there, so nothing has to be made before the file is put.
  obtain ⟨directory, located, old, isFile⟩ := leads
  unfold Files.writeWithParents write
  rw [ensureDirectories_of_isDirectory directory]
  dsimp only
  rw [located]
  dsimp only [bind, Except.bind]
  rw [isFile]
  rfl

/-- Writing the bytes that a file has changes nothing. -/
theorem put_of_bytesAt? (present : files.bytesAt? place = some bytes) :
    files.put place (.file bytes) = files := by
  rw [bytesAt?_eq_some_iff] at present
  -- At the root there is no file, so what is there is what the table has.
  have below : place ≠ [] := by
    rintro rfl
    cases present
  obtain ⟨name, names, rfl⟩ := List.exists_cons_of_ne_nil below
  unfold put
  rw [Table.put_of_get? present]

/-- Of two entries put at one place only the second one counts. -/
theorem put_put (files : Files) (place : Place) (first second : Entry) :
    (files.put place first).put place second = files.put place second := by
  unfold put
  dsimp only
  rw [Table.put_put]

end Writing

end Files

end Lineage
