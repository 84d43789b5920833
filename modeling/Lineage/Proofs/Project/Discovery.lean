import Lineage.Project.Discovery
import Mathlib.Data.List.Nodup
import Mathlib.Data.List.Sort
import Mathlib.Data.String.Basic

/-! The sources of a project are found exactly and in order, whatever the order in which directories
are listed. -/

namespace Lineage

/-- What is under a name is what is listed with it. -/
theorem Table.get?_eq_some_iff {κ α : Type} [DecidableEq κ] {table : Table κ α} {name : κ}
    {value : α} :
    table.get? name = some value ↔ (name, value) ∈ table.entries := by
  refine ⟨fun present => ?_, table.get?_of_mem⟩
  obtain ⟨before, behind, split, _⟩ := List.lookup_eq_some_iff.mp present
  rw [split]
  simp

namespace Files

/-- Below the root there is what the table lists. -/
theorem at?_child {files : Files} {place : Place} {name : String} {entry : Entry} :
    files.at? (place ++ [name]) = some entry ↔ (place ++ [name], entry) ∈ files.table.entries := by
  simp [at?, Table.get?_eq_some_iff]

/-- A name is listed in a directory exactly if there is something of the kind asked for under that
name. -/
theorem mem_namesIn {files : Files} {directory : Place} {p : Entry → Bool} {name : String} :
    name ∈ files.namesIn directory p ↔ files.at? directory = some .directory ∧
      ∃ entry, files.at? (directory ++ [name]) = some entry ∧ p entry = true := by
  unfold namesIn
  by_cases isDirectory : files.at? directory = some .directory
  · simp only [isDirectory, beq_self_eq_true, if_true, List.mem_filterMap, List.mem_filter,
      true_and, at?_child, nameIn?_eq_some_iff]
    constructor
    · rintro ⟨⟨place, entry⟩, ⟨listed, asked⟩, rfl⟩
      exact ⟨entry, listed, asked⟩
    · rintro ⟨entry, listed, asked⟩
      exact ⟨(directory ++ [name], entry), ⟨listed, asked⟩, rfl⟩
  · simp [isDirectory]

/-- No name is listed twice. -/
theorem nodup_namesIn (files : Files) (directory : Place) (p : Entry → Bool) :
    (files.namesIn directory p).Nodup := by
  unfold namesIn
  split
  · -- Two entries with one name in one directory would have one place.
    have distinct : files.table.entries.Pairwise fun one other => one.1 ≠ other.1 :=
      List.pairwise_map.mp files.table.distinct
    refine (distinct.filter _).filterMap _
      fun one other apart name named name' named' same => apart ?_
    rw [nameIn?_eq_some_iff.mp named, nameIn?_eq_some_iff.mp named', same]
  · exact List.nodup_nil

/-- The files in a directory are its names with contents. -/
theorem mem_filesIn {files : Files} {directory : Place} {name : String} :
    name ∈ files.filesIn directory ↔ files.at? directory = some .directory ∧
      ∃ bytes, files.at? (directory ++ [name]) = some (.file bytes) := by
  rw [filesIn, mem_namesIn]
  refine and_congr_right fun _ => ⟨?_, fun ⟨bytes, isFile⟩ => ⟨_, isFile, rfl⟩⟩
  rintro ⟨entry, present, isFile⟩
  cases entry with
  | directory => cases isFile
  | file bytes => exact ⟨bytes, present⟩

/-- The directories in a directory are its names without contents. -/
theorem mem_directoriesIn {files : Files} {directory : Place} {name : String} :
    name ∈ files.directoriesIn directory ↔ files.at? directory = some .directory ∧
      files.at? (directory ++ [name]) = some .directory := by
  rw [directoriesIn, mem_namesIn]
  refine and_congr_right fun _ => ⟨?_, fun isDirectory => ⟨_, isDirectory, rfl⟩⟩
  rintro ⟨entry, present, isDirectory⟩
  cases entry with
  | directory => exact present
  | file bytes => cases isDirectory

end Files

namespace Project

open Lineage.Files Lineage.Settings

/-- What a way of names has to be that leads from a directory to a Java source: it goes through
directories, of which none below the first has a skipped name, and ends at a file whose name ends as
that of a source does. -/
structure LeadsToSource (files : Files) (skipped : List String) (directory : Place)
    (names : List String) : Prop where
  way : ∀ count < names.length, files.at? (directory ++ names.take count) = some .directory
  entered : ∀ name ∈ names.dropLast, name ∉ skipped
  file : ∃ bytes, files.at? (directory ++ names) = some (.file bytes)
  ending : ∃ stem, names.getLast? = some (stem ++ ".java") ∧ stem ++ ".java" ∉ skippedFiles

/-- A name ends with a text exactly if the text can be split off. -/
theorem endsWith_iff {name ending : String} :
    name.endsWith ending = true ↔ ∃ stem, name = stem ++ ending := by
  rw [String.endsWith, String.Slice.endsWith_string_iff, String.copy_toSlice]
  constructor
  · rintro ⟨stem, whole⟩
    exact ⟨String.ofList stem, by
      rw [← String.toList_inj, String.toList_append, String.toList_ofList, whole]⟩
  · rintro ⟨stem, rfl⟩
    exact ⟨stem.toList, (String.toList_append ..).symm⟩

/-- A name is that of a source exactly if it has the ending and is not one of those skipped. -/
theorem isSourceName_iff {name : String} :
    isSourceName name = true ↔ ∃ stem, name = stem ++ ".java" ∧ stem ++ ".java" ∉ skippedFiles := by
  rw [isSourceName, Bool.and_eq_true, endsWith_iff, Bool.not_eq_true', List.contains_eq_mem,
    decide_eq_false_iff_not]
  constructor
  · rintro ⟨⟨stem, rfl⟩, kept⟩
    exact ⟨stem, rfl, kept⟩
  · rintro ⟨stem, rfl, kept⟩
    exact ⟨⟨stem, rfl⟩, kept⟩

section Walk

variable {files : Files} {skipped : List String} {directory : Place} {name : String}
  {names : List String}

theorem not_leadsToSource_nil : ¬ LeadsToSource files skipped directory [] := by
  intro leads
  obtain ⟨stem, last, _⟩ := leads.ending
  cases last

/-- A way of one name ends in the directory itself. -/
theorem leadsToSource_singleton :
    LeadsToSource files skipped directory [name] ↔ name ∈ files.filesIn directory ∧
      isSourceName name = true := by
  rw [mem_filesIn, isSourceName_iff]
  constructor
  · intro leads
    obtain ⟨stem, last, kept⟩ := leads.ending
    exact ⟨⟨by simpa using leads.way 0 (by simp), leads.file⟩, stem, by simpa using last, kept⟩
  · rintro ⟨⟨isDirectory, isFile⟩, stem, rfl, kept⟩
    refine ⟨fun count short => ?_, by simp, isFile, stem, rfl, kept⟩
    have : count = 0 := by simpa using short
    subst this
    simpa using isDirectory

/-- A longer way goes on in a directory that may be entered. -/
theorem leadsToSource_cons (more : names ≠ []) :
    LeadsToSource files skipped directory (name :: names) ↔
      name ∈ files.directoriesIn directory ∧ name ∉ skipped ∧ LeadsToSource files skipped
        (directory ++ [name]) names := by
  rw [mem_directoriesIn]
  have last : (name :: names).getLast? = names.getLast? := by
    obtain ⟨next, rest, rfl⟩ := List.exists_cons_of_ne_nil more
    exact List.getLast?_cons_cons
  constructor
  · intro leads
    -- The first place on the way is the directory at hand, the second one the directory that is
    -- entered.
    have first := leads.way 0 (by simp)
    have second := leads.way 1 (by simpa using List.length_pos_iff.mpr more)
    have entered := leads.entered
    rw [List.dropLast_cons_of_ne_nil more, List.forall_mem_cons] at entered
    refine ⟨⟨by simpa using first, by simpa using second⟩, entered.1, ?_, entered.2, ?_, ?_⟩
    · intro count short
      simpa using leads.way (count + 1) (by simpa using short)
    · simpa using leads.file
    · rw [← last]
      exact leads.ending
  · rintro ⟨⟨isDirectory, _⟩, allowed, leads⟩
    refine ⟨?_, ?_, ?_, ?_⟩
    · -- Beyond the directory at hand the way is the one that leads on from the directory that is
      -- entered.
      rintro (_ | count) short
      · simpa using isDirectory
      · simpa using leads.way count (by simpa using short)
    · rw [List.dropLast_cons_of_ne_nil more, List.forall_mem_cons]
      exact ⟨allowed, leads.entered⟩
    · simpa using leads.file
    · rw [last]
      exact leads.ending

/-- The walk without the proofs that it ends. -/
theorem sourcesBelow_eq (files : Files) (skipped : List String) (directory : Place) :
    sourcesBelow files skipped directory =
      ((files.filesIn directory).filter isSourceName).map ([·]) ++
        ((files.directoriesIn directory).filter fun name => !skipped.contains name).flatMap
          fun name => (sourcesBelow files skipped (directory ++ [name])).map (name :: ·) := by
  -- The bound on the depth is dropped from the recursion.
  rw [sourcesBelow]
  congr 1
  rw [List.flatMap_def, List.flatMap_def]
  congr 1
  exact List.attach_map_val (f := fun name =>
    (sourcesBelow files skipped (directory ++ [name])).map (name :: ·))

/-- A name alone is a file in the directory, and a name before others is a directory that is
entered. -/
theorem cons_mem_sourcesBelow :
    name :: names ∈ sourcesBelow files skipped directory ↔
      (names = [] ∧ name ∈ files.filesIn directory ∧ isSourceName name = true) ∨
      (name ∈ files.directoriesIn directory ∧ name ∉ skipped ∧
        names ∈ sourcesBelow files skipped (directory ++ [name])) := by
  -- The source lies in the directory itself, or below one of its directories.
  rw [sourcesBelow_eq, List.mem_append]
  refine or_congr ?_ ?_
  · simp only [List.mem_map, List.mem_filter, List.cons.injEq]
    constructor
    · rintro ⟨found, ⟨isFile, isSource⟩, rfl, rfl⟩
      exact ⟨rfl, isFile, isSource⟩
    · rintro ⟨rfl, isFile, isSource⟩
      exact ⟨name, ⟨isFile, isSource⟩, rfl, rfl⟩
  · simp only [List.mem_flatMap, List.mem_map, List.mem_filter, List.cons.injEq, Bool.not_eq_true',
      List.contains_eq_mem, decide_eq_false_iff_not]
    constructor
    · rintro ⟨entered, ⟨isDirectory, allowed⟩, more, found, rfl, rfl⟩
      exact ⟨isDirectory, allowed, found⟩
    · rintro ⟨isDirectory, allowed, found⟩
      exact ⟨name, ⟨isDirectory, allowed⟩, names, found, rfl, rfl⟩

/-- The walk finds exactly the ways that lead to sources. -/
theorem mem_sourcesBelow :
    names ∈ sourcesBelow files skipped directory ↔ LeadsToSource files skipped directory names := by
  -- Along the way: its first name is the one that the walk takes in the directory at hand.
  induction names generalizing directory with
  | nil =>
    refine ⟨fun found => ?_, fun leads => absurd leads not_leadsToSource_nil⟩
    rw [sourcesBelow_eq] at found
    simp at found
  | cons name names ih =>
    rw [cons_mem_sourcesBelow]
    -- The name stands for a file if it is the last one, and for a directory otherwise.
    by_cases last : names = []
    · subst last
      rw [leadsToSource_singleton, ih]
      simp [not_leadsToSource_nil]
    · rw [leadsToSource_cons last, ih]
      simp [last]

/-- The walk finds nothing twice. -/
theorem nodup_sourcesBelow (files : Files) (skipped : List String) (directory : Place) :
    (sourcesBelow files skipped directory).Nodup := by
  induction directory using sourcesBelow.induct files skipped with
  | case1 directory entered ih =>
    rw [sourcesBelow_eq, List.nodup_append]
    have once : entered.Nodup := (nodup_namesIn files directory _).filter _
    refine ⟨?_, List.nodup_flatMap.mpr ⟨fun name inside => ?_, ?_⟩, ?_⟩
    · -- The directory lists no file twice.
      exact ((nodup_namesIn files directory _).filter _).map fun one other same => by
        simpa using same
    · exact (ih ⟨name, inside⟩).map fun one other same => by simpa using same
    · -- What is found in different directories begins with different names.
      refine once.imp fun {one other} apart way inOne inOther => ?_
      obtain ⟨more, _, rfl⟩ := List.mem_map.mp inOne
      obtain ⟨more', _, same⟩ := List.mem_map.mp inOther
      exact apart (List.cons.inj same).1.symm
    · -- A way through a directory has more than one name.
      intro one isFile other inner same
      obtain ⟨name, _, rfl⟩ := List.mem_map.mp isFile
      obtain ⟨entered, _, deeper⟩ := List.mem_flatMap.mp inner
      obtain ⟨more, found, rfl⟩ := List.mem_map.mp deeper
      rw [← (List.cons.inj same).2] at found
      exact not_leadsToSource_nil (mem_sourcesBelow.mp found)

end Walk

/-- One path comes before another if its names come first, compared name by name and each by code
points. -/
def Before (one other : Path) : Prop :=
  one.sortKey < other.sortKey

/-- The order of keys is the order of lists. -/
theorem keyLe_iff (one other : List String) : Path.keyLe one other = true ↔ one ≤ other := by
  rw [← not_lt]
  fun_induction Path.keyLe one other with
  | case1 other => simp
  | case2 first more => simp
  | case3 first more second others ih =>
    rw [List.cons_lt_cons_iff]
    -- Only where the first names are the same do the others count.
    rcases lt_trichotomy first second with less | same | greater
    · simp [less, less.not_gt, less.ne']
    · simp [same, ih]
    · simp [greater, greater.not_gt, greater.ne']

/-- Sorting puts paths in the order of their names. -/
theorem pairwise_mergeSort_le (paths : List Path) :
    (paths.mergeSort Path.le).Pairwise fun one other => one.sortKey ≤ other.sortKey := by
  have sorted : (paths.mergeSort Path.le).Pairwise fun one other => Path.le one other = true := by
    refine List.pairwise_mergeSort (fun one middle other first second => ?_) (fun one other => ?_)
      paths
    · rw [Path.le, keyLe_iff] at first second ⊢
      exact first.trans second
    · rw [Bool.or_eq_true, Path.le, Path.le, keyLe_iff, keyLe_iff]
      exact le_total _ _
  exact sorted.imp fun {one other} ordered => (keyLe_iff _ _).mp ordered

theorem sortKey_descend (root : Path) (names : List String) :
    (root.descend names).sortKey = root.sortKey ++ names := by
  unfold Path.sortKey Path.descend
  cases root.anchor <;> rfl

/-- A path leads from a root to a source below it. -/
def IsSourceBelow (files : Files) (root : Path) (skipped : List String) (path : Path) : Prop :=
  ∃ directory names, files.locate root = .ok directory ∧ path = root.descend names ∧
    LeadsToSource files skipped directory names

/-- What the sources below a root have to be: they stand in order, each once, and nothing is missing
or too much. -/
structure Discovered (files : Files) (root : Path) (skipped : List String) (paths : List Path) :
    Prop where
  increasing : paths.Pairwise Before
  exact : ∀ path, path ∈ paths ↔ IsSourceBelow files root skipped path

/-- Sorting what the walk finds gives the sources below the root. -/
theorem Discovered.of_located {files : Files} {root : Path} {directory : Place}
    (located : files.locate root = .ok directory) (skipped : List String) :
    Discovered files root skipped
      (((sourcesBelow files skipped directory).map root.descend).mergeSort Path.le) := by
  constructor
  · -- Different ways from one root make paths with different keys.
    have apart : ((sourcesBelow files skipped directory).map root.descend).Pairwise fun one other =>
        one.sortKey ≠ other.sortKey := by
      refine List.pairwise_map.mpr
        ((nodup_sourcesBelow files skipped directory).imp fun {one other} different => ?_)
      rw [sortKey_descend, sortKey_descend]
      exact fun same => different (List.append_cancel_left same)
    have distinct :=
      (List.mergeSort_perm _ Path.le).symm.pairwise apart fun different => different.symm
    exact ((pairwise_mergeSort_le _).and distinct).imp fun both => lt_of_le_of_ne both.1 both.2
  · intro path
    simp only [List.mem_mergeSort, List.mem_map, mem_sourcesBelow]
    constructor
    · rintro ⟨names, leads, rfl⟩
      exact ⟨directory, names, located, rfl, leads⟩
    · rintro ⟨directory', names, located', rfl, leads⟩
      cases located.symm.trans located'
      exact ⟨names, leads, rfl⟩

/-- Whatever is excluded, only texts among it name directories, and an answer is what it has to
be. -/
theorem discovered_of_ok {files : Files} {root : Path} {exclude : List Value} {paths : List Path}
    (found : discover files root exclude = .ok paths) :
    Discovered files root (skippedDirectories ++ exclude.filterMap Value.text?) paths := by
  unfold discover at found
  cases hashable : unhashable? exclude with
  | some fault =>
    rw [hashable] at found
    cases found
  | none =>
    rw [hashable] at found
    dsimp only at found
    cases located : files.locate root with
    | error fault =>
      rw [located] at found
      cases found
      -- Nothing is below a root that is not there.
      refine ⟨List.Pairwise.nil, fun path => ⟨fun found => absurd found List.not_mem_nil, ?_⟩⟩
      rintro ⟨directory, _, there, _⟩
      cases located.symm.trans there
    | ok directory =>
      rw [located] at found
      cases found
      exact .of_located located _

/-- Discovery with texts to exclude always answers, and its answer is what it has to be. -/
theorem exists_discovered (files : Files) (root : Path) (exclude : List String) :
    ∃ paths, discover files root (exclude.map .text) = .ok paths ∧
      Discovered files root (skippedDirectories ++ exclude) paths := by
  -- Texts can be looked up, so the search always answers.
  have hashable : unhashable? (exclude.map .text) = none := by simp [unhashable?]
  have texts : (exclude.map Value.text).filterMap Value.text? = exclude := by
    simp [List.filterMap_map, Function.comp_def, Value.text?]
  have answered : ∃ paths, discover files root (exclude.map .text) = .ok paths := by
    unfold discover
    rw [hashable]
    cases files.locate root with
    | error fault => exact ⟨[], rfl⟩
    | ok directory => exact ⟨_, rfl⟩
  obtain ⟨paths, found⟩ := answered
  have discovered := discovered_of_ok found
  rw [texts] at discovered
  exact ⟨paths, found, discovered⟩

/-- In a directory without directories there are the sources that are directly in it. -/
theorem discover_of_flat {files : Files} {root : Path} {directory : Place} {name : String}
    (located : files.locate root = .ok directory) (flat : files.directoriesIn directory = [])
    (only : (files.filesIn directory).filter isSourceName = [name]) :
    discover files root [] = .ok [root.descend [name]] := by
  have below : sourcesBelow files skippedDirectories directory = [[name]] := by
    rw [sourcesBelow_eq, flat, only]
    rfl
  simp [discover, located, unhashable?, below]

/-- There is only one such list for a tree. -/
theorem Discovered.unique {files other : Files} {root : Path} {skipped : List String}
    {paths paths' : List Path} (discovered : Discovered files root skipped paths)
    (discovered' : Discovered other root skipped paths')
    (same : ∀ path, IsSourceBelow files root skipped path ↔ IsSourceBelow other root skipped path) :
    paths = paths' := by
  -- Both lists rise and have the same members.
  have irreflexive : Std.Irrefl Before := ⟨fun path => lt_irrefl path.sortKey⟩
  have antisymmetric : Std.Antisymm Before :=
    ⟨fun one other before behind => absurd behind before.not_gt⟩
  refine List.Pairwise.eq_of_mem_iff discovered.increasing discovered'.increasing fun path => ?_
  rw [discovered.exact, discovered'.exact, same]

section Relisted

variable {files other : Files}

/-- The order of the table does not matter for what is at a place. -/
theorem at?_of_perm (perm : other.table.entries.Perm files.table.entries) :
    other.at? = files.at? := by
  -- A place is found by its entry, wherever this stands in the table.
  funext place
  unfold at?
  split
  · rfl
  · refine Option.ext fun entry => ?_
    rw [Table.get?_eq_some_iff, Table.get?_eq_some_iff, perm.mem_iff]

/-- Where a path leads depends only on what is at the places along it. -/
theorem locate_congr (same : other.at? = files.at?)
    (start : other.workingDirectory = files.workingDirectory) (root : Path) :
    other.locate root = files.locate root := by
  -- Each step of the way looks at the same places.
  have follow : ∀ names place, other.follow place names = files.follow place names := by
    intro names
    induction names with
    | nil => exact fun place => rfl
    | cons name names ih =>
      intro place
      rw [Files.follow, Files.follow, same, ih]
  unfold locate anchorPlace
  rw [start, follow]

/-- Which paths lead to sources depends only on the tree. -/
theorem isSourceBelow_congr (same : other.at? = files.at?)
    (start : other.workingDirectory = files.workingDirectory) (root : Path) (skipped : List String)
    (path : Path) :
    IsSourceBelow other root skipped path ↔ IsSourceBelow files root skipped path := by
  -- The way, the names and the file are the same.
  have leads : ∀ directory names, LeadsToSource other skipped directory names ↔
      LeadsToSource files skipped directory names := by
    intro directory names
    constructor
    · rintro ⟨way, entered, file, ending⟩
      rw [same] at way file
      exact ⟨way, entered, file, ending⟩
    · rintro ⟨way, entered, file, ending⟩
      rw [← same] at way file
      exact ⟨way, entered, file, ending⟩
  unfold IsSourceBelow
  simp only [locate_congr same start, leads]

end Relisted

/-- For every tree, root and list of names to exclude, discovery gives the paths of exactly those
files below the root that end as Java sources do and are reached through no skipped directory, in
strictly increasing order; it gives the same if the entries of the tree are listed in any other
order. -/
theorem discover_exact (files : Files) (root : Path) (exclude : List String) :
    ∃ paths, discover files root (exclude.map .text) = .ok paths ∧ paths.Pairwise Before ∧
      (∀ path, path ∈ paths ↔ IsSourceBelow files root (skippedDirectories ++ exclude) path) ∧
      ∀ other : Files, other.workingDirectory = files.workingDirectory →
        other.table.entries.Perm files.table.entries → discover other root
          (exclude.map .text) = .ok paths := by
  -- The order of the table does not matter for what is found, nor for how it is sorted.
  obtain ⟨paths, found, discovered⟩ := exists_discovered files root exclude
  refine ⟨paths, found, discovered.increasing, discovered.exact, fun other start perm => ?_⟩
  obtain ⟨paths', found', discovered'⟩ := exists_discovered other root exclude
  rw [found', discovered'.unique discovered (isSourceBelow_congr (at?_of_perm perm) start root _)]

end Project

end Lineage
