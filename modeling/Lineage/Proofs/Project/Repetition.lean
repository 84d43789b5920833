import Lineage.Proofs.Files.Tree
import Lineage.Proofs.Java.Transparent
import Lineage.Proofs.Project.Discovery
import Lineage.Proofs.Project.Run

/-! Work that is done twice: what the first run writes changes nothing that the second run looks
at. -/

namespace Lineage.Project

open Lineage.Files Lineage.Settings

variable {request : Request} {project : Path} {graph : Graph}

/-- The page is written first and then the data, if that is asked for. -/
theorem attempt_outputs_iff {page : List Char} {files after : Files} :
    files.attempt (request.outputs project graph page) = (none, after) ↔ ∃ between,
      files.writeWithParents (request.page project) (Text.encode page) = (none, between) ∧
      match request.exportTo with
      | none => after = between
      | some path =>
        between.writeWithParents path (Text.encode (graph.written (formatFor path))) =
          (none, after) := by
  unfold Request.outputs
  cases written : files.writeWithParents (request.page project) (Text.encode page) with
  | mk fault between =>
    cases fault with
    | some fault => simp [attempt_cons_of_some written]
    | none =>
      rw [attempt_cons_of_none written]
      cases request.exportTo with
      | none => simp [attempt, eq_comm]
      | some path =>
        -- The attempt goes on with the data and has nothing left behind it.
        cases data : between.writeWithParents path
            (Text.encode (graph.written (formatFor path))) with
        | mk fault last =>
          cases fault with
          | some fault => simp [attempt_cons_of_some data, data]
          | none => simp [attempt_cons_of_none data, attempt, data]

/-- The work returns exactly if its first part finds something to deliver and the second part can
write it. -/
theorem returns_run_iff {survey : Survey} {desk : Desk} {tree : Files} :
    (∃ after, (run request).run.run desk = (.ok survey, after) ∧ after.files = tree) ↔
      prospect desk.files request = .ok survey ∧
        Deposits request (pathTo (desk.files.resolve request.project)) survey.graph desk.files
          tree := by
  -- The run does what the prospect says, and then it delivers.
  obtain ⟨noted, isNoted, done⟩ := run_run request desk
  rw [done]
  cases prospect desk.files request with
  | error stop =>
    refine ⟨?_, fun both => by cases both.1⟩
    rintro ⟨after, returned, _⟩
    cases returned
  | ok found =>
    dsimp only
    rw [returns_deliver_iff, isNoted.files, Except.ok.injEq]
    constructor
    · rintro ⟨rfl, deposits⟩
      exact ⟨rfl, deposits⟩
    · rintro ⟨rfl, deposits⟩
      exact ⟨rfl, deposits⟩

/-- What was written once is written again without any change. -/
theorem Deposits.again {files after : Files} (tree : files.IsTree)
    (deposits : Deposits request project graph files after) :
    Deposits request project graph after after := by
  obtain ⟨page, rendered, attempted, can⟩ := deposits
  obtain ⟨between, written, exporting⟩ := attempt_outputs_iff.mp attempted
  have first := filed_of_writeWithParents tree written
  cases exported : request.exportTo with
  | none =>
    rw [exported] at exporting
    subst exporting
    have present : after.bytesAt? (files.resolve (request.page project)) =
        some (Text.encode page) := by
      rw [first.wrote.bytes, List.reverse_singleton, List.lookup_cons_self]
      rfl
    refine ⟨page, rendered, attempt_outputs_iff.mpr ⟨after, ?_, by rw [exported]⟩, can⟩
    rw [first.leads.writeWithParents, put_of_bytesAt? present]
  | some path =>
    rw [exported] at exporting
    have second := filed_of_writeWithParents first.tree exporting
    -- The data is what was written last; the page is there too unless both have one place.
    have data : after.bytesAt? (between.resolve path) =
        some (Text.encode (graph.written (formatFor path))) := by
      rw [second.wrote.bytes, List.reverse_singleton, List.lookup_cons_self]
      rfl
    have again := (first.leads.mono second.wrote).writeWithParents (Text.encode page)
    have leads := second.leads.mono (wrote_of_writeWithParents again)
    refine ⟨page, rendered, attempt_outputs_iff.mpr ⟨_, again, ?_⟩, can⟩
    rw [exported]
    dsimp only
    rw [leads.writeWithParents]
    by_cases same : files.resolve (request.page project) = between.resolve path
    · rw [same, put_put, put_of_bytesAt? data]
    · have kept : after.bytesAt? (files.resolve (request.page project)) =
          some (Text.encode page) := by
        rw [second.wrote.bytes, first.wrote.bytes, List.reverse_singleton, List.reverse_singleton,
          List.lookup_cons_self, List.lookup_cons, beq_false_of_ne same]
        rfl
      rw [put_of_bytesAt? kept, put_of_bytesAt? data]

/-- A survey depends on nothing but the texts of its sources. -/
theorem value_survey_congr {files after : Files} (config : Config) {paths : List Path}
    (same : ∀ path ∈ paths, sourceText? after path = sourceText? files path) :
    (survey after config paths).value = (survey files config paths).value := by
  -- Which sources can be read, what they declare and which fail: each part is drawn from the texts
  -- alone.
  have among : ∀ path ∈ sourcesAmong paths, sourceText? after path = sourceText? files path :=
    fun path selected => same path (List.mem_filter.1 selected).1
  have readable : readableAmong after paths = readableAmong files paths :=
    List.filter_congr fun path selected => by rw [among path selected]
  have declared : declarationsAmong after config paths = declarationsAmong files config paths := by
    unfold declarationsAmong
    rw [readable]
    refine List.flatMap_congr fun path selected => ?_
    unfold declarationsAt
    rw [among path (List.mem_filter.1 selected).1]
  have failed : ((sourcesAmong paths).filter fun path => (sourceText? after path).isNone) =
      (sourcesAmong paths).filter fun path => (sourceText? files path).isNone :=
    List.filter_congr fun path selected => by rw [among path selected]
  rw [value_survey, value_survey, declared, failed]

/-- What a later run looks at is as it was: directories are not lost, and the files whose names end
as those of Java sources do are the same. -/
structure Undisturbed (files after : Files) : Prop where
  start : after.workingDirectory = files.workingDirectory
  tree : after.IsTree
  directories : ∀ place, files.at? place = some .directory → after.at? place = some .directory
  sources : ∀ above stem,
    after.bytesAt? (above ++ [stem ++ ".java"]) = files.bytesAt? (above ++ [stem ++ ".java"])

/-- What is not disturbed twice is not disturbed. -/
theorem Undisturbed.trans {first second third : Files} (one : Undisturbed first second)
    (other : Undisturbed second third) : Undisturbed first third := by
  refine ⟨other.start.trans one.start, other.tree, ?_, ?_⟩
  · intro place present
    exact other.directories place (one.directories place present)
  · intro above stem
    exact (other.sources above stem).trans (one.sources above stem)

/-- One file is written, and its name is not that of a source. -/
theorem undisturbed_of_filed {files after : Files} {path : Path} {bytes : List UInt8}
    (filed : Filed files after path bytes) (other : path.name.endsWith ".java" = false) :
    Undisturbed files after := by
  obtain ⟨tree, _, wrote, above, named⟩ := filed
  refine ⟨wrote.start, tree, wrote.directories, fun directory stem => ?_⟩
  -- The one place that changes has the name of the path, and no source has that name.
  have apart : directory ++ [stem ++ ".java"] ≠ files.resolve path := by
    intro same
    rw [named] at same
    have ending := List.singleton_inj.1 (List.append_inj' same rfl).2
    rw [← ending, endsWith_iff.2 ⟨stem, rfl⟩] at other
    cases other
  rw [wrote.bytes, List.reverse_singleton, List.lookup_cons, beq_false_of_ne apart]
  rfl

namespace Undisturbed

variable {files after : Files} {skipped : List String} {directory : Place} {names : List String}

theorem resolve (undisturbed : Undisturbed files after) (path : Path) :
    after.resolve path = files.resolve path := by
  unfold Files.resolve anchorPlace
  rw [undisturbed.start]

/-- A source is there exactly if it was. -/
theorem isFile_iff (undisturbed : Undisturbed files after) {stem : String} {bytes : List UInt8}
    (last : names.getLast? = some (stem ++ ".java")) :
    after.at? (directory ++ names) = some (.file bytes) ↔ files.at? (directory ++ names) = some
      (.file bytes) := by
  obtain ⟨front, rfl⟩ := List.getLast?_eq_some_iff.1 last
  rw [← List.append_assoc, ← bytesAt?_eq_some_iff, ← bytesAt?_eq_some_iff, undisturbed.sources]

/-- The same ways lead to sources, since in a tree a source has directories all the way to it. -/
theorem leadsToSource_iff (undisturbed : Undisturbed files after) (tree : files.IsTree) :
    LeadsToSource after skipped directory names ↔ LeadsToSource files skipped directory names := by
  -- The way to a source is there in every tree that has the source.
  constructor
  · rintro ⟨_, entered, ⟨bytes, isFile⟩, stem, last, kept⟩
    have before := (undisturbed.isFile_iff last).1 isFile
    exact ⟨tree.way before, entered, ⟨bytes, before⟩, stem, last, kept⟩
  · rintro ⟨_, entered, ⟨bytes, isFile⟩, stem, last, kept⟩
    have now := (undisturbed.isFile_iff last).2 isFile
    exact ⟨undisturbed.tree.way now, entered, ⟨bytes, now⟩, stem, last, kept⟩

/-- The same sources are found below a root that is there. -/
theorem discover_eq (undisturbed : Undisturbed files after) (tree : files.IsTree) {root : Path}
    {top : Place} (located : files.locate root = .ok top) (exclude : List Value) :
    discover after root exclude = discover files root exclude := by
  unfold discover
  cases unhashable? exclude with
  | some fault => rfl
  | none =>
    have locatedAfter := locate_mono undisturbed.start undisturbed.directories located
    dsimp only
    rw [located, locatedAfter]
    dsimp only
    generalize skippedDirectories ++ exclude.filterMap Value.text? = skipped
    -- Both lists stand in the same order, so it is enough that they have the same members.
    refine congrArg Except.ok ((Discovered.of_located locatedAfter skipped).unique
      (.of_located located skipped) ?_)
    intro path
    unfold IsSourceBelow
    simp only [located, locatedAfter, undisturbed.leadsToSource_iff tree]

/-- What is found below a root can be read, and its text is what it was. -/
theorem sourceText?_eq (undisturbed : Undisturbed files after) (tree : files.IsTree)
    {root path : Path} {top : Place} (located : files.locate root = .ok top)
    (isSource : IsSourceBelow files root skipped path) :
    sourceText? after path = sourceText? files path := by
  -- The file has the contents it had, at the place it had.
  obtain ⟨directory, names, found, rfl, leads⟩ := isSource
  cases located.symm.trans found
  obtain ⟨bytes, isFile⟩ := leads.file
  obtain ⟨stem, last, _⟩ := leads.ending
  have now := (undisturbed.isFile_iff last).2 isFile
  have locatedAfter := locate_mono undisturbed.start undisturbed.directories located
  unfold sourceText?
  rw [tree.read_descend located isFile, undisturbed.tree.read_descend locatedAfter now]

/-- The first part of the work comes to the same as before, where it has come to a survey. -/
theorem prospect_eq (undisturbed : Undisturbed files after) (tree : files.IsTree) {result : Survey}
    (found : prospect files request = .ok result) : prospect after request = .ok result := by
  unfold prospect sourcesToSurvey at found ⊢
  rw [undisturbed.resolve]
  generalize pathTo (files.resolve request.project) = root at found ⊢
  cases discovered : discover files root request.config.exclude with
  | error fault =>
    rw [discovered] at found
    cases found
  | ok sources =>
    rw [discovered] at found
    by_cases nothing : sources = []
    · rw [nothing] at found
      cases found
    · -- Where anything is found below a root, the root is there.
      have isDiscovered := discovered_of_ok discovered
      obtain ⟨source, among⟩ := List.exists_mem_of_ne_nil sources nothing
      obtain ⟨top, names, located, _⟩ := (isDiscovered.exact source).1 among
      rw [undisturbed.discover_eq tree located, discovered]
      -- All the sources have the texts that they had, and so the survey is the same.
      have same := value_survey_congr request.config fun path among =>
        undisturbed.sourceText?_eq tree located ((isDiscovered.exact path).1 among)
      dsimp only [bind, Except.bind] at found ⊢
      rw [if_neg fun empty => nothing (List.isEmpty_iff.1 empty)] at found ⊢
      unfold surveyToDeliver at found ⊢
      dsimp only at found ⊢
      rw [same]
      exact found

end Undisturbed

/-- Writing what is asked for disturbs no later run, unless something is asked for under the name of
a source. -/
theorem Deposits.undisturbed {files after : Files} (tree : files.IsTree)
    (deposits : Deposits request project graph files after)
    (notPage : (request.page project).name.endsWith ".java" = false)
    (notData : ∀ path, request.exportTo = some path → path.name.endsWith ".java" = false) :
    Undisturbed files after := by
  -- Both files are written under names that are no sources.
  obtain ⟨page, _, attempted, _⟩ := deposits
  obtain ⟨between, written, exporting⟩ := attempt_outputs_iff.mp attempted
  have first := filed_of_writeWithParents tree written
  have paged := undisturbed_of_filed first notPage
  cases exported : request.exportTo with
  | none =>
    rw [exported] at exporting
    subst exporting
    exact paged
  | some path =>
    rw [exported] at exporting
    exact paged.trans (undisturbed_of_filed (filed_of_writeWithParents first.tree exporting)
      (notData path exported))

/-- The page that goes into the project by default is no source. -/
theorem name_page (project : Path)
    (notOutput : ∀ path, request.output = some path → path.name.endsWith ".java" = false) :
    (request.page project).name.endsWith ".java" = false := by
  unfold Request.page
  cases chosen : request.output with
  | some path => exact notOutput path chosen
  | none =>
    have named : ((none : Option Path).getD (project.child "inheritzoom.html")).name =
        "inheritzoom.html" := by
      unfold Path.child Path.name
      simp
    rw [named]
    decide +kernel

/-- Work that has returned on a tree returns the same if it is done again on the tree that it has
left, and then it changes no file, wherever the page and the data go, as long as neither has a name
that ends as those of Java sources do. -/
theorem run_again {request : Request} {desk after : Desk} {survey : Survey}
    (tree : desk.files.IsTree)
    (notOutput : ∀ path, request.output = some path → path.name.endsWith ".java" = false)
    (notExport : ∀ path, request.exportTo = some path → path.name.endsWith ".java" = false)
    (returned : (run request).run.run desk = (.ok survey, after)) :
    ∀ again : Desk, again.files = after.files →
      ∃ last, (run request).run.run again = (.ok survey, last) ∧ last.files = after.files := by
  obtain ⟨found, deposits⟩ := returns_run_iff.1 ⟨after, returned, rfl⟩
  have undisturbed := deposits.undisturbed tree (name_page _ notOutput) notExport
  intro again left
  -- The project has the same path from the root as before.
  rw [returns_run_iff, left, undisturbed.resolve]
  exact ⟨undisturbed.prospect_eq tree found, deposits.again tree⟩

/-- A project with one class. -/
def lonelyClass : Files where
  table :=
    ⟨[(["p"], .directory), (["p", "A.java"], .file (Text.encode "class A \x7b\x7d".toList))], by
    decide⟩
  workingDirectory := ["p"]

/-- Page and data at one place, in a directory of the project that is not there yet. -/
def sharedPlace : Request where
  project := ⟨.relative, []⟩
  output := some ⟨.relative, ["gen", "graph.yml"]⟩
  exportTo := some ⟨.root, ["p", "gen", "..", "gen", "graph.yml"]⟩

/-- The tree with one class is a tree. -/
theorem isTree_lonelyClass : lonelyClass.IsTree := by
  -- There are two places below the root.
  have places : ∀ place name entry, lonelyClass.at? (place ++ [name]) = some entry →
      place = [] ∧ name = "p" ∨ place = ["p"] ∧ name = "A.java" := by
    intro place name entry present
    rw [at?_child] at present
    rcases List.mem_cons.1 present with same | present
    · have whole : place ++ [name] = [] ++ ["p"] := congrArg Prod.fst same
      have parts := List.append_inj' whole rfl
      exact .inl ⟨parts.1, List.singleton_inj.1 parts.2⟩
    · have whole : place ++ [name] = ["p"] ++ ["A.java"] :=
        congrArg Prod.fst (List.mem_singleton.1 present)
      have parts := List.append_inj' whole rfl
      exact .inr ⟨parts.1, List.singleton_inj.1 parts.2⟩
  refine ⟨fun place name entry present => ?_, fun place name entry present => ?_, rfl⟩
  · rcases places place name entry present with ⟨rfl, _⟩ | ⟨rfl, _⟩
    · rfl
    · rfl
  · rcases places place name entry present with ⟨_, rfl⟩ | ⟨_, rfl⟩
    · decide
    · decide

theorem discover_lonelyClass :
    discover lonelyClass ⟨.root, ["p"]⟩ [] = .ok [⟨.root, ["p", "A.java"]⟩] := by
  have only : (lonelyClass.filesIn ["p"]).filter isSourceName = ["A.java"] := by decide +kernel
  exact discover_of_flat rfl rfl only

/-- The class is read. -/
theorem declarationsAmong_lonelyClass :
    declarationsAmong lonelyClass {} [⟨.root, ["p", "A.java"]⟩] ≠ [] := by
  -- There is one class in the file and no interface.
  have selected : isSource ⟨.root, ["p", "A.java"]⟩ = true := by decide +kernel
  have read : sourceText? lonelyClass ⟨.root, ["p", "A.java"]⟩ =
    some "class A \x7b\x7d".toList := by decide +kernel
  have noInterface : (Java.interfacesIn (Java.blanked "class A \x7b\x7d".toList)).isEmpty =
    true := by decide +kernel
  have aClass : (Java.classesIn (Java.blanked "class A \x7b\x7d".toList)).isEmpty = false := by
    decide +kernel
  have readable : readableAmong lonelyClass [⟨.root, ["p", "A.java"]⟩] =
      [⟨.root, ["p", "A.java"]⟩] := by
    simp [readableAmong, sourcesAmong, selected, read]
  intro nothing
  rw [declarationsAmong, readable, List.flatMap_singleton, declarationsAt, read] at nothing
  dsimp only at nothing
  rw [Java.value_declarationsOf_classes noInterface, List.map_eq_nil_iff, List.map_eq_nil_iff]
    at nothing
  rw [nothing] at aClass
  cases aClass

/-- A run over the one class returns. -/
theorem returns_lonelyClass :
    ∃ survey after, (run sharedPlace).run.run { files := lonelyClass } = (.ok survey, after) := by
  have found : ∃ sources survey, (Project.survey lonelyClass {} sources).value = .ok survey ∧
      prospect lonelyClass sharedPlace = .ok survey := by
    rcases prospect_cases lonelyClass sharedPlace with ⟨fault, failed, _⟩
      | ⟨sources, found, courses⟩
    · cases discover_lonelyClass.symm.trans failed
    · cases discover_lonelyClass.symm.trans found
      rcases courses with ⟨nothing | nothing, _⟩ | ⟨strict, _⟩ | ⟨_, survey, surveyed, isProspect⟩
      · cases nothing
      · exact absurd nothing declarationsAmong_lonelyClass
      · cases strict.1
      · exact ⟨_, survey, surveyed, isProspect⟩
  obtain ⟨sources, survey, surveyed, isProspect⟩ := found
  obtain ⟨page, rendered⟩ := exists_render_of_survey surveyed "p"
  -- Whatever the bytes are, they can be written.
  have writes (first second : List UInt8) : ∃ between after,
      lonelyClass.writeWithParents ⟨.relative, ["gen", "graph.yml"]⟩ first = (none, between) ∧
      between.writeWithParents ⟨.root, ["p", "gen", "..", "gen", "graph.yml"]⟩ second =
        (none, after) :=
    ⟨_, _, rfl, rfl⟩
  obtain ⟨between, tree, first, second⟩ := writes (Text.encode page)
    (Text.encode (survey.graph.written (formatFor ⟨.root, ["p", "gen", "..", "gen", "graph.yml"]⟩)))
  have deposits : Deposits sharedPlace ⟨.root, ["p"]⟩ survey.graph lonelyClass tree :=
    ⟨page, rendered, attempt_outputs_iff.mpr ⟨between, first, second⟩, fun asked => by cases asked⟩
  have returns : ∃ after, (run sharedPlace).run.run { files := lonelyClass } = (.ok survey, after) ∧
    after.files = tree :=
    returns_run_iff.2 ⟨isProspect, deposits⟩
  obtain ⟨after, returned, _⟩ := returns
  exact ⟨survey, after, returned⟩

/-- The page is there before the data takes its place, in the first run as in the second. -/
theorem run_again_sharedPlace :
    ∃ survey after, (run sharedPlace).run.run { files := lonelyClass } = (.ok survey, after) ∧
      ∀ again : Desk, again.files = after.files →
        ∃ last, (run sharedPlace).run.run again =
          (.ok survey, last) ∧ last.files = after.files := by
  obtain ⟨survey, after, returned⟩ := returns_lonelyClass
  refine ⟨survey, after, returned, run_again isTree_lonelyClass ?_ ?_ returned⟩
  · intro path isOutput
    cases isOutput
    decide +kernel
  · intro path isExport
    cases isExport
    decide +kernel

end Lineage.Project
