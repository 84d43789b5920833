import Lineage.Project.Survey
import Lineage.Proofs.Graph.Assembly

/-! A survey accounts for every path: what cannot be read is counted and listed, and changes nothing
else. -/

namespace Lineage.Project

open Lineage.Files Lineage.Settings

/-- The text of a source: its bytes can be read, they make a text, and the ends of its lines are
unified. -/
def sourceText? (files : Files) (path : Path) : Option (List Char) :=
  match files.read path with
  | .error _ => none
  | .ok bytes => (Text.decode bytes).toOption.map Text.unifyLineEnds

/-- The Java sources among the given paths. -/
def sourcesAmong (paths : List Path) : List Path :=
  paths.filter isSource

/-- The Java sources among the given paths that can be read. -/
def readableAmong (files : Files) (paths : List Path) : List Path :=
  (sourcesAmong paths).filter fun path => (sourceText? files path).isSome

/-- The declarations in the source at a path, each with the path of the source. -/
def declarationsAt (files : Files) (scope : Java.DocScope) (path : Path) : List Declaration :=
  match sourceText? files path with
  | none => []
  | some text => (Java.declarationsOf text scope).value.map fun declaration =>
      { declaration with sourceFile := some path.text }

/-- The declarations that a survey of the given paths takes in. -/
def declarationsAmong (files : Files) (config : Config) (paths : List Path) : List Declaration :=
  (readableAmong files paths).flatMap (declarationsAt files config.docScope)

/-- What a survey of the given paths has to say. -/
structure Accounted (files : Files) (config : Config) (paths : List Path) (result : Survey) :
    Prop where
  /-- All the sources were looked at. -/
  scanned : result.filesScanned = (sourcesAmong paths).length
  /-- Those that cannot be read are listed in order. -/
  failed : result.failedFiles =
    ((sourcesAmong paths).filter fun path => (sourceText? files path).isNone).map (·.text)
  /-- All that is declared in the others is counted. -/
  counted : result.declarationCount = (declarationsAmong files config paths).length
  /-- The graph is assembled from what is declared in the others. -/
  graph :
    (assemble config.mergePolicy config.danglingEdges
    (declarationsAmong files config paths)).value =
    .ok result.graph
  /-- Without the sources that cannot be read the graph would be the same. -/
  alone : ∃ other, (survey files config (readableAmong files paths)).value = .ok other ∧
    other.graph = result.graph
  /-- There is nothing to be found exactly where nothing is declared. -/
  empty : result.isEmpty = true ↔ result.declarationCount = 0

/-- Whatever reason is noted, a source that cannot be read has no text. -/
theorem value_readSource (files : Files) (path : Path) :
    (readSource files path).value = sourceText? files path := by
  unfold readSource sourceText?
  cases files.read path with
  | error fault => rfl
  | ok bytes =>
    dsimp only
    cases Text.decode bytes with
    | error fault => rfl
    | ok text => rfl

/-- The sources that are selected are those among the paths. -/
theorem value_selectSources (paths : List Path) :
    (selectSources paths).value = sourcesAmong paths := by
  -- A path that is no source is noted and leaves nothing behind.
  have each : ∀ path, Logged.value (if isSource path then pure (some path) else do
      Logged.note .debug ("Skipping " ++ path.text ++ ": not a Java source file")
      pure none) = if isSource path then some path else none := by
    intro path
    split <;> rfl
  simp only [selectSources, Logged.value_bind, Logged.value_mapM, Logged.value_pure, each,
    List.filterMap_map]
  exact congrFun List.filterMap_eq_filter paths

theorem value_readSources (files : Files) (paths : List Path) :
    (readSources files paths).value = paths.map fun path => (path, sourceText? files path) := by
  simp only [readSources, Logged.value_mapM, Logged.value_bind, Logged.value_pure, value_readSource]

/-- A source without a text adds no declarations, and any other adds its own. -/
theorem value_declarationsOfAll (files : Files) (scope : Java.DocScope) (paths : List Path) :
    (declarationsOfAll scope (paths.map fun path => (path, sourceText? files path))).value =
      paths.flatMap (declarationsAt files scope) := by
  simp only [declarationsOfAll, Logged.value_bind, Logged.value_mapM, Logged.value_pure,
    List.map_map, ← List.flatMap_def]
  congr 1
  funext path
  simp only [Function.comp_apply, declarationsAt]
  cases sourceText? files path with
  | none => rfl
  | some text => rfl

/-- Only the sources that can be read declare anything. -/
theorem flatMap_declarationsAt (files : Files) (config : Config) (paths : List Path) :
    (sourcesAmong paths).flatMap
      (declarationsAt files config.docScope) = declarationsAmong files config paths := by
  -- A source that cannot be read declares nothing.
  unfold declarationsAmong readableAmong
  induction sourcesAmong paths with
  | nil => rfl
  | cons path paths ih =>
    rw [List.flatMap_cons, List.filter_cons, ih]
    cases text : sourceText? files path with
    | none => simp [declarationsAt, text]
    | some text => simp

/-- The result of a survey, said without the notes that it takes. -/
theorem value_survey (files : Files) (config : Config) (paths : List Path) :
    (survey files config paths).value =
      (assemble config.mergePolicy config.danglingEdges
        (declarationsAmong files config paths)).value.map fun graph =>
        { graph
          filesScanned := (sourcesAmong paths).length
          failedFiles :=
            ((sourcesAmong paths).filter fun path => (sourceText? files path).isNone).map (·.text)
          declarationCount := (declarationsAmong files config paths).length } := by
  -- The sources that were read are the selected paths, each with its text.
  have failed : ((sourcesAmong paths).map fun path => (path, sourceText? files path)).filter
    (·.2.isNone) =
      ((sourcesAmong paths).filter fun path => (sourceText? files path).isNone).map
        fun path => (path, sourceText? files path) := List.filter_map
  simp only [survey, Logged.value_bind, value_selectSources, value_readSources,
    value_declarationsOfAll, flatMap_declarationsAt, failed, List.map_map, List.length_map]
  cases (assemble config.mergePolicy config.danglingEdges
    (declarationsAmong files config paths)).value with
  | error duplicate => rfl
  | ok graph => rfl

/-- A path that is selected as a readable source is selected again. -/
theorem readableAmong_readableAmong (files : Files) (paths : List Path) :
    readableAmong files (readableAmong files paths) = readableAmong files paths := by
  unfold readableAmong sourcesAmong
  simp only [List.filter_filter]
  congr 1
  funext path
  cases isSource path <;> cases (sourceText? files path).isSome <;> rfl

/-- Assembling fails exactly where a repeated name is an error and some name repeats. -/
theorem assemble_fails_iff (merge : MergePolicy) (dangling : DanglingPolicy)
    (declarations : List Declaration) :
    (∃ duplicate, (assemble merge dangling declarations).value = .error duplicate) ↔
      merge = .error ∧ ¬ (declarations.map (·.name)).Nodup := by
  rw [value_assemble]
  by_cases lenient : merge = .error
  · subst lenient
    rcases addDeclarations_error declarations [] .empty (.empty .error) List.nodup_nil with
      ⟨distinct, nodes, result⟩ | ⟨earlier, second, later, first, split, distinct, repeated, found,
        result⟩
    · -- All names are different, and all declarations are taken in.
      rw [List.nil_append] at distinct
      simp [result, Except.map, distinct]
    · -- The name of the second declaration came before.
      have repeats : ¬ (declarations.map (·.name)).Nodup := by
        rw [List.nil_append] at repeated
        rw [split, List.map_append, List.map_cons, List.nodup_append]
        exact fun all => all.2.2 second.name repeated second.name (by simp) rfl
      simp [result, Except.map, repeats]
  · obtain ⟨nodes, result, _⟩ :=
      addDeclarations_takenIn lenient declarations [] .empty (.empty merge)
    simp [result, Except.map, lenient]

/-- A survey fails exactly where a repeated name is an error and two of the declarations that were
read share one. -/
theorem survey_fails_iff (files : Files) (config : Config) (paths : List Path) :
    (∃ duplicate, (survey files config paths).value = .error duplicate) ↔
      config.mergePolicy = .error ∧
        ¬ ((declarationsAmong files config paths).map (·.name)).Nodup := by
  rw [← assemble_fails_iff config.mergePolicy config.danglingEdges, value_survey]
  cases (assemble config.mergePolicy config.danglingEdges
    (declarationsAmong files config paths)).value with
  | error duplicate => simp [Except.map]
  | ok graph => simp [Except.map]

/-- There is nothing to be found exactly where nothing is declared: without sources there are no
declarations either. -/
theorem isEmpty_survey_iff {files : Files} {config : Config} {paths : List Path} {result : Survey}
    (surveyed : (survey files config paths).value = .ok result) :
    result.isEmpty = true ↔ declarationsAmong files config paths = [] := by
  -- Without sources there are no declarations.
  rw [value_survey] at surveyed
  cases assembled : (assemble config.mergePolicy config.danglingEdges
      (declarationsAmong files config paths)).value with
  | error duplicate =>
    rw [assembled] at surveyed
    cases surveyed
  | ok graph =>
    rw [assembled] at surveyed
    cases surveyed
    simp only [Survey.isEmpty, Bool.or_eq_true, beq_iff_eq, List.length_eq_zero_iff]
    refine ⟨fun nothing => nothing.elim (fun none => ?_) id, Or.inr⟩
    rw [declarationsAmong, readableAmong, none]
    rfl

/-- A survey fails exactly where a repeated name is an error and two of the declarations that were
read share one; otherwise it accounts for every path. -/
theorem survey_accounts (files : Files) (config : Config) (paths : List Path) :
    ((∃ duplicate, (survey files config paths).value = .error duplicate) ↔
      config.mergePolicy = .error ∧ ¬ ((declarationsAmong files config paths).map (·.name)).Nodup) ∧
    ∀ result, (survey files config paths).value = .ok result →
      Accounted files config paths result := by
  refine ⟨survey_fails_iff files config paths, fun result isResult => ?_⟩
  have isEmpty := isEmpty_survey_iff isResult
  rw [value_survey] at isResult
  cases assembled : (assemble config.mergePolicy config.danglingEdges
      (declarationsAmong files config paths)).value with
  | error duplicate =>
    rw [assembled] at isResult
    cases isResult
  | ok graph =>
    rw [assembled] at isResult
    cases isResult
    refine ⟨rfl, rfl, rfl, assembled, ?_, isEmpty.trans List.length_eq_zero_iff.symm⟩
    -- The readable sources alone declare the same.
    have same : declarationsAmong files config (readableAmong files paths) =
        declarationsAmong files config paths := by
      unfold declarationsAmong
      rw [readableAmong_readableAmong]
    have other := value_survey files config (readableAmong files paths)
    rw [same, assembled] at other
    exact ⟨_, other, rfl⟩

end Lineage.Project
