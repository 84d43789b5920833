import Lineage.Proofs.Files.Write
import Lineage.Proofs.Page.Drawing
import Lineage.Proofs.Project.CycleReport
import Lineage.Proofs.Project.Usable

/-! The work on a project in two parts: first all is looked at and nothing but notes is taken, then
all is written. -/

namespace Lineage.Project

open Lineage.Files Lineage.Settings

section

variable {α β : Type} {work : Work α} {next : α → Work β} {desk after : Desk} {value : α}
  {stop : Stop}

/-- What follows work that is done goes on at the desk it leaves. -/
theorem run_bind_of_ok (done : work.run.run desk = (.ok value, after)) :
    (work >>= next).run.run desk = (next value).run.run after := by
  rw [ExceptT.run_bind, StateT.run_bind, done]
  rfl

theorem run_bind_of_error (ended : work.run.run desk = (.error stop, after)) :
    (work >>= next).run.run desk = (.error stop, after) := by
  rw [ExceptT.run_bind, StateT.run_bind, ended]
  rfl

theorem run_get (desk : Desk) : (get : Work Desk).run.run desk = (.ok desk, desk) :=
  rfl

/-- A note is put behind those that were taken before. -/
theorem run_note (level : Level) (text : String) (desk : Desk) :
    (Work.note level text).run.run desk =
      (.ok (), { desk with notes := desk.notes ++ [⟨level, text⟩] }) :=
  rfl

theorem run_logged (result : Logged α) (desk : Desk) :
    (Work.logged result).run.run desk =
      (.ok result.value, { desk with notes := desk.notes ++ result.notes }) :=
  rfl

end

/-- Only notes were taken. -/
structure Noted (desk after : Desk) : Prop where
  files : after.files = desk.files
  opened : after.opened = desk.opened

theorem Noted.trans {first second third : Desk} (one : Noted first second)
    (other : Noted second third) :
    Noted first third :=
  ⟨other.files.trans one.files, other.opened.trans one.opened⟩

/-- The sources with which a project is worked on, or why there is nothing to be done. -/
def sourcesToSurvey (files : Files) (project : Path) (exclude : List Value) :
    Except Stop (List Path) :=
  match discover files project exclude with
  | .error fault => .error (.unhashable fault)
  | .ok sources => if sources.isEmpty then .error (.exit 1) else .ok sources

/-- The survey that is delivered, or why there is nothing to deliver. -/
def surveyToDeliver (files : Files) (config : Config) (sources : List Path) : Except Stop Survey :=
  match (survey files config sources).value with
  | .error duplicate => .error (.duplicate duplicate)
  | .ok survey => if survey.isEmpty then .error (.exit 1) else .ok survey

/-- What the first part of the work comes to. -/
def prospect (files : Files) (request : Request) : Except Stop Survey := do
  let sources ← sourcesToSurvey files
    (pathTo (files.resolve request.project)) request.config.exclude
  surveyToDeliver files request.config sources

/-- The first part of the work in all its cases. They exclude each other: where nothing is declared
no name repeats. -/
theorem prospect_cases (files : Files) (request : Request) :
    (∃ fault,
      discover files (pathTo (files.resolve request.project)) request.config.exclude =
        .error fault ∧
      prospect files request = .error (.unhashable fault)) ∨
    ∃ sources,
      discover files (pathTo (files.resolve request.project)) request.config.exclude =
        .ok sources ∧
      ((sources = [] ∨ declarationsAmong files request.config sources = []) ∧
          prospect files request = .error (.exit 1) ∨
        (request.config.mergePolicy = .error ∧
            ¬ ((declarationsAmong files request.config sources).map (·.name)).Nodup) ∧
          (∃ duplicate, prospect files request = .error (.duplicate duplicate)) ∨
        (sources ≠ [] ∧ declarationsAmong files request.config sources ≠ [] ∧
            ¬ (request.config.mergePolicy = .error ∧
              ¬ ((declarationsAmong files request.config sources).map (·.name)).Nodup)) ∧
          ∃ result, (survey files request.config sources).value = .ok result ∧
            prospect files request = .ok result) := by
  unfold prospect sourcesToSurvey
  -- The sources are found, then surveyed, and each step can be the last.
  cases discover files (pathTo (files.resolve request.project)) request.config.exclude with
  | error fault => exact .inl ⟨fault, rfl, rfl⟩
  | ok sources =>
    refine .inr ⟨sources, rfl, ?_⟩
    cases sources with
    | nil => exact .inl ⟨.inl rfl, rfl⟩
    | cons source sources =>
      dsimp only [List.isEmpty_cons, bind, Except.bind]
      rw [if_neg Bool.false_ne_true]
      dsimp only
      unfold surveyToDeliver
      have fails := survey_fails_iff files request.config (source :: sources)
      cases surveyed : (survey files request.config (source :: sources)).value with
      | error duplicate =>
        rw [surveyed] at fails
        exact .inr (.inl ⟨fails.1 ⟨duplicate, rfl⟩, duplicate, rfl⟩)
      | ok result =>
        have isEmpty := isEmpty_survey_iff surveyed
        rw [surveyed] at fails
        dsimp only
        by_cases nothing : declarationsAmong files request.config (source :: sources) = []
        · rw [if_pos (isEmpty.2 nothing)]
          exact .inl ⟨.inr nothing, rfl⟩
        · rw [if_neg fun empty => nothing (isEmpty.1 empty)]
          have passes : ¬ (request.config.mergePolicy = .error ∧ ¬ ((declarationsAmong files
              request.config (source :: sources)).map (·.name)).Nodup) := by
            intro repeats
            obtain ⟨duplicate, ended⟩ := fails.2 repeats
            cases ended
          exact .inr (.inr ⟨⟨List.cons_ne_nil source sources, nothing, passes⟩, result, rfl, rfl⟩)

/-- The search for sources gives those to survey and leaves notes only. -/
theorem run_findSources (project : Path) (exclude : List Value) (desk : Desk) :
    ∃ after, Noted desk after ∧
      (findSources project exclude).run.run desk =
      (sourcesToSurvey desk.files project exclude, after) := by
  unfold findSources sourcesToSurvey
  rw [run_bind_of_ok (run_get desk)]
  -- Whatever is found, the desk has more notes and nothing else.
  cases discover desk.files project exclude with
  | error fault =>
    refine ⟨_, ?_, rfl⟩
    exact ⟨rfl, rfl⟩
  | ok sources =>
    cases sources with
    | nil =>
      refine ⟨_, ?_, rfl⟩
      exact ⟨rfl, rfl⟩
    | cons source sources =>
      refine ⟨_, ?_, rfl⟩
      exact ⟨rfl, rfl⟩

/-- The survey of sources gives what is to deliver and leaves notes only. -/
theorem run_surveySources (project : Path) (config : Config) (sources : List Path) (desk : Desk) :
    ∃ after, Noted desk after ∧
      (surveySources project config sources).run.run desk =
      (surveyToDeliver desk.files config sources, after) := by
  unfold surveySources surveyToDeliver
  rw [run_bind_of_ok (run_get desk)]
  -- The notes of the survey are taken over before its result is looked at.
  generalize survey desk.files config sources = result
  rw [run_bind_of_ok (run_logged result desk)]
  cases result.value with
  | error duplicate =>
    refine ⟨_, ?_, rfl⟩
    exact ⟨rfl, rfl⟩
  | ok survey =>
    have taken (desk : Desk) : (Work.orStop .duplicate (.ok survey)).run.run desk =
      (.ok survey, desk) := rfl
    rw [run_bind_of_ok (taken _)]
    dsimp only
    cases survey.isEmpty with
    | true =>
      refine ⟨_, ?_, rfl⟩
      exact ⟨rfl, rfl⟩
    | false =>
      refine ⟨_, ?_, rfl⟩
      exact ⟨rfl, rfl⟩

/-- The work takes notes and nothing else until there is something to deliver. -/
theorem run_run (request : Request) (desk : Desk) :
    ∃ after, Noted desk after ∧ (run request).run.run desk =
      match prospect desk.files request with
      | .error stop => (.error stop, after)
      | .ok survey =>
        (deliver request (pathTo (desk.files.resolve request.project)) survey).run.run after := by
  unfold run prospect
  rw [run_bind_of_ok (run_get desk)]
  dsimp only
  generalize pathTo (desk.files.resolve request.project) = project
  obtain ⟨found, noted, finding⟩ := run_findSources project request.config.exclude desk
  cases sourced : sourcesToSurvey desk.files project request.config.exclude with
  | error stop =>
    rw [sourced] at finding
    exact ⟨found, noted, run_bind_of_error finding⟩
  | ok sources =>
    rw [sourced] at finding
    rw [run_bind_of_ok finding]
    obtain ⟨looked, more, surveying⟩ := run_surveySources project request.config sources found
    rw [noted.files] at surveying
    dsimp only [bind, Except.bind]
    cases surveyed : surveyToDeliver desk.files request.config sources with
    | error stop =>
      rw [surveyed] at surveying
      exact ⟨looked, noted.trans more, run_bind_of_error surveying⟩
    | ok survey =>
      -- The groups of types that inherit from each other are noted before anything is written.
      rw [surveyed] at surveying
      refine ⟨{ looked with notes := looked.notes ++ survey.graph.cycles.map cycleNote }, ?_, ?_⟩
      · exact noted.trans (more.trans ⟨rfl, rfl⟩)
      · exact (run_bind_of_ok surveying).trans
          (run_bind_of_ok (run_reportCycles survey.graph looked))

section Delivery

variable {request : Request} {project : Path} {survey : Survey} {page : List Char} {desk : Desk}

/-- A file is written to the tree of the desk as far as that can be done. -/
theorem run_writeFile (path : Path) (text : List Char) (desk : Desk) :
    (Work.writeFile path text).run.run desk =
      (match (desk.files.writeWithParents path (Text.encode text)).1 with
        | some fault => .error (.file fault)
        | none => .ok (),
      { desk with files := (desk.files.writeWithParents path (Text.encode text)).2 }) := by
  unfold Work.writeFile
  rw [run_bind_of_ok (run_get desk)]
  -- The desk gets the tree as it is after the attempt, whether that has succeeded or not.
  generalize desk.files.writeWithParents path (Text.encode text) = result
  obtain ⟨fault, files⟩ := result
  cases fault with
  | some fault => rfl
  | none => rfl

/-- A page that is drawn is written as any file is. -/
theorem run_writePage {graph : Graph} {title : String}
    (rendered : Page.render graph title = .ok page) (path : Path) (desk : Desk) :
    (writePage graph path title).run.run desk = (Work.writeFile path page).run.run desk := by
  unfold writePage
  rw [rendered]
  rfl

/-- The page is opened if that is asked for, which fails exactly if it has no link. -/
theorem run_opening (asked : Bool) (path : Path) (survey : Survey) (desk : Desk) :
    (do
        if asked then openPage path
        return survey : Work Survey).run.run desk =
      (if asked && path.link?.isNone then .error .relativeLink else .ok survey,
        { desk with opened := desk.opened ++ if asked then path.link?.toList else [] }) := by
  -- Where nothing is opened the desk stays as it is.
  have same : { desk with opened := desk.opened ++ [] } = desk := by rw [List.append_nil]
  cases asked with
  | false => exact congrArg (Except.ok survey, ·) same.symm
  | true =>
    unfold openPage
    cases path.link? with
    | none => exact congrArg (Except.error Stop.relativeLink, ·) same.symm
    | some link => rfl

/-- The files that are asked for in the order in which they are written, each with its path and its
bytes: the page, and the data if a path is given for it. -/
def Request.outputs (request : Request) (project : Path) (graph : Graph) (page : List Char) :
    List (Path × List UInt8) :=
  (request.page project, Text.encode page) ::
    (request.exportTo.map fun path => (path, Text.encode (graph.written (formatFor path)))).toList

/-- How the second part of the work ends: with the first file that cannot be written, with a page
that should be opened and has no link, or well. -/
def Request.ending (request : Request) (project : Path) (survey : Survey) (page : List Char)
    (files : Files) : Except Stop Survey :=
  match (files.attempt (request.outputs project survey.graph page)).1 with
  | some fault => .error (.file fault)
  | none =>
    if request.openPage && (request.page project).link?.isNone then .error .relativeLink
    else .ok survey

/-- The second part of the work tries to write all files in their order, and leaves on the desk what
the attempt has left. The page is opened only behind an attempt that succeeds. -/
theorem run_deliver (rendered : Page.render survey.graph project.name = .ok page) (desk : Desk) :
    ∃ after, (deliver request project survey).run.run desk =
        (request.ending project survey page desk.files, after) ∧
      after.files = (desk.files.attempt (request.outputs project survey.graph page)).2 ∧
      after.opened = desk.opened ++
        if (desk.files.attempt (request.outputs project survey.graph page)).1.isNone &&
          request.openPage then (request.page project).link?.toList else [] := by
  have paging := run_writePage rendered (request.page project) desk
  rw [run_writeFile] at paging
  unfold deliver Request.ending Request.outputs
  dsimp only
  cases written : desk.files.writeWithParents (request.page project) (Text.encode page) with
  | mk fault left =>
    rw [written] at paging
    cases fault with
    | some fault =>
      -- Without the page nothing else is tried.
      rw [attempt_cons_of_some written, run_bind_of_error paging]
      exact ⟨_, rfl, rfl, by simp⟩
    | none =>
      rw [attempt_cons_of_none written, run_bind_of_ok paging, run_bind_of_ok (run_note _ _ _)]
      cases request.exportTo with
      | none =>
        refine ⟨_, run_opening request.openPage (request.page project) survey _, rfl, ?_⟩
        simp [attempt]
      | some path =>
        -- The data is written over the tree with the page.
        have exporting (notes : List Note) :=
          run_writeFile path (survey.graph.written (formatFor path)) ⟨left, notes, desk.opened⟩
        dsimp only at exporting
        cases data : left.writeWithParents path
            (Text.encode (survey.graph.written (formatFor path))) with
        | mk fault last =>
          rw [data] at exporting
          cases fault with
          | some fault =>
            rw [Option.map_some, Option.toList_some, attempt_cons_of_some data]
            exact ⟨⟨last, _, desk.opened⟩, run_bind_of_error (exporting _), rfl, by simp⟩
          | none =>
            rw [Option.map_some, Option.toList_some, attempt_cons_of_none data]
            refine ⟨_, (run_bind_of_ok (exporting _)).trans
              (run_opening request.openPage (request.page project) survey _), rfl, ?_⟩
            simp [attempt]

/-- The second part of the work ends well exactly if all files can be written and the page, if it
should be opened, has a link. -/
theorem ending_eq_ok_iff {files : Files} {result : Survey} :
    request.ending project survey page files = .ok result ↔ result = survey ∧
      (files.attempt (request.outputs project survey.graph page)).1 = none ∧
      (request.openPage = true → (request.page project).link?.isSome = true) := by
  unfold Request.ending
  -- A file that cannot be written decides before the opening is looked at.
  cases (files.attempt (request.outputs project survey.graph page)).1 with
  | some fault => simp
  | none => cases request.openPage <;> cases (request.page project).link? <;> simp [eq_comm]

/-- All that is asked for can be written to a tree, the page first and then the data, and the page
can be opened if that is asked for. -/
def Deposits (request : Request) (project : Path) (graph : Graph) (files after : Files) : Prop :=
  ∃ page, Page.render graph project.name = .ok page ∧
    files.attempt (request.outputs project graph page) = (none, after) ∧
    (request.openPage = true → (request.page project).link?.isSome = true)

/-- The second part of the work returns exactly if all can be written. -/
theorem returns_deliver_iff {result : Survey} {tree : Files} :
    (∃ after, (deliver request project survey).run.run desk = (.ok result, after) ∧
      after.files = tree) ↔
      result = survey ∧ Deposits request project survey.graph desk.files tree := by
  cases rendered : Page.render survey.graph project.name with
  | error unknown =>
    -- A page that cannot be drawn is not written, and nothing is done.
    have ended : (deliver request project survey).run.run desk =
        (.error (.relation unknown), desk) := by
      refine run_bind_of_error ?_
      unfold writePage
      rw [rendered]
      rfl
    rw [ended]
    constructor
    · rintro ⟨after, returned, _⟩
      cases returned
    · rintro ⟨_, page, drawn, _⟩
      cases rendered.symm.trans drawn
  | ok page =>
    obtain ⟨after, ended, left, _⟩ := run_deliver rendered desk
    rw [ended]
    constructor
    · rintro ⟨other, returned, rfl⟩
      obtain ⟨well, rfl⟩ := Prod.mk.inj returned
      obtain ⟨same, written, can⟩ := ending_eq_ok_iff.mp well
      exact ⟨same, page, rendered, Prod.ext written left.symm, can⟩
    · rintro ⟨same, other, drawn, written, can⟩
      cases rendered.symm.trans drawn
      have well := ending_eq_ok_iff.mpr ⟨same, congrArg Prod.fst written, can⟩
      exact ⟨after, by rw [well], left.trans (congrArg Prod.snd written)⟩

/-- The files that are asked for, each with its place and its bytes. -/
def Request.deliveries (request : Request) (files : Files) (project : Path) (graph : Graph)
    (page : List Char) : List (Place × List UInt8) :=
  (request.outputs project graph page).map fun output => (files.resolve output.1, output.2)

/-- What is left on the desk if all that was asked for is done. -/
structure Delivered (request : Request) (project : Path) (survey : Survey) (desk after : Desk) :
    Prop where
  /-- The page is the one of the graph, and nothing is written but what was asked for. -/
  wrote : ∃ page, Page.render survey.graph project.name = .ok page ∧
    Wrote desk.files after.files (request.deliveries desk.files project survey.graph page)
  /-- The page is opened exactly if that was asked for. -/
  opened : after.opened =
    desk.opened ++ if request.openPage then (request.page project).link?.toList else []

end Delivery

/-- The graph of a survey can always be drawn. -/
theorem exists_render_of_survey {files : Files} {config : Config} {sources : List Path}
    {result : Survey} (surveyed : (survey files config sources).value = .ok result)
    (title : String) :
    ∃ page, Page.render result.graph title = .ok page := by
  -- The graph is assembled, so all its relations are known.
  rw [value_survey] at surveyed
  cases assembled : (assemble config.mergePolicy config.danglingEdges
      (declarationsAmong files config sources)).value with
  | error duplicate =>
    rw [assembled] at surveyed
    cases surveyed
  | ok graph =>
    rw [assembled] at surveyed
    cases surveyed
    have known := Page.knownRelations_of_assembled (assembled_of_ok assembled)
    obtain ⟨script, made, _⟩ := Page.exists_graphScript known
    exact ⟨_, Page.render_eq made title⟩

end Lineage.Project
