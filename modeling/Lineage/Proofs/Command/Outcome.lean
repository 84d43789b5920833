import Lineage.Command
import Lineage.Proofs.Project.Repetition

/-! How a command ends. One that exits with a fault of its own leaves all as it was, and one that
returns has written what was asked for and nothing else. Only a command that fails while it writes
can leave something behind, and it is said exactly when it does. -/

namespace Lineage.Command

open Lineage.Files Lineage.Project Lineage.Settings

/-- What a command asks for on a project. -/
def Options.request (options : Options) (project : Path) (config : Config) : Request :=
  { project, config, output := options.output, exportTo := options.exportTo
    openPage := options.openPage }

/-- No file is changed and no page is opened. -/
def Untouched (files : Files) (outcome : Outcome) : Prop :=
  outcome.desk.files = files ∧ outcome.desk.opened = []

/-- The work on a project comes to a page: the settings are loaded, sources are found, they declare
something, and the graph of their survey is drawn. -/
structure Surveyed (files : Files) (options : Options) (project : Path) (config : Config)
    (sources : List Path) (result : Survey) (page : List Char) : Prop where
  loaded : (load files project options.overrides).value = .ok config
  found : discover files (pathTo (files.resolve project)) config.exclude = .ok sources
  declared : declarationsAmong files config sources ≠ []
  isResult : (survey files config sources).value = .ok result
  rendered : Page.render result.graph (pathTo (files.resolve project)).name = .ok page

/-- Of the files that are asked for one cannot be written, or the page should be opened although its
path does not begin at the root. -/
def FailsToDeliver (files : Files) (request : Request) (project : Path) (graph : Graph)
    (page : List Char) : Prop :=
  (files.attempt (request.outputs project graph page)).1.isSome = true ∨
    request.openPage = true ∧ (request.page project).isAbsolute = false

/-- A command fails while it writes, and what it has written or made by then stays. -/
def LeavesBehind (arguments : List String) (files : Files) : Prop :=
  ∃ options project config sources result page, Options.read arguments = .ok options ∧
    options.project = some project ∧ Surveyed files options project config sources result page ∧
    FailsToDeliver files (options.request project config) (pathTo (files.resolve project))
      result.graph page ∧
    (files.attempt ((options.request project config).outputs (pathTo (files.resolve project))
      result.graph page)).2 ≠ files

/-- What accepted options come to on the project that they name. -/
structure Works (files : Files) (options : Options) (project : Path) (outcome : Outcome) :
    Prop where
  /-- With settings that exclude nothing but names, the exit status is 2 exactly if a repeated name
  is an error and there is one. It is 1 exactly if there is nothing to be found or the page or the
  data cannot be delivered; the command itself gives this status in the first case only. -/
  statuses : ∀ config, (load files project options.overrides).value = .ok config →
    (∀ item ∈ config.exclude, ∃ name, item = .text name) →
    ∃ sources, discover files (pathTo (files.resolve project)) config.exclude = .ok sources ∧
      (outcome.exitStatus = 2 ↔ config.mergePolicy = .error ∧
        ¬ ((declarationsAmong files config sources).map (·.name)).Nodup) ∧
      (outcome.status = .ok 1 ↔ sources = [] ∨ declarationsAmong files config sources = []) ∧
      (outcome.exitStatus = 1 ↔
        (sources = [] ∨ declarationsAmong files config sources = []) ∨
        ∃ result page, Surveyed files options project config sources result page ∧
          FailsToDeliver files (options.request project config) (pathTo (files.resolve project))
            result.graph page)
  /-- A command that returns has delivered the survey of the sources, and the page and the data are
  those of its graph. -/
  returns : outcome.exitStatus = 0 → ∃ config sources result,
    (load files project options.overrides).value = .ok config ∧
    discover files (pathTo (files.resolve project)) config.exclude = .ok sources ∧
    (survey files config sources).value = .ok result ∧
    Delivered (options.request project config) (pathTo (files.resolve project)) result { files }
      outcome.desk

/-- What a command with any arguments on any tree comes to. -/
structure AllOrNothing (arguments : List String) (files : Files) (outcome : Outcome) : Prop where
  /-- A command that fails has changed nothing, unless it fails while it writes. -/
  leaves : (outcome.exitStatus ≠ 0 ∧ ¬ Untouched files outcome) ↔ LeavesBehind arguments files
  /-- One that exits with a fault of its own never does. -/
  exits : ∀ status, outcome.status = .ok status → status ≠ 0 → Untouched files outcome
  /-- Arguments that are accepted name a project to work on. -/
  works : ∀ options, Options.read arguments = .ok options → ∃ project,
    options.project = some project ∧ Works files options project outcome

/-- Options are accepted only with a project. -/
theorem exists_project_of_read {arguments : List String} {options : Options}
    (accepted : Options.read arguments = .ok options) :
    ∃ project, options.project = some project := by
  -- Each step of the reading ends it with a fault or hands on what is read so far.
  unfold Options.read at accepted
  cases classified : classify arguments with
  | error fault =>
    rw [classified] at accepted
    cases accepted
  | ok classes =>
    rw [classified] at accepted
    cases read : readArguments (classes.length + 1) {} classes with
    | error ending =>
      dsimp only [orEnd, Except.mapError, bind, Except.bind] at accepted
      rw [read] at accepted
      cases accepted
    | ok reading =>
      dsimp only [orEnd, Except.mapError, bind, Except.bind] at accepted
      rw [read] at accepted
      dsimp only at accepted
      cases project : reading.options.project with
      | none =>
        rw [project] at accepted
        cases accepted
      | some path =>
        rw [project] at accepted
        cases unused : reading.unused with
        | cons argument more =>
          rw [unused] at accepted
          cases accepted
        | nil =>
          rw [unused] at accepted
          cases accepted
          exact ⟨path, project⟩

/-- The table around a type costs notes at most. -/
theorem run_showFocus (options : Options) (graph : Graph) (desk : Desk) :
    ∃ printed after, Noted desk after ∧
      (showFocus options graph).run.run desk = (.ok printed, after) := by
  unfold showFocus
  split
  · exact ⟨"", desk, ⟨rfl, rfl⟩, rfl⟩
  · exact ⟨"", desk, ⟨rfl, rfl⟩, rfl⟩
  · split
    · exact ⟨_, desk, ⟨rfl, rfl⟩, rfl⟩
    · refine ⟨"", _, ?_, rfl⟩
      exact ⟨rfl, rfl⟩

/-- An early end of the work is known to what follows, and the desk is what the work has left. -/
theorem run_lift {α : Type} {work : StateM Desk α} {desk after : Desk} {value : α}
    (done : work.run desk = (value, after)) :
    (ExceptT.lift work : Work α).run.run desk = (.ok value, after) := by
  rw [ExceptT.run_lift, StateT.run_map, done]
  rfl

/-- What an early end of the work comes to. -/
def earlyEnd : Stop → Except Stop (Nat × String)
  | .duplicate _ => .ok (2, "")
  | .exit status => .ok (status, "")
  | other => .error other

section

variable {options : Options} {project : Path} {config : Config} {desk : Desk}

/-- Work that stops ends the command as its reason says, and costs a note at most. -/
theorem run_workOn_of_stop {stop : Stop} {left : Desk}
    (ended : (Project.run (options.request project config)).run.run desk = (.error stop, left)) :
    ∃ after, Noted left after ∧
      (workOn options project config).run.run desk = (earlyEnd stop, after) := by
  have begun := run_lift ended
  unfold workOn
  dsimp only
  unfold Options.request at begun
  rw [run_bind_of_ok begun]
  -- A repeated name is noted here; the other reasons are handed on as they are.
  cases stop with
  | duplicate duplicate =>
    refine ⟨_, ?_, rfl⟩
    exact ⟨rfl, rfl⟩
  | exit status => exact ⟨left, ⟨rfl, rfl⟩, rfl⟩
  | unhashable fault => exact ⟨left, ⟨rfl, rfl⟩, rfl⟩
  | relation unknown => exact ⟨left, ⟨rfl, rfl⟩, rfl⟩
  | file fault => exact ⟨left, ⟨rfl, rfl⟩, rfl⟩
  | relativeLink => exact ⟨left, ⟨rfl, rfl⟩, rfl⟩

/-- Work that returns ends the command with the status 0, after the table around a type. -/
theorem run_workOn_of_survey {survey : Survey} {left : Desk}
    (ended : (Project.run (options.request project config)).run.run desk = (.ok survey, left)) :
    ∃ printed after, Noted left after ∧
      (workOn options project config).run.run desk = (.ok (0, printed), after) := by
  have begun := run_lift ended
  unfold workOn
  dsimp only
  unfold Options.request at begun
  rw [run_bind_of_ok begun]
  obtain ⟨printed, after, noted, shown⟩ := run_showFocus options survey.graph left
  exact ⟨printed, after, noted, run_bind_of_ok shown⟩

/-- Where the work ends before the delivery, only notes are taken. -/
theorem run_workOn_of_error {stop : Stop}
    (nothing : prospect desk.files (options.request project config) = .error stop) :
    ∃ after, Noted desk after ∧
      (workOn options project config).run.run desk = (earlyEnd stop, after) := by
  -- What comes before the delivery takes notes only, and so does what follows its end.
  obtain ⟨left, noted, done⟩ := run_run (options.request project config) desk
  rw [nothing] at done
  obtain ⟨after, more, worked⟩ := run_workOn_of_stop done
  exact ⟨after, noted.trans more, worked⟩

/-- Only files and links can be in the way of a delivery. -/
theorem earlyEnd_of_ending {request : Request} {path : Path} {result : Survey} {page : List Char}
    {files : Files} {stop : Stop} (failed : request.ending path result page files = .error stop) :
    earlyEnd stop = .error stop := by
  -- The one reason is a file, the other a link, and each is handed on.
  unfold Request.ending at failed
  split at failed
  · cases failed
    rfl
  · split at failed
    · cases failed
      rfl
    · cases failed

/-- Where there is a survey, the status is 0 if it is delivered, and the desk is left as the
delivery leaves it. -/
theorem run_workOn_of_ok {result : Survey} {page : List Char}
    (surveyed : prospect desk.files (options.request project config) = .ok result)
    (rendered : Page.render result.graph (pathTo (desk.files.resolve project)).name = .ok page) :
    ∃ printed after, (workOn options project config).run.run desk =
        (((options.request project config).ending (pathTo (desk.files.resolve project)) result page
          desk.files).map fun _ => (0, printed), after) ∧
      after.files = (desk.files.attempt ((options.request project config).outputs
        (pathTo (desk.files.resolve project)) result.graph page)).2 ∧
      after.opened = desk.opened ++
        if (desk.files.attempt ((options.request project config).outputs
          (pathTo (desk.files.resolve project)) result.graph page)).1.isNone && options.openPage
        then ((options.request project config).page
          (pathTo (desk.files.resolve project))).link?.toList
        else [] := by
  obtain ⟨before, noted, done⟩ := run_run (options.request project config) desk
  rw [surveyed] at done
  obtain ⟨delivered, ended, left, opened⟩ :=
    @run_deliver (options.request project config) _ _ _ rendered before
  rw [noted.files] at ended left opened
  rw [noted.opened] at opened
  have worked := done.trans ended
  cases ending : (options.request project config).ending (pathTo (desk.files.resolve project))
      result page desk.files with
  | ok survey =>
    -- The table around a type comes last and changes nothing.
    rw [ending] at worked
    obtain ⟨printed, after, later, returned⟩ := run_workOn_of_survey worked
    exact ⟨printed, after, returned, later.files.trans left, later.opened.trans opened⟩
  | error stop =>
    -- What is in the way of a delivery is handed on as it is.
    rw [ending] at worked
    obtain ⟨after, later, stopped⟩ := run_workOn_of_stop worked
    rw [earlyEnd_of_ending ending] at stopped
    exact ⟨"", after, stopped, later.files.trans left, later.opened.trans opened⟩

end

/-- How a command with a page to deliver ends: with the status 0 or as the delivery fails, on the
tree that the attempt to write leaves, and with the page opened only if the attempt succeeds. -/
structure Ended (files : Files) (request : Request) (path : Path) (result : Survey)
    (page : List Char) (outcome : Outcome) : Prop where
  status : outcome.status =
    ((request.ending path result page files).map fun _ => 0).mapError .stop
  left : outcome.desk.files = (files.attempt (request.outputs path result.graph page)).2
  opened : outcome.desk.opened =
    if (files.attempt (request.outputs path result.graph page)).1.isNone && request.openPage
    then (request.page path).link?.toList else []

section

variable {files : Files} {request : Request} {path : Path} {result : Survey} {page : List Char}
  {outcome : Outcome}

/-- A path has a link exactly if it begins at the root. -/
theorem isSome_link? (path : Path) : path.link?.isSome = path.isAbsolute := by
  unfold Path.link?
  cases path.isAbsolute <;> rfl

/-- A delivery ends well exactly if nothing is in its way. -/
theorem ending_eq_ok_iff_not_failsToDeliver :
    request.ending path result page files = .ok result ↔
      ¬ FailsToDeliver files request path result.graph page := by
  -- A fault of the attempt decides alone; without one the link does.
  rw [ending_eq_ok_iff, isSome_link?]
  unfold FailsToDeliver
  cases (files.attempt (request.outputs path result.graph page)).1 <;> simp

/-- Either all is delivered and the status is 0, or the delivery fails, the process ends with the
status 1 and no page is opened. -/
theorem Ended.cases (ended : Ended files request path result page outcome) :
    (¬ FailsToDeliver files request path result.graph page ∧ outcome.status = .ok 0) ∨
      FailsToDeliver files request path result.graph page ∧
        (∃ stop, outcome.status = .error (.stop stop)) ∧ outcome.desk.opened = [] := by
  have status := ended.status
  by_cases fails : FailsToDeliver files request path result.graph page
  · refine .inr ⟨fails, ?_, ?_⟩
    · cases ending : request.ending path result page files with
      | ok other =>
        -- A delivery that ends well ends with the survey that it began with.
        obtain ⟨rfl, _⟩ := ending_eq_ok_iff.mp ending
        exact absurd fails (ending_eq_ok_iff_not_failsToDeliver.mp ending)
      | error stop =>
        rw [ending] at status
        exact ⟨stop, status⟩
    · rw [ended.opened]
      rcases fails with unwritten | ⟨asked, relative⟩
      · rw [Option.isNone_eq_false_iff.mpr unwritten]
        rfl
      · -- A relative path has no link that could be opened.
        have linkless : (request.page path).link? = none := by
          rw [← Option.not_isSome_iff_eq_none, isSome_link?, relative]
          exact Bool.false_ne_true
        rw [linkless]
        exact ite_self []
  · rw [ending_eq_ok_iff_not_failsToDeliver.mpr fails] at status
    exact .inl ⟨fails, status⟩

/-- A command with a page to deliver fails and has changed something exactly if the delivery fails
and the attempt has changed something. -/
theorem Ended.leaves_iff (ended : Ended files request path result page outcome) :
    (outcome.exitStatus ≠ 0 ∧ ¬ Untouched files outcome) ↔
      FailsToDeliver files request path result.graph page ∧
        (files.attempt (request.outputs path result.graph page)).2 ≠ files := by
  -- A delivery that ends well gives the status 0, and one that fails opens nothing.
  rcases ended.cases with ⟨well, isZero⟩ | ⟨fails, ⟨stop, isError⟩, unopened⟩
  · unfold Outcome.exitStatus
    rw [isZero]
    exact iff_of_false (fun both => both.1 rfl) fun both => well both.1
  · unfold Outcome.exitStatus Untouched
    rw [isError, unopened, ended.left]
    simp [fails]

/-- A command that delivers its page has written what was asked for. -/
theorem Ended.delivered (ended : Ended files request path result page outcome)
    (rendered : Page.render result.graph path.name = .ok page)
    (well : ¬ FailsToDeliver files request path result.graph page) :
    Delivered request path result { files } outcome.desk := by
  -- Nothing was in the way of a file, so all of them are written.
  have written : (files.attempt (request.outputs path result.graph page)).1 = none := by
    rw [← Option.not_isSome_iff_eq_none]
    exact fun unwritten => well (.inl unwritten)
  refine ⟨⟨page, rendered, ?_⟩, ?_⟩
  · rw [ended.left]
    exact wrote_of_attempt (Prod.ext written rfl)
  · rw [ended.opened, written]
    rfl

/-- All that a page is made of follows from the tree and the options. -/
theorem Surveyed.unique {options : Options} {project : Path} {config config' : Config}
    {sources sources' : List Path} {result' : Survey} {page' : List Char}
    (one : Surveyed files options project config sources result page)
    (other : Surveyed files options project config' sources' result' page') :
    config = config' ∧ sources = sources' ∧ result = result' ∧ page = page' := by
  -- Each step is a function of the one before.
  cases one.loaded.symm.trans other.loaded
  cases one.found.symm.trans other.found
  cases one.isResult.symm.trans other.isResult
  cases one.rendered.symm.trans other.rendered
  exact ⟨rfl, rfl, rfl, rfl⟩

end

section

variable {options : Options} {files : Files} {project : Path}
  (named : options.project = some project)
include named

/-- Without settings a command ends before it begins to work, and with the status 2 if there is a
status at all. -/
theorem execute_of_fault {fault : LoadFault}
    (failed : (load files project options.overrides).value = .error fault) :
    Untouched files (execute options files) ∧
      ((execute options files).status = .ok 2 ∨
        (execute options files).status = .error (.load fault)) := by
  unfold execute
  rw [named]
  dsimp only [Option.getD_some]
  rw [failed]
  cases fault with
  | config fault => exact ⟨⟨rfl, rfl⟩, .inl rfl⟩
  | notText fault => exact ⟨⟨rfl, rfl⟩, .inr rfl⟩
  | tooManyDigits count => exact ⟨⟨rfl, rfl⟩, .inr rfl⟩
  | unshowable => exact ⟨⟨rfl, rfl⟩, .inr rfl⟩

/-- With settings the outcome is what the work comes to. -/
theorem execute_of_run {config : Config}
    (loaded : (load files project options.overrides).value = .ok config)
    {result : Except Stop (Nat × String)} {after : Desk}
    (worked : (workOn options project config).run.run
      { files, notes := (load files project options.overrides).notes } = (result, after)) :
    (execute options files).status = (result.map Prod.fst).mapError .stop ∧
    (execute options files).desk = after := by
  unfold execute
  rw [named]
  dsimp only [Option.getD_some]
  rw [loaded]
  dsimp only
  rw [worked]
  cases result with
  | error stop => exact ⟨rfl, rfl⟩
  | ok value => exact ⟨rfl, rfl⟩

/-- An early end of the work leaves all untouched. -/
theorem execute_of_prospect_error {config : Config} {stop : Stop}
    (loaded : (load files project options.overrides).value = .ok config)
    (nothing : prospect files (options.request project config) = .error stop) :
    (execute options files).status = ((earlyEnd stop).map Prod.fst).mapError .stop ∧
      Untouched files (execute options files) := by
  -- Only notes were taken, so the tree and the pages are those from the beginning.
  obtain ⟨after, noted, worked⟩ :=
    @run_workOn_of_error options project config
      { files, notes := (load files project options.overrides).notes } _ nothing
  obtain ⟨status, desk⟩ := execute_of_run named loaded worked
  refine ⟨status, ?_⟩
  unfold Untouched
  rw [desk]
  exact ⟨noted.files, noted.opened⟩

/-- Where there is a page, the command ends as its delivery does. -/
theorem ended_execute {config : Config} {sources : List Path} {result : Survey} {page : List Char}
    (whole : Surveyed files options project config sources result page)
    (surveyed : prospect files (options.request project config) = .ok result) :
    Ended files (options.request project config) (pathTo (files.resolve project)) result page
      (execute options files) := by
  obtain ⟨printed, after, worked, left, opened⟩ := @run_workOn_of_ok options project config
    { files, notes := (load files project options.overrides).notes } _ _ surveyed whole.rendered
  obtain ⟨status, desk⟩ := execute_of_run named whole.loaded worked
  rw [← desk] at left opened
  refine ⟨status.trans (congrArg (Except.mapError Crash.stop) ?_), left, opened⟩
  -- What is printed is not part of the status.
  cases (options.request project config).ending (pathTo (files.resolve project)) result page files
  <;> rfl

end

/-- The courses that a command with accepted options can take. -/
inductive Course (files : Files) (options : Options) (project : Path) (outcome : Outcome) :
    Prop where
  | unloaded (fault : LoadFault)
      (failed : (load files project options.overrides).value = .error fault)
      (status : outcome.status = .ok 2 ∨ outcome.status = .error (.load fault))
      (untouched : Untouched files outcome)
  | unhashable (config : Config) (fault : Unhashable)
      (loaded : (load files project options.overrides).value = .ok config)
      (failed : discover files (pathTo (files.resolve project)) config.exclude = .error fault)
      (status : outcome.status = .error (.stop (.unhashable fault)))
      (untouched : Untouched files outcome)
  | nothing (config : Config) (sources : List Path)
      (loaded : (load files project options.overrides).value = .ok config)
      (found : discover files (pathTo (files.resolve project)) config.exclude = .ok sources)
      (empty : sources = [] ∨ declarationsAmong files config sources = [])
      (status : outcome.status = .ok 1) (untouched : Untouched files outcome)
  | repeated (config : Config) (sources : List Path)
      (loaded : (load files project options.overrides).value = .ok config)
      (found : discover files (pathTo (files.resolve project)) config.exclude = .ok sources)
      (strict : config.mergePolicy = .error)
      (repeats : ¬ ((declarationsAmong files config sources).map (·.name)).Nodup)
      (status : outcome.status = .ok 2) (untouched : Untouched files outcome)
  | surveyed (config : Config) (sources : List Path) (result : Survey) (page : List Char)
      (whole : Surveyed files options project config sources result page)
      (passes : ¬ (config.mergePolicy = .error ∧
        ¬ ((declarationsAmong files config sources).map (·.name)).Nodup))
      (ended : Ended files (options.request project config) (pathTo (files.resolve project)) result
        page outcome)

/-- Accepted options lead to one of these courses. -/
theorem course_execute {options : Options} {project : Path} (named : options.project = some project)
    (files : Files) :
    Course files options project (execute options files) := by
  -- First the settings are loaded, and then the first part of the work decides.
  cases loaded : (load files project options.overrides).value with
  | error fault =>
    obtain ⟨untouched, status⟩ := execute_of_fault named loaded
    exact .unloaded fault loaded status untouched
  | ok config =>
    rcases prospect_cases files (options.request project config) with
      ⟨fault, failed, ended⟩ | ⟨sources, found,
        ⟨empty, ended⟩ | ⟨⟨strict, repeats⟩, duplicate, ended⟩ |
        ⟨⟨some, declared, passes⟩, result, surveyed, ended⟩⟩
    · obtain ⟨status, untouched⟩ := execute_of_prospect_error named loaded ended
      exact .unhashable config fault loaded failed status untouched
    · obtain ⟨status, untouched⟩ := execute_of_prospect_error named loaded ended
      exact .nothing config sources loaded found empty status untouched
    · obtain ⟨status, untouched⟩ := execute_of_prospect_error named loaded ended
      exact .repeated config sources loaded found strict repeats status untouched
    · -- The graph of a survey can be drawn, so there is a page to deliver.
      obtain ⟨page, rendered⟩ := exists_render_of_survey surveyed _
      have whole : Surveyed files options project config sources result page :=
        ⟨loaded, found, declared, surveyed, rendered⟩
      exact .surveyed config sources result page whole passes (ended_execute named whole ended)

namespace Course

variable {files : Files} {options : Options} {project : Path} {outcome : Outcome}

/-- Whatever has a page to deliver ends as its delivery does. -/
theorem ended (course : Course files options project outcome) {config : Config}
    {sources : List Path} {result : Survey} {page : List Char}
    (whole : Surveyed files options project config sources result page) :
    Ended files (options.request project config) (pathTo (files.resolve project)) result page
      outcome := by
  -- On every other course one of the steps to the page is missing.
  cases course with
  | unloaded fault failed _ _ => cases whole.loaded.symm.trans failed
  | unhashable config fault loaded failed _ _ =>
    cases whole.loaded.symm.trans loaded
    cases whole.found.symm.trans failed
  | nothing config sources loaded found empty _ _ =>
    cases whole.loaded.symm.trans loaded
    cases whole.found.symm.trans found
    rcases empty with rfl | nothing
    · exact absurd rfl whole.declared
    · exact absurd nothing whole.declared
  | repeated config sources loaded found strict repeats _ _ =>
    cases whole.loaded.symm.trans loaded
    cases whole.found.symm.trans found
    obtain ⟨duplicate, fails⟩ := (survey_fails_iff files config sources).2 ⟨strict, repeats⟩
    cases whole.isResult.symm.trans fails
  | surveyed config sources result page same _ ended =>
    obtain ⟨rfl, rfl, rfl, rfl⟩ := whole.unique same
    exact ended

/-- A command that exits with a fault of its own has changed nothing. -/
theorem untouched_of_ok (course : Course files options project outcome) {status : Nat}
    (exits : outcome.status = .ok status) (fault : status ≠ 0) : Untouched files outcome := by
  cases course with
  | unloaded _ _ _ untouched => exact untouched
  | unhashable _ _ _ _ _ untouched => exact untouched
  | nothing _ _ _ _ _ _ untouched => exact untouched
  | repeated _ _ _ _ _ _ _ untouched => exact untouched
  | surveyed config sources result page whole passes ended =>
    -- Once there is a page, the only exit status of its own is 0.
    rcases ended.cases with ⟨_, isZero⟩ | ⟨_, ⟨stop, isError⟩, _⟩
    · exact absurd (Except.ok.inj (exits.symm.trans isZero)) fault
    · cases exits.symm.trans isError

/-- A failing command has changed something exactly if there is a page, its delivery fails and the
attempt has changed something. -/
theorem leaves_iff (course : Course files options project outcome) :
    (outcome.exitStatus ≠ 0 ∧ ¬ Untouched files outcome) ↔ ∃ config sources result page,
      Surveyed files options project config sources result page ∧
      FailsToDeliver files (options.request project config) (pathTo (files.resolve project))
        result.graph page ∧
      (files.attempt ((options.request project config).outputs (pathTo (files.resolve project))
        result.graph page)).2 ≠ files := by
  constructor
  · -- On all courses but one nothing is touched.
    rintro ⟨fails, touched⟩
    cases course with
    | unloaded _ _ _ untouched => exact absurd untouched touched
    | unhashable _ _ _ _ _ untouched => exact absurd untouched touched
    | nothing _ _ _ _ _ _ untouched => exact absurd untouched touched
    | repeated _ _ _ _ _ _ _ untouched => exact absurd untouched touched
    | surveyed config sources result page whole passes ended =>
      exact ⟨config, sources, result, page, whole, ended.leaves_iff.mp ⟨fails, touched⟩⟩
  · rintro ⟨config, sources, result, page, whole, late⟩
    exact (course.ended whole).leaves_iff.mpr late

/-- Where nothing is declared no name repeats. -/
theorem nodup_of_empty {config : Config} {sources : List Path}
    (empty : sources = [] ∨ declarationsAmong files config sources = []) :
    ((declarationsAmong files config sources).map (·.name)).Nodup := by
  rcases empty with rfl | nothing
  · exact List.nodup_nil
  · rw [nothing]
    exact List.nodup_nil

/-- The exit status, if the settings exclude nothing but names. -/
theorem statuses (course : Course files options project outcome) {config : Config}
    (loaded : (load files project options.overrides).value = .ok config)
    (names : ∀ item ∈ config.exclude, ∃ name, item = .text name) :
    ∃ sources, discover files (pathTo (files.resolve project)) config.exclude = .ok sources ∧
      (outcome.exitStatus = 2 ↔ config.mergePolicy = .error ∧
        ¬ ((declarationsAmong files config sources).map (·.name)).Nodup) ∧
      (outcome.status = .ok 1 ↔ sources = [] ∨ declarationsAmong files config sources = []) ∧
      (outcome.exitStatus = 1 ↔
        (sources = [] ∨ declarationsAmong files config sources = []) ∨
        ∃ result page, Surveyed files options project config sources result page ∧
          FailsToDeliver files (options.request project config) (pathTo (files.resolve project))
            result.graph page) := by
  -- What the status says of a page to deliver is the same on all courses.
  have delivering {sources : List Path} : (∃ result page,
      Surveyed files options project config sources result page ∧
      FailsToDeliver files (options.request project config) (pathTo (files.resolve project))
        result.graph page) → outcome.exitStatus = 1 ∧ outcome.status ≠ .ok 1 := by
    rintro ⟨result, page, whole, fails⟩
    rcases (course.ended whole).cases with ⟨well, _⟩ | ⟨_, ⟨stop, isError⟩, _⟩
    · exact absurd fails well
    · unfold Outcome.exitStatus
      rw [isError]
      exact ⟨rfl, fun same => by cases same⟩
  unfold Outcome.exitStatus at delivering ⊢
  cases course with
  | unloaded fault failed status untouched => cases loaded.symm.trans failed
  | unhashable other fault isLoaded failed status untouched =>
    cases loaded.symm.trans isLoaded
    -- Names can be members of a set.
    have hashable : unhashable? config.exclude = none := by
      rw [unhashable?_eq_none_iff]
      intro item among
      obtain ⟨name, rfl⟩ := names item among
      rfl
    obtain ⟨sources, found⟩ :=
      (exists_discover_iff files (pathTo (files.resolve project)) config.exclude).2 hashable
    cases failed.symm.trans found
  | nothing other sources isLoaded found empty status untouched =>
    cases loaded.symm.trans isLoaded
    rw [status]
    refine ⟨sources, found, iff_of_false (fun same => by cases same) ?_, iff_of_true rfl empty,
      iff_of_true rfl (.inl empty)⟩
    exact fun repeats => repeats.2 (nodup_of_empty empty)
  | repeated other sources isLoaded found strict repeats status untouched =>
    cases loaded.symm.trans isLoaded
    rw [status] at delivering ⊢
    have some (empty : sources = [] ∨ declarationsAmong files config sources = []) : False :=
      repeats (nodup_of_empty empty)
    refine ⟨sources, found, iff_of_true rfl ⟨strict, repeats⟩,
      iff_of_false (fun same => by cases same) some, iff_of_false (fun same => by cases same) ?_⟩
    rintro (empty | late)
    · exact some empty
    · cases (delivering late).1
  | surveyed other sources result page whole passes ended =>
    cases loaded.symm.trans whole.loaded
    have some : ¬ (sources = [] ∨ declarationsAmong files config sources = []) := by
      rintro (rfl | nothing)
      · exact whole.declared rfl
      · exact whole.declared nothing
    refine ⟨sources, whole.found, ?_⟩
    rcases ended.cases with ⟨well, isZero⟩ | ⟨fails, ⟨stop, isError⟩, _⟩
    · rw [isZero] at delivering ⊢
      refine ⟨iff_of_false (fun same => by cases same) passes,
        iff_of_false (fun same => by cases same) some, iff_of_false (fun same => by cases same) ?_⟩
      rintro (empty | late)
      · exact some empty
      · cases (delivering late).1
    · rw [isError]
      exact ⟨iff_of_false (fun same => by cases same) passes,
        iff_of_false (fun same => by cases same) some,
        iff_of_true rfl (.inr ⟨result, page, whole, fails⟩)⟩

/-- A command that returns has delivered. -/
theorem delivered (course : Course files options project outcome)
    (returns : outcome.exitStatus = 0) :
    ∃ config sources result, (load files project options.overrides).value = .ok config ∧
      discover files (pathTo (files.resolve project)) config.exclude = .ok sources ∧
      (survey files config sources).value = .ok result ∧
      Delivered (options.request project config) (pathTo (files.resolve project)) result { files }
        outcome.desk := by
  unfold Outcome.exitStatus at returns
  -- Of all courses only the delivery ends with the status 0.
  cases course with
  | unloaded fault failed status untouched =>
    rcases status with isTwo | isError
    · rw [isTwo] at returns
      cases returns
    · rw [isError] at returns
      cases returns
  | unhashable config fault loaded failed status untouched =>
    rw [status] at returns
    cases returns
  | nothing config sources loaded found empty status untouched =>
    rw [status] at returns
    cases returns
  | repeated config sources loaded found strict repeats status untouched =>
    rw [status] at returns
    cases returns
  | surveyed config sources result page whole passes ended =>
    rcases ended.cases with ⟨well, isZero⟩ | ⟨_, ⟨stop, isError⟩, _⟩
    · exact ⟨config, sources, result, whole.loaded, whole.found, whole.isResult,
        ended.delivered whole.rendered well⟩
    · rw [isError] at returns
      cases returns

end Course

/-- A command that ends with the reading of its arguments leaves nothing behind. -/
theorem allOrNothing_endedEarly {arguments : List String} {ending : Ending}
    (refused : Options.read arguments = .error ending) (files : Files) (status : Nat)
    (printed errors : String) :
    AllOrNothing arguments files (endedEarly files status printed errors) where
  leaves := by
    -- What is left behind would need options, and there are none.
    refine iff_of_false (fun both => both.2 ⟨rfl, rfl⟩) ?_
    rintro ⟨options, _, _, _, _, _, accepted, _⟩
    cases refused.symm.trans accepted
  exits _ _ _ := ⟨rfl, rfl⟩
  works options accepted := by cases refused.symm.trans accepted

/-- Whatever the arguments and the tree, a command that exits with a fault of its own has changed
nothing, and one that fails at all has changed something exactly if the page or the data cannot be
delivered once their writing has begun. On accepted arguments and settings the exit status is 2 for
a name that must not repeat, and 1 where there is nothing to be found or the delivery fails. One
that returns has written the page, and the data exactly if that was asked for, of one and the same
graph. -/
theorem allOrNothing_runCommand (arguments : List String) (files : Files) :
    AllOrNothing arguments files (runCommand arguments files) := by
  unfold runCommand
  cases accepted : Options.read arguments with
  | error ending =>
    cases ending with
    | help => exact allOrNothing_endedEarly accepted files 0 helpText ""
    | fault fault => exact allOrNothing_endedEarly accepted files 2 "" _
  | ok options =>
    obtain ⟨project, named⟩ := exists_project_of_read accepted
    have course := course_execute named files
    refine ⟨?_, fun _ => course.untouched_of_ok, fun other isOptions => ?_⟩
    · -- The options and the project are those that the arguments name.
      rw [course.leaves_iff]
      constructor
      · rintro ⟨config, sources, result, page, late⟩
        exact ⟨options, project, config, sources, result, page, accepted, named, late⟩
      · rintro ⟨other, path, config, sources, result, page, isOptions, isProject, late⟩
        cases accepted.symm.trans isOptions
        cases named.symm.trans isProject
        exact ⟨config, sources, result, page, late⟩
    · cases accepted.symm.trans isOptions
      exact ⟨project, named, fun config => course.statuses, course.delivered⟩

/-- A page that should be opened although its path does not begin at the root. -/
def relativeOpening : Options where
  project := some ⟨.relative, []⟩
  output := some ⟨.relative, ["out.html"]⟩
  openPage := true

/-- The one class of a project is drawn for such a page. -/
theorem exists_surveyed_relativeOpening : ∃ result page, Surveyed lonelyClass relativeOpening
    ⟨.relative, []⟩ {} [⟨.root, ["p", "A.java"]⟩] result page := by
  -- A name that repeats would not be an error, so there is a survey, and with it a page.
  cases surveyed : (survey lonelyClass {} [⟨.root, ["p", "A.java"]⟩]).value with
  | error duplicate =>
    have strict := ((survey_fails_iff lonelyClass {} _).1 ⟨duplicate, surveyed⟩).1
    cases strict
  | ok result =>
    obtain ⟨page, rendered⟩ := exists_render_of_survey surveyed "p"
    exact ⟨result, page, rfl, discover_lonelyClass, declarationsAmong_lonelyClass, surveyed,
      rendered⟩

/-- The page is written, then it cannot be opened: the command fails and the page stays. -/
theorem page_left_by_relativeOpening :
    (runCommand [".", "-o", "out.html", "--open"] lonelyClass).exitStatus = 1 ∧
      ¬ Untouched lonelyClass (runCommand [".", "-o", "out.html", "--open"] lonelyClass) := by
  have read : runCommand [".", "-o", "out.html", "--open"] lonelyClass =
      execute relativeOpening lonelyClass := rfl
  rw [read]
  obtain ⟨result, page, whole⟩ := exists_surveyed_relativeOpening
  have ended := (course_execute rfl lonelyClass).ended whole
  rcases ended.cases with ⟨well, _⟩ | ⟨_, ⟨stop, isError⟩, _⟩
  · exact absurd (.inr ⟨rfl, rfl⟩) well
  · refine ⟨?_, fun untouched => ?_⟩
    · unfold Outcome.exitStatus
      rw [isError]
    · -- Whatever its bytes are, there was no file at the place of the page.
      have written (bytes : List UInt8) : ((lonelyClass.attempt
          [(⟨.relative, ["out.html"]⟩, bytes)]).2.at? ["p", "out.html"]).isSome = true := rfl
      have left := congrArg (fun files => (files.at? ["p", "out.html"]).isSome)
        (ended.left.symm.trans untouched.1)
      cases (written (Text.encode page)).symm.trans left

end Lineage.Command
