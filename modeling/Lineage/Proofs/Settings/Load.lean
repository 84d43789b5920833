import Lineage.Proofs.Settings.Config
import Lineage.Proofs.Text.Utf8
import Lineage.Settings.Load

/-! Where the settings of a project come from: which of its files counts, and what goes over
what. -/

namespace Lineage.Settings

open Lineage.Files

/-- The settings file of a project itself. -/
def ownFile (project : Path) : Path :=
  project.child ".inheritzoom.toml"

/-- The settings file that a project has for many tools. -/
def sharedFile (project : Path) : Path :=
  project.child "pyproject.toml"

/-- The document in a file: it can be read, its bytes make a text, and the text is well formed. -/
def document? (files : Files) (path : Path) : Option Toml.Entries :=
  match files.read path with
  | .error _ => none
  | .ok bytes =>
    match Text.decode bytes with
    | .error _ => none
    | .ok text => (Toml.parse text).toOption

/-- The fault of a file that is neither a document nor passed over: its bytes make no text, or a
number in it has too many digits to be read. -/
def fatal? (files : Files) (path : Path) : Option LoadFault :=
  match files.read path with
  | .error _ => none
  | .ok bytes =>
    match Text.decode bytes with
    | .error fault => some (.notText fault)
    | .ok text =>
      match Toml.parse text with
      | .error (.tooManyDigits count) => some (.tooManyDigits count)
      | _ => none

/-- The bytes of a file make no text. -/
def NotText (files : Files) (path : Path) : Prop :=
  ∃ bytes, files.read path = .ok bytes ∧ ∀ text, bytes ≠ Text.encode text

/-- A number in a file has too many digits to be read. -/
def Overlong (files : Files) (path : Path) : Prop :=
  ∃ text count, files.read path = .ok (Text.encode text) ∧
    Toml.parse text = .error (.tooManyDigits count)

/-- A file cannot be read, or its bytes make no text, or they are the bytes of a text. -/
theorem read_cases (files : Files) (path : Path) :
    (∃ fault, files.read path = .error fault) ∨
    (∃ bytes fault, files.read path = .ok bytes ∧ Text.decode bytes = .error fault) ∨
    ∃ text, files.read path = .ok (Text.encode text) := by
  cases files.read path with
  | error fault => exact .inl ⟨fault, rfl⟩
  | ok bytes =>
    cases decoded : Text.decode bytes with
    | error fault => exact .inr (.inl ⟨bytes, fault, rfl, decoded⟩)
    | ok text => exact .inr (.inr ⟨text, by rw [Text.decode_eq_ok_iff.1 decoded]⟩)

/-- The fault is there exactly if the bytes make no text or a number is too long. -/
theorem fatal?_isSome_iff {files : Files} {path : Path} :
    (fatal? files path).isSome = true ↔ NotText files path ∨ Overlong files path := by
  unfold fatal? NotText Overlong
  rcases read_cases files path with ⟨fault, read⟩ | ⟨bytes, fault, read, undecoded⟩ | ⟨text, read⟩
  · simp [read]
  · simp [read, undecoded, Text.ne_encode_of_decode undecoded]
  · -- One text has these bytes, and only how it is parsed is left to see.
    simp only [read, Text.decode_encode, Except.ok.injEq, Text.encode_inj]
    cases parsed : Toml.parse text with
    | ok entries => simp [Text.encode_inj, parsed]
    | error fault =>
      cases fault with
      | malformed => simp [Text.encode_inj, parsed]
      | tooManyDigits count => simp [parsed]

/-- What is read from a settings file, apart from the notes. -/
theorem value_readDocument (files : Files) (path : Path) :
    (readDocument files path).value =
      match fatal? files path with
      | some fault => .error fault
      | none => .ok (document? files path) := by
  -- The cases are those of reading, decoding and parsing.
  unfold readDocument fatal? document?
  cases files.read path with
  | error fault => rfl
  | ok bytes =>
    dsimp only
    cases Text.decode bytes with
    | error fault => rfl
    | ok text =>
      dsimp only
      cases Toml.parse text with
      | ok entries => rfl
      | error fault =>
        cases fault with
        | malformed => rfl
        | tooManyDigits count => rfl

/-- Nothing can be read where nothing is. -/
theorem read_of_not_isPresent {files : Files} {path : Path}
    (missing : files.isPresent path = false) :
    ∃ fault, files.read path = .error fault := by
  -- Where nothing is found nothing can be read.
  unfold isPresent lookup at missing
  unfold Files.read
  cases located : files.locate path with
  | error fault => exact ⟨fault, rfl⟩
  | ok place =>
    rw [located] at missing
    dsimp only at missing
    cases there : files.at? place with
    | some entry =>
      rw [there] at missing
      cases missing
    | none => exact ⟨⟨.notFound, path⟩, by simp [bind, Except.bind, there]⟩

/-- The table under a name, which is empty if nothing is there, or else the value that is in its
place. -/
def tableAt (name : String) (entries : Toml.Entries) : Except Value Toml.Entries :=
  match entries.lookup name with
  | none => .ok []
  | some (.table inner) => .ok inner
  | some other => .error other

/-- The settings table of a project with the given documents, or else the value that is in the place
of a table. A document of the project's own leaves no room for the shared one. -/
def settingsTable (own shared : Option Toml.Entries) : Except Value Toml.Entries :=
  match own, shared with
  | some document, _ => tableAt "inheritzoom" document
  | none, some document => do tableAt "inheritzoom" (← tableAt "tool" document)
  | none, none => .ok []

/-- A table that is missing counts as an empty one. -/
theorem asTable_getD (place name : String) (entries : Toml.Entries) :
    asTable place ((entries.lookup name).getD (.table [])) =
      (tableAt name entries).mapError fun value => .ofConfig (.notTable place value) := by
  unfold tableAt
  cases entries.lookup name with
  | none => rfl
  | some value => cases value <;> rfl

/-- What is in the place of a table is what a fault says, and a table is what it is. -/
def Finds (table : Except Value Toml.Entries) (result : Except LoadFault (Option Toml.Entries)) :
    Prop :=
  match table with
  | .error value => ∃ place, result = .error (.ofConfig (.notTable place value))
  | .ok entries => ∃ found, result = .ok found ∧ found.getD [] = entries

/-- The table of a project's own file is the one under its name. -/
theorem finds_ownTable (path : Path) (entries : Toml.Entries) :
    Finds (tableAt "inheritzoom" entries) ((ownTable path entries).map some) := by
  rw [ownTable, asTable_getD]
  cases tableAt "inheritzoom" entries with
  | error value => exact ⟨_, rfl⟩
  | ok table => exact ⟨some table, rfl, rfl⟩

/-- The table of a shared file is the one under its two names. -/
theorem finds_sharedTable (path : Path) (entries : Toml.Entries) :
    Finds (do tableAt "inheritzoom" (← tableAt "tool" entries)) (sharedTable path entries) := by
  unfold sharedTable
  rw [asTable_getD]
  cases tableAt "tool" entries with
  | error value => exact ⟨_, rfl⟩
  | ok tools =>
    show Finds (tableAt "inheritzoom" tools) _
    -- Here a table that is not there is told from one that is empty, which makes no difference
    -- further on.
    unfold tableAt
    dsimp only [Except.mapError, bind, Except.bind]
    cases tools.lookup "inheritzoom" with
    | none => exact ⟨none, rfl, rfl⟩
    | some value =>
      cases value with
      | table inner => exact ⟨some inner, rfl, rfl⟩
      | _ => exact ⟨_, rfl⟩

/-- A file that is not there has no fault and no document. -/
theorem fatal?_of_not_isPresent {files : Files} {path : Path}
    (missing : files.isPresent path = false) :
    fatal? files path = none ∧ document? files path = none := by
  obtain ⟨fault, unread⟩ := read_of_not_isPresent missing
  unfold fatal? document?
  rw [unread]
  exact ⟨rfl, rfl⟩

/-- The shared file stops the load, counts for nothing or gives its table. -/
theorem value_readShared (files : Files) (project : Path) :
    (readShared files project).value =
      match fatal? files (sharedFile project), document? files (sharedFile project) with
      | some fault, _ => .error fault
      | none, none => .ok none
      | none, some entries => sharedTable (sharedFile project) entries := by
  -- A file that is not there cannot be read, so it counts for nothing.
  unfold readShared sharedFile
  dsimp only
  cases present : files.isPresent (project.child "pyproject.toml") with
  | false =>
    rw [(fatal?_of_not_isPresent present).1, (fatal?_of_not_isPresent present).2]
    rfl
  | true =>
    simp only [Bool.not_true, Bool.false_eq_true, if_false, Logged.value_bind, value_readDocument]
    cases fatal? files (project.child "pyproject.toml") with
    | some fault => rfl
    | none => cases document? files (project.child "pyproject.toml") <;> rfl

/-- A project's own file stops the load, gives way to the shared file or gives its table. -/
theorem value_readTable (files : Files) (project : Path) :
    (readTable files project).value =
      match fatal? files (ownFile project), document? files (ownFile project) with
      | some fault, _ => .error fault
      | none, none => (readShared files project).value
      | none, some entries => (ownTable (ownFile project) entries).map some := by
  -- A file that is not there cannot be read, so it gives way.
  unfold readTable ownFile
  dsimp only
  cases present : files.isPresent (project.child ".inheritzoom.toml") with
  | false =>
    rw [(fatal?_of_not_isPresent present).1, (fatal?_of_not_isPresent present).2]
    rfl
  | true =>
    simp only [Bool.not_true, Bool.false_eq_true, if_false, Logged.value_bind, value_readDocument]
    cases fatal? files (project.child ".inheritzoom.toml") with
    | some fault => rfl
    | none => cases document? files (project.child ".inheritzoom.toml") <;> rfl

/-- The fault that ends the loading whatever the settings are. The shared file is looked at only if
there is no document in the project's own. -/
def escape? (files : Files) (project : Path) : Option LoadFault :=
  match fatal? files (ownFile project), document? files (ownFile project) with
  | some fault, _ => some fault
  | none, some _ => none
  | none, none => fatal? files (sharedFile project)

/-- The settings table of a project is the one that its documents make, unless loading ends
before. -/
theorem readTable_cases (files : Files) (project : Path) :
    (∃ fault, escape? files project = some fault ∧ (readTable files project).value = .error fault) ∨
    (escape? files project = none ∧
      Finds (settingsTable (document? files (ownFile project))
        (document? files (sharedFile project))) (readTable files project).value) := by
  rw [value_readTable]
  unfold escape?
  cases fatal? files (ownFile project) with
  | some fault => exact .inl ⟨fault, rfl, rfl⟩
  | none =>
    cases document? files (ownFile project) with
    | some entries => exact .inr ⟨rfl, finds_ownTable (ownFile project) entries⟩
    | none =>
      -- Only now the shared file is looked at.
      rw [value_readShared]
      cases fatal? files (sharedFile project) with
      | some fault => exact .inl ⟨fault, rfl, rfl⟩
      | none =>
        cases document? files (sharedFile project) with
        | some entries => exact .inr ⟨rfl, finds_sharedTable (sharedFile project) entries⟩
        | none => exact .inr ⟨rfl, none, rfl, rfl⟩

/-- The value under a name. No value at all does not count. -/
def givenIn (overrides : List (String × Value)) (name : String) : Option Value :=
  match overrides.lookup name with
  | some .absent => none
  | other => other

/-- What a setting is: what is given for it, or else what the table says, or else its default. -/
def resolved (overrides : Table String Value) (table : Toml.Entries) (setting : Setting) : Value :=
  (givenIn overrides.entries setting.name).getD (valueIn table setting)

/-- A value that is given goes over the one in the table. -/
theorem lookup_override {overrides : List (String × Value)}
    (distinct : (overrides.map Prod.fst).Nodup) (entries : List (String × Value)) (name : String) :
    (override entries overrides).lookup name =
      (givenIn overrides name).or (entries.lookup name) := by
  unfold override
  induction overrides generalizing entries with
  | nil => rfl
  | cons first more ih =>
    obtain ⟨known, value⟩ := first
    rw [List.map_cons, List.nodup_cons] at distinct
    rw [List.foldl_cons, ih distinct.2]
    unfold givenIn
    by_cases same : name = known
    · -- Nothing further on has this name.
      subst same
      have last : more.lookup name = none := by
        rw [List.lookup_eq_none_iff]
        intro entry later
        have listed : entry.1 ∈ more.map Prod.fst := List.mem_map_of_mem later
        have apart : name ≠ entry.1 := fun same => distinct.1 (same ▸ listed)
        simpa using apart
      rw [last, List.lookup_cons_self]
      cases value with
      | absent => rfl
      | _ => simp [lookup_putEntry]
    · rw [List.lookup_cons, beq_false_of_ne same]
      cases value with
      | absent => rfl
      | _ => simp [lookup_putEntry, same]

/-- What is given on the command line comes before what the table has. -/
theorem valueIn_override (overrides : Table String Value) (table : Toml.Entries)
    (setting : Setting) :
    valueIn (override table overrides.entries) setting = resolved overrides table setting := by
  unfold resolved valueIn
  rw [lookup_override overrides.distinct]
  cases givenIn overrides.entries setting.name <;> rfl

/-- The value that is refused, if one is: what is in the place of a table, or else the first setting
that is not admitted. -/
def refused? (own shared : Option Toml.Entries) (overrides : Table String Value) : Option Value :=
  match settingsTable own shared with
  | .error value => some value
  | .ok table => (firstRefused? (resolved overrides table)).map (resolved overrides table)

/-- Loading ends before the settings are known, or a value is refused, or the settings are what they
are resolved to. -/
theorem load_cases (files : Files) (project : Path) (overrides : Table String Value) :
    (∃ fault, escape? files project = some fault ∧ (load files project overrides.entries).value =
      .error fault) ∨
    (escape? files project = none ∧ ∃ fault : ConfigFault,
      refused? (document? files (ownFile project))
        (document? files (sharedFile project)) overrides =
        some fault.value ∧
      (load files project overrides.entries).value = .error (.ofConfig fault)) ∨
    (escape? files project = none ∧ ∃ table config,
      settingsTable (document? files (ownFile project))
        (document? files (sharedFile project)) = .ok table ∧
      firstRefused? (resolved overrides table) = none ∧
      (load files project overrides.entries).value = .ok config ∧
      ∀ setting, config.value setting = resolved overrides table setting) := by
  -- The table is found or not, and then each value is admitted or one is refused.
  unfold load
  rw [Logged.value_bind]
  rcases readTable_cases files project with ⟨fault, escapes, found⟩ | ⟨stays, finds⟩
  · rw [found]
    exact .inl ⟨fault, escapes, rfl⟩
  refine .inr ?_
  unfold refused?
  cases tabled : settingsTable (document? files (ownFile project))
    (document? files (sharedFile project)) with
  | error value =>
    rw [tabled] at finds
    obtain ⟨place, found⟩ := finds
    rw [found]
    exact .inl ⟨stays, .notTable place value, rfl, rfl⟩
  | ok table =>
    rw [tabled] at finds
    obtain ⟨found, isFound, isTable⟩ := finds
    rw [isFound]
    dsimp only
    rw [Logged.value_bind, value_ofEntries, isTable]
    have values : valueIn (override table overrides.entries) = resolved overrides table :=
      funext (valueIn_override overrides table)
    rcases check_cases (override table overrides.entries) with
      ⟨admitted, config, checked, taken⟩ | ⟨setting, fault, refused, checked, isValue⟩
    · rw [values] at admitted taken
      rw [checked]
      exact .inr ⟨stays, table, config, rfl, admitted, rfl, taken⟩
    · rw [values] at refused isValue
      rw [checked, refused, Option.map_some, ← isValue]
      exact .inl ⟨stays, fault, rfl, rfl⟩

end Lineage.Settings
