import Lineage.Proofs.Settings.Load
import Lineage.Proofs.Toml.Number

/-! The settings of a project are resolved by precedence, and which faults loading them does not
answer for. -/

namespace Lineage.Settings

open Lineage.Files

/-- Loading answers with settings, or refuses a value. -/
def Answers (result : Except LoadFault Config) : Prop :=
  (∃ config, result = .ok config) ∨ ∃ fault, result = .error (.config fault)

/-- What loading has to make of the documents in the settings files and of what is given over
them. -/
structure Resolves (own shared : Option Toml.Entries) (overrides : Table String Value)
    (result : Except LoadFault Config) : Prop where
  /-- Loading answers. -/
  answers : Answers result
  /-- Each setting is what is given for it, or else what the one table says that counts, or else its
  default. -/
  fields : ∀ config, result = .ok config → ∃ table, settingsTable own shared = .ok table ∧
    ∀ setting, config.value setting = resolved overrides table setting
  /-- A value is refused exactly if something else is in the place of a table, or if what a setting
  is resolved to is not admitted, whatever else was said of it. -/
  refuses : (∃ fault, result = .error (.config fault)) ↔
    (∃ value, settingsTable own shared = .error value) ∨
    ∃ table, settingsTable own shared = .ok table ∧
      ∃ setting : Setting, setting.admits (resolved overrides table setting) = false

/-- Nothing is refused exactly if there is a table and every setting admits its value. -/
theorem refused?_eq_none_iff {own shared : Option Toml.Entries} {overrides : Table String Value} :
    refused? own shared overrides = none ↔ ∃ table, settingsTable own shared = .ok table ∧
      ∀ setting : Setting, setting.admits (resolved overrides table setting) = true := by
  -- Without a table the refusal is about the table.
  unfold refused?
  cases settingsTable own shared with
  | error value => simp
  | ok table => simp [firstRefused?_eq_none_iff]

/-- Something is refused exactly if there is no table or a setting does not admit its value. -/
theorem exists_refused?_iff {own shared : Option Toml.Entries} {overrides : Table String Value} :
    (∃ value, refused? own shared overrides = some value) ↔
      (∃ value, settingsTable own shared = .error value) ∨
      ∃ table, settingsTable own shared = .ok table ∧
        ∃ setting : Setting, setting.admits (resolved overrides table setting) = false := by
  -- The setting that is found first is one that does not admit its value.
  unfold refused?
  cases settingsTable own shared with
  | error value => simp
  | ok table =>
    cases found : firstRefused? (resolved overrides table) with
    | none => simp [found, firstRefused?_eq_none_iff.1 found]
    | some setting =>
      have unfit : setting.admits (resolved overrides table setting) = false := by
        simpa using List.find?_some found
      have one : ∃ setting : Setting, setting.admits (resolved overrides table setting) = false :=
        ⟨setting, unfit⟩
      simp [found, one]

/-- A fault of a file is none of its settings. -/
theorem fatal?_ne_config {files : Files} {path : Path} {fault : LoadFault}
    (fatal : fatal? files path = some fault) (refusal : ConfigFault) : fault ≠ .config refusal := by
  unfold fatal? at fatal
  rintro rfl
  split at fatal
  · cases fatal
  split at fatal
  · cases fatal
  split at fatal
  · cases fatal
  · cases fatal

/-- What stops the load is no refusal. -/
theorem escape?_ne_config {files : Files} {project : Path} {fault : LoadFault}
    (escapes : escape? files project = some fault) (refusal : ConfigFault) :
    fault ≠ .config refusal := by
  unfold escape? at escapes
  split at escapes
  · rename_i own
    cases escapes
    exact fatal?_ne_config own refusal
  · cases escapes
  · exact fatal?_ne_config escapes refusal

/-- Loading goes on exactly if no file that is looked at has a fault. -/
theorem escape?_eq_none_iff {files : Files} {project : Path} :
    escape? files project = none ↔
      fatal? files (ownFile project) = none ∧
      (document? files (ownFile project) = none → fatal? files (sharedFile project) = none) := by
  -- The shared file is asked only if the own one gives no document.
  unfold escape?
  cases fatal? files (ownFile project) with
  | some fault => simp
  | none => cases document? files (ownFile project) <;> simp

theorem fatal?_eq_none_iff {files : Files} {path : Path} :
    fatal? files path = none ↔ ¬ NotText files path ∧ ¬ Overlong files path := by
  rw [← not_or, ← fatal?_isSome_iff, Option.not_isSome_iff_eq_none]

/-- A refusal is answered for if its message can show the value. -/
theorem ofConfig_cases (fault : ConfigFault) :
    (fault.value.isShowable = true ∧ LoadFault.ofConfig fault = .config fault) ∨
    (fault.value.isShowable = false ∧ LoadFault.ofConfig fault = .unshowable) := by
  unfold LoadFault.ofConfig
  cases fault.value.isShowable with
  | true => exact .inl ⟨rfl, rfl⟩
  | false => exact .inr ⟨rfl, rfl⟩

section

variable (files : Files) (project : Path) (overrides : Table String Value)

/-- The fault of a file is all that loading comes to. -/
theorem value_load_of_escape? {fault : LoadFault} (escapes : escape? files project = some fault) :
    (load files project overrides.entries).value = .error fault := by
  rcases load_cases files project overrides with ⟨other, same, loaded⟩ | ⟨stays, _⟩ | ⟨stays, _⟩
  · rw [loaded, Option.some.inj (same.symm.trans escapes)]
  · cases escapes.symm.trans stays
  · cases escapes.symm.trans stays

/-- Loading answers exactly if no file that is looked at has a fault and a value that is refused can
be shown. -/
theorem answers_load_iff :
    Answers (load files project overrides.entries).value ↔
      escape? files project = none ∧
      ∀ value, refused? (document? files (ownFile project))
        (document? files (sharedFile project)) overrides =
        some value → value.isShowable = true := by
  rcases load_cases files project overrides with
    ⟨fault, escapes, loaded⟩ | ⟨stays, fault, refused, loaded⟩
      | ⟨stays, table, config, tabled, admitted, loaded, taken⟩
  · -- The fault of a file is neither settings nor a refusal.
    have silent : ¬ Answers (load files project overrides.entries).value := by
      rw [loaded]
      rintro (⟨config, same⟩ | ⟨refusal, same⟩)
      · cases same
      · exact escape?_ne_config escapes refusal (Except.error.inj same)
    simp [silent, escapes]
  · rw [loaded, refused]
    rcases ofConfig_cases fault with ⟨shown, isFault⟩ | ⟨unshown, isFault⟩
    · simp [Answers, isFault, stays, shown]
    · simp [Answers, isFault, unshown]
  · have none : refused? (document? files (ownFile project)) (document? files (sharedFile project))
      overrides = none :=
      refused?_eq_none_iff.2 ⟨table, tabled, firstRefused?_eq_none_iff.1 admitted⟩
    simp [Answers, loaded, stays, none]

/-- If loading answers, then as precedence has it. -/
theorem resolves_load_iff :
    Resolves (document? files (ownFile project)) (document? files (sharedFile project)) overrides
      (load files project overrides.entries).value ↔ Answers
      (load files project overrides.entries).value := by
  refine ⟨Resolves.answers, fun answers => ?_⟩
  rcases load_cases files project overrides with
    ⟨fault, escapes, loaded⟩ | ⟨stays, fault, refused, loaded⟩
      | ⟨stays, table, config, tabled, admitted, loaded, taken⟩
  · have stays := ((answers_load_iff files project overrides).1 answers).1
    cases escapes.symm.trans stays
  · -- A refusal that is answered for is one that can be shown.
    have shown := ((answers_load_iff files project overrides).1 answers).2 _ refused
    rw [loaded, LoadFault.ofConfig, if_pos shown] at answers ⊢
    refine ⟨answers, fun config same => (by cases same), ?_⟩
    rw [← exists_refused?_iff]
    exact ⟨fun _ => ⟨fault.value, refused⟩, fun _ => ⟨fault, rfl⟩⟩
  · rw [loaded] at answers ⊢
    refine ⟨answers, fun other same => ?_, ?_⟩
    · cases same
      exact ⟨table, tabled, taken⟩
    · have none := refused?_eq_none_iff.2 ⟨table, tabled, firstRefused?_eq_none_iff.1 admitted⟩
      rw [← exists_refused?_iff, none]
      simp

/-- Where both settings files are texts, the settings are resolved by strict precedence exactly if
no document that is looked at has a whole number with too many digits, and a value that is refused
has none either: an own document comes before the shared one and is never mixed with it, what is
given goes over what the table says and that over the default, and only what is left after this is
checked. A name that is no setting changes nothing. -/
theorem load_resolves_iff
    (texts : ¬ NotText files (ownFile project) ∧ ¬ NotText files (sharedFile project)) :
    (Resolves (document? files (ownFile project)) (document? files (sharedFile project)) overrides
        (load files project overrides.entries).value ↔
      ¬ Overlong files (ownFile project) ∧
      (document? files (ownFile project) = none → ¬ Overlong files (sharedFile project)) ∧
      ∀ value, refused? (document? files (ownFile project))
        (document? files (sharedFile project)) overrides =
        some value → value.isShowable = true) ∧
    ∀ one other : List (String × Value),
      (∀ setting : Setting, one.lookup setting.name = other.lookup setting.name) →
      (Config.ofEntries one).value = (Config.ofEntries other).value := by
  -- The load answers exactly if neither file stops it, and it asks for settings by name only.
  constructor
  · rw [resolves_load_iff, answers_load_iff, escape?_eq_none_iff, fatal?_eq_none_iff,
      fatal?_eq_none_iff, and_assoc]
    simp [texts.1, texts.2]
  · intro one other same
    rw [value_ofEntries, value_ofEntries, check_congr same]

end

/-- The project at the working directory. -/
def topProject : Path :=
  ⟨.relative, []⟩

/-- A tree with nothing in it but the settings file of that project itself. -/
def ownFileAlone (bytes : List UInt8) : Files :=
  ⟨Table.empty.put [".inheritzoom.toml"] (.file bytes), []⟩

theorem read_ownFileAlone (bytes : List UInt8) :
    (ownFileAlone bytes).read (ownFile topProject) = .ok bytes :=
  rfl

/-- Neither file is without text: the one is encoded and the other is missing. -/
theorem texts_ownFileAlone (text : List Char) :
    ¬ NotText (ownFileAlone (Text.encode text)) (ownFile topProject) ∧
    ¬ NotText (ownFileAlone (Text.encode text)) (sharedFile topProject) := by
  constructor
  · rintro ⟨bytes, read, foreign⟩
    rw [read_ownFileAlone] at read
    exact foreign text (Except.ok.inj read).symm
  · -- There is no shared file that could be read.
    rintro ⟨bytes, read, _⟩
    cases read

/-- Too long a number in the own file ends the loading. -/
theorem escape?_ownFileAlone {text : List Char} {count : Nat}
    (long : Toml.parse text = .error (.tooManyDigits count)) :
    escape? (ownFileAlone (Text.encode text)) topProject = some (.tooManyDigits count) := by
  unfold escape? fatal?
  rw [read_ownFileAlone]
  dsimp only
  rw [Text.decode_encode]
  dsimp only
  rw [long]

/-- A policy that there is not, in the settings of a project. -/
def newestText : List Char :=
  "[inheritzoom]\nmerge_policy = \"newest\"\n".toList

theorem parse_newestText :
    Toml.parse newestText = .ok [("inheritzoom", .table [("merge_policy", .text "newest")])] :=
  rfl

/-- A policy that is given. -/
def lastGiven : Table String Value :=
  Table.empty.put "merge_policy" (.text "last")

/-- A value that is not admitted does no harm under one that is given and admitted. -/
theorem load_resolves_iff_masked :
    (¬ NotText (ownFileAlone (Text.encode newestText)) (ownFile topProject) ∧
      ¬ NotText (ownFileAlone (Text.encode newestText)) (sharedFile topProject)) ∧
    document? (ownFileAlone (Text.encode newestText)) (ownFile topProject) =
      some [("inheritzoom", .table [("merge_policy", .text "newest")])] ∧
    Setting.mergePolicy.admits (.text "newest") = false ∧
    Resolves (document? (ownFileAlone (Text.encode newestText)) (ownFile topProject))
      (document? (ownFileAlone (Text.encode newestText)) (sharedFile topProject)) lastGiven
      (load (ownFileAlone (Text.encode newestText)) topProject lastGiven.entries).value := by
  have texts := texts_ownFileAlone newestText
  have own : document? (ownFileAlone (Text.encode newestText)) (ownFile topProject) =
      some [("inheritzoom", .table [("merge_policy", .text "newest")])] := by
    unfold document?
    rw [read_ownFileAlone]
    dsimp only
    rw [Text.decode_encode]
    dsimp only
    rw [parse_newestText]
    rfl
  refine ⟨texts, own, rfl, ?_⟩
  apply (load_resolves_iff (ownFileAlone (Text.encode newestText)) topProject lastGiven texts).1.2
  refine ⟨?_, ?_, ?_⟩
  · rintro ⟨text, count, read, long⟩
    rw [read_ownFileAlone, Except.ok.injEq, Text.encode_inj] at read
    rw [← read, parse_newestText] at long
    cases long
  · intro missing
    cases own.symm.trans missing
  · -- Nothing is refused.
    intro value refused
    rw [own] at refused
    cases refused

/-- The text of an own settings file with a number of 4301 digits, which no setting asks for. -/
def overlongText : List Char :=
  'x' :: '=' :: List.replicate 4301 '1'

/-- With that file a project has no settings, and no value is refused either. -/
theorem not_resolves_load_overlong :
    (¬ NotText (ownFileAlone (Text.encode overlongText)) (ownFile topProject) ∧
      ¬ NotText (ownFileAlone (Text.encode overlongText)) (sharedFile topProject)) ∧
    (load (ownFileAlone (Text.encode overlongText)) topProject []).value = .error
      (.tooManyDigits 4301) ∧
    ¬ Resolves (document? (ownFileAlone (Text.encode overlongText)) (ownFile topProject))
      (document? (ownFileAlone (Text.encode overlongText)) (sharedFile topProject)) .empty
      (load (ownFileAlone (Text.encode overlongText)) topProject []).value := by
  have long : Toml.parse overlongText = .error (.tooManyDigits 4301) :=
    @Toml.parse_ones 4296 (by decide)
  have escapes := escape?_ownFileAlone long
  -- What the text says does not matter any more.
  generalize overlongText = text at escapes ⊢
  have loaded := value_load_of_escape? _ _ .empty escapes
  refine ⟨texts_ownFileAlone text, loaded, fun resolves => ?_⟩
  have stays := ((answers_load_iff _ topProject .empty).1 resolves.answers).1
  cases escapes.symm.trans stays

end Lineage.Settings
