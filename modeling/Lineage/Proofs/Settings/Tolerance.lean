import Lineage.Proofs.Settings.Precedence

/-! Faults of settings files: which of them are noted and passed over, and which end the loading. -/

namespace Lineage.Settings

open Lineage.Files

/-- A settings file is there but cannot be used, and why: it cannot be read, or its text is not well
formed. -/
def PassedOver (files : Files) (path : Path) (reason : String) : Prop :=
  files.isPresent path = true ∧
  ((∃ fault, files.read path = .error fault ∧ reason = fault.message) ∨
    ∃ text, files.read path = .ok (Text.encode text) ∧ Toml.parse text = .error .malformed ∧
      reason = "<TOMLDecodeError>")

/-- What is noted of such a file. -/
def unreadNote (path : Path) (reason : String) : Note :=
  ⟨.warning, "Could not read " ++ path.text ++ ": " ++ reason⟩

/-- Such a file is no document, and it has no fault that would end the loading. -/
theorem PassedOver.unused {files : Files} {path : Path} {reason : String}
    (passed : PassedOver files path reason) :
    fatal? files path = none ∧ document? files path = none := by
  -- Both look at the bytes first, and then at the text.
  unfold fatal? document?
  obtain ⟨_, ⟨fault, unread, _⟩ | ⟨text, read, malformed, _⟩⟩ := passed
  · rw [unread]
    exact ⟨rfl, rfl⟩
  · rw [read]
    dsimp only
    rw [Text.decode_encode]
    dsimp only
    rw [malformed]
    exact ⟨rfl, rfl⟩

/-- A file that is passed over is noted by the reading. -/
theorem PassedOver.mem_notes_readDocument {files : Files} {path : Path} {reason : String}
    (passed : PassedOver files path reason) :
    unreadNote path reason ∈ (readDocument files path).notes := by
  -- It cannot be read, or its text is malformed.
  unfold readDocument
  obtain ⟨_, ⟨fault, unread, rfl⟩ | ⟨text, read, malformed, rfl⟩⟩ := passed
  · rw [unread]
    exact List.mem_singleton_self _
  · rw [read]
    dsimp only
    rw [Text.decode_encode]
    dsimp only
    rw [malformed]
    exact List.mem_singleton_self _

/-- What was noted first stays noted. -/
theorem mem_notes_bind {α β : Type} {first : Logged α} {next : α → Logged β} {note : Note}
    (noted : note ∈ first.notes) : note ∈ (first >>= next).notes :=
  List.mem_append_left _ noted

theorem mem_notes_bind_next {α β : Type} {first : Logged α} {next : α → Logged β} {note : Note}
    (noted : note ∈ (next first.value).notes) : note ∈ (first >>= next).notes :=
  List.mem_append_right _ noted

section

variable {files : Files} {project : Path} {overrides : List (String × Value)} {note : Note}

theorem mem_notes_load_of_readTable (noted : note ∈ (readTable files project).notes) :
    note ∈ (load files project overrides).notes :=
  mem_notes_bind noted

/-- An own file that is passed over is noted with the table. -/
theorem PassedOver.mem_notes_readTable {reason : String}
    (passed : PassedOver files (ownFile project) reason) :
    unreadNote (ownFile project) reason ∈ (readTable files project).notes := by
  have present := passed.1
  unfold ownFile at present
  unfold readTable
  simp only [present, Bool.not_true, Bool.false_eq_true, if_false]
  exact mem_notes_bind passed.mem_notes_readDocument

/-- A shared file that is passed over is noted with the shared table. -/
theorem PassedOver.mem_notes_readShared {reason : String}
    (passed : PassedOver files (sharedFile project) reason) :
    unreadNote (sharedFile project) reason ∈ (readShared files project).notes := by
  have present := passed.1
  unfold sharedFile at present
  unfold readShared
  simp only [present, Bool.not_true, Bool.false_eq_true, if_false]
  exact mem_notes_bind passed.mem_notes_readDocument

/-- The notes on the shared file are taken if the own file is no document. -/
theorem mem_notes_readTable_of_readShared
    (unused : fatal? files (ownFile project) = none ∧ document? files (ownFile project) = none)
    (noted : note ∈ (readShared files project).notes) : note ∈ (readTable files project).notes := by
  -- With nothing to use in the own file, the reading goes on to the shared one.
  have value := value_readDocument files (ownFile project)
  rw [unused.1, unused.2] at value
  unfold ownFile at value
  unfold readTable
  cases present : files.isPresent (project.child ".inheritzoom.toml") with
  | false => simpa only [present, Bool.not_false, if_true] using noted
  | true =>
    simp only [present, Bool.not_true, Bool.false_eq_true, if_false]
    apply mem_notes_bind_next
    rw [value]
    exact noted

/-- Only the documents and the faults of the two files count for what is loaded. -/
theorem value_load_congr {others : Files}
    (own : fatal? others (ownFile project) = fatal? files (ownFile project) ∧
      document? others (ownFile project) = document? files (ownFile project))
    (shared : fatal? others (sharedFile project) = fatal? files (sharedFile project) ∧
      document? others (sharedFile project) = document? files (sharedFile project)) :
    (load others project overrides).value = (load files project overrides).value := by
  -- The files are looked at for the table alone.
  have tables : (readTable others project).value = (readTable files project).value := by
    rw [value_readTable, value_readTable, value_readShared, value_readShared, own.1, own.2,
      shared.1, shared.2]
  unfold load
  rw [Logged.value_bind, Logged.value_bind, tables]

end

/-- A file reads the same in another tree, or it is passed over in this one and missing in the
other. -/
def Spares (files others : Files) (path : Path) : Prop :=
  others.read path = files.read path ∨ (∃ reason, PassedOver files path reason) ∧
    others.isPresent path = false

/-- A file that is spared stops the load or gives its document as before. -/
theorem Spares.alike {files others : Files} {path : Path} (spares : Spares files others path) :
    fatal? others path = fatal? files path ∧ document? others path = document? files path := by
  obtain same | ⟨⟨reason, passed⟩, missing⟩ := spares
  · unfold fatal? document?
    rw [same]
    exact ⟨rfl, rfl⟩
  · -- Neither tree has anything to use there.
    obtain ⟨unfailing, undocumented⟩ := passed.unused
    obtain ⟨noFault, noDocument⟩ := fatal?_of_not_isPresent missing
    exact ⟨noFault.trans unfailing.symm, noDocument.trans undocumented.symm⟩

/-- Loading the settings of a project comes to settings or to a refused value exactly if the files
that are looked at are texts without too long a number and what is refused can be shown. A file that
cannot be read or is not well formed is no obstacle: it is noted, and all is as if it were not
there. -/
theorem load_tolerates_iff (files : Files) (project : Path) (overrides : Table String Value) :
    (Answers (load files project overrides.entries).value ↔
      (¬ NotText files (ownFile project) ∧ ¬ Overlong files (ownFile project)) ∧
      (document? files (ownFile project) = none →
        ¬ NotText files (sharedFile project) ∧ ¬ Overlong files (sharedFile project)) ∧
      ∀ value, refused? (document? files (ownFile project))
        (document? files (sharedFile project)) overrides =
        some value → value.isShowable = true) ∧
    (∀ reason, PassedOver files (ownFile project) reason →
      unreadNote (ownFile project) reason ∈ (load files project overrides.entries).notes) ∧
    (∀ reason, ¬ NotText files (ownFile project) → ¬ Overlong files (ownFile project) →
      document? files (ownFile project) = none → PassedOver files (sharedFile project) reason →
        unreadNote (sharedFile project) reason ∈ (load files project overrides.entries).notes) ∧
    ∀ others, Spares files others (ownFile project) → Spares files others (sharedFile project) →
      (load others project overrides.entries).value =
      (load files project overrides.entries).value := by
  refine ⟨?_, ?_, ?_, ?_⟩
  · rw [answers_load_iff, escape?_eq_none_iff, fatal?_eq_none_iff, fatal?_eq_none_iff, and_assoc]
  · intro reason passed
    exact mem_notes_load_of_readTable passed.mem_notes_readTable
  · intro reason text short undocumented passed
    have unused := And.intro (fatal?_eq_none_iff.2 ⟨text, short⟩) undocumented
    exact mem_notes_load_of_readTable
      (mem_notes_readTable_of_readShared unused passed.mem_notes_readShared)
  · intro others own shared
    exact value_load_congr own.alike shared.alike

/-- A byte that begins no character is no cause to refuse a value, nor to pass over the file. -/
theorem not_answers_load_invalidStart :
    (load (ownFileAlone [0xFF]) topProject []).value = .error
      (.notText ⟨0, 0xFF, 1, .invalidStart⟩) ∧
    ¬ Answers (load (ownFileAlone [0xFF]) topProject []).value := by
  -- The byte begins no character, so the text cannot be decoded.
  have undecoded : Text.decode [0xFF] = .error ⟨0, 0xFF, 1, .invalidStart⟩ := by
    rw [Text.decode, Text.decodeFrom]
    rfl
  have escapes : escape? (ownFileAlone [0xFF]) topProject =
      some (.notText ⟨0, 0xFF, 1, .invalidStart⟩) := by
    unfold escape? fatal?
    rw [read_ownFileAlone]
    dsimp only
    rw [undecoded]
  refine ⟨value_load_of_escape? _ _ .empty escapes, fun answers => ?_⟩
  have stays := ((answers_load_iff _ topProject .empty).1 answers).1
  cases escapes.symm.trans stays

end Lineage.Settings
