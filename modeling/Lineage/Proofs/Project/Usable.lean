import Lineage.Proofs.Project.Survey
import Lineage.Proofs.Settings.Config
import Lineage.Toml.Document

/-! Whether settings that pass the check can be used by all that comes after it. -/

namespace Lineage.Project

open Lineage.Files Lineage.Settings

/-- Values can be members of a set exactly if no list and no table is among them. -/
theorem unhashable?_eq_none_iff {values : List Value} :
    unhashable? values = none ↔ ∀ value ∈ values, Toml.Value.isClosed value = false := by
  -- Only lists and tables cannot be looked up.
  unfold unhashable?
  rw [List.findSome?_eq_none_iff]
  constructor
  · intro hashable value among
    have here := hashable value among
    cases value with
    | list items => cases here
    | table entries => cases here
    | _ => rfl
  · intro flat value among
    have here := flat value among
    cases value with
    | list items => cases here
    | table entries => cases here
    | _ => rfl

/-- Discovery fails exactly if what is excluded cannot be a set, whatever there is to be found. -/
theorem exists_discover_iff (files : Files) (root : Path) (exclude : List Value) :
    (∃ paths, discover files root exclude = .ok paths) ↔ unhashable? exclude = none := by
  unfold discover
  cases unhashable? exclude with
  | some fault => simp
  | none => cases files.locate root <;> simp

/-- What has to work with the settings that come from a table, in every tree. -/
structure Usable (entries : Toml.Entries) (config : Config) : Prop where
  /-- The sources can be found below any root. -/
  discovers : ∀ files root, ∃ paths, discover files root config.exclude = .ok paths
  /-- The scope of comments that the table asks for is known where the sources are read. -/
  scopes : ∃ label, valueIn entries .docScope = .text label ∧
    Java.DocScope.ofLabel? label = some config.docScope
  /-- The policies that the table asks for are known where the graph is assembled. -/
  merges : ∃ label, valueIn entries .mergePolicy = .text label ∧
    MergePolicy.ofLabel? label = some config.mergePolicy
  dangles : ∃ label, valueIn entries .danglingEdges = .text label ∧
    DanglingPolicy.ofLabel? label = some config.danglingEdges
  /-- The graph can be assembled from the sources, unless a repeated name is asked to be an error
  and there is one. -/
  surveys : ∀ files paths, (∃ result, (survey files config paths).value = .ok result) ∨
    config.mergePolicy = .error ∧ ¬ ((declarationsAmong files config paths).map (·.name)).Nodup

/-- Settings that pass the check can be used exactly if there is no list and no table among the
exclusions. -/
theorem usable_iff {entries : Toml.Entries} {config : Config}
    (accepted : (Config.ofEntries entries).value = .ok config) :
    Usable entries config ↔
      ∀ items, valueIn entries .exclude = .list items →
        ∀ item ∈ items, Toml.Value.isClosed item = false := by
  rw [value_ofEntries] at accepted
  -- What passed the check is what the table says.
  have taken : ∀ setting, config.value setting = valueIn entries setting := by
    rcases check_cases entries with ⟨_, other, checked, taken⟩ | ⟨_, fault, _, checked, _⟩
    · rw [Except.ok.inj (accepted.symm.trans checked)]
      exact taken
    · cases accepted.symm.trans checked
  have excluded : valueIn entries .exclude = .list config.exclude := (taken .exclude).symm
  constructor
  · -- The search is made in the empty tree, since it fails in all trees alike.
    intro usable items isItems
    rw [excluded, Value.list.injEq] at isItems
    subst isItems
    rw [← unhashable?_eq_none_iff, ← exists_discover_iff ⟨.empty, []⟩ ⟨.root, []⟩]
    exact usable.discovers _ _
  · intro flat
    -- The labels of all choices are known to those that use them.
    have hashable := unhashable?_eq_none_iff.2 (flat config.exclude excluded)
    refine ⟨?_, ?_, ?_, ?_, ?_⟩
    · intro files root
      exact (exists_discover_iff files root config.exclude).2 hashable
    · exact ⟨config.docScope.label, (taken .docScope).symm, by cases config.docScope <;> rfl⟩
    · exact ⟨config.mergePolicy.label, (taken .mergePolicy).symm, by cases config.mergePolicy <;>
        rfl⟩
    · exact ⟨config.danglingEdges.label,
        (taken .danglingEdges).symm, by cases config.danglingEdges <;> rfl⟩
    · intro files paths
      rw [← survey_fails_iff]
      cases (survey files config paths).value with
      | error duplicate => exact .inr ⟨duplicate, rfl⟩
      | ok result => exact .inl ⟨result, rfl⟩

/-- Settings with a number among the exclusions, which names no directory. -/
def numberExcluded : Toml.Entries :=
  [("exclude", .list [.text "generated", .whole 3]), ("merge_policy", .text "error")]

/-- A number among the excluded names does no harm. -/
theorem usable_iff_numberExcluded :
    (Config.ofEntries numberExcluded).value =
      .ok ⟨[.text "generated", .whole 3], .error, .drop, .declaration, .whole 4⟩ ∧
    Usable numberExcluded
      ⟨[.text "generated", .whole 3], .error, .drop, .declaration, .whole 4⟩ := by
  refine ⟨rfl, (usable_iff rfl).2 ?_⟩
  intro items isItems item among
  rw [← Value.list.inj isItems] at among
  rcases List.mem_cons.1 among with rfl | among
  · rfl
  · rw [List.mem_singleton.1 among]
    rfl

/-- Settings with a list among the exclusions. -/
def listExcluded : Toml.Entries :=
  [("exclude", .list [.list [.text "generated"]])]

/-- They pass the check, but no sources can be found with them, wherever one looks. -/
theorem not_usable_listExcluded :
    (Config.ofEntries listExcluded).value =
      .ok ⟨[.list [.text "generated"]], .first, .drop, .declaration, .whole 4⟩ ∧
    (∀ files root, discover files root [.list [.text "generated"]] = .error .list) ∧
    ¬ Usable listExcluded ⟨[.list [.text "generated"]], .first, .drop, .declaration, .whole 4⟩ := by
  have refused (files : Files) (root : Path) : discover files root [.list [.text "generated"]] =
    .error .list := rfl
  refine ⟨rfl, refused, fun usable => ?_⟩
  obtain ⟨paths, found⟩ := usable.discovers ⟨.empty, []⟩ ⟨.root, []⟩
  cases (refused _ _).symm.trans found

end Lineage.Project
