import Lineage.Settings.Config

/-! What each setting may be, and what the check of all settings makes of the values that are
given. -/

namespace Lineage.Settings

/-- The settings, in the order in which they are checked. -/
inductive Setting where
  | mergePolicy
  | danglingEdges
  | docScope
  | workers
  | exclude

/-- Whether a value is one of some texts. -/
def Value.isOneOf (labels : List String) : Value → Bool
  | .text label => labels.contains label
  | _ => false

namespace Setting

/-- Every setting, in the order in which they are checked. -/
def all : List Setting :=
  [.mergePolicy, .danglingEdges, .docScope, .workers, .exclude]

/-- The name of a setting in a table. -/
def name : Setting → String
  | .mergePolicy => "merge_policy"
  | .danglingEdges => "dangling_edges"
  | .docScope => "doc_scope"
  | .workers => "workers"
  | .exclude => "exclude"

/-- The value of a setting that is not given. -/
def fallback : Setting → Value
  | .mergePolicy => .text "first"
  | .danglingEdges => .text "drop"
  | .docScope => .text "declaration"
  | .workers => .whole 4
  | .exclude => .list []

/-- Whether a setting may have a value. The truth value that counts as one is a number of workers,
and it does not matter what is in the list of exclusions. -/
def admits : Setting → Value → Bool
  | .mergePolicy, value => value.isOneOf ["first", "last", "error"]
  | .danglingEdges, value => value.isOneOf ["drop", "keep"]
  | .docScope, value => value.isOneOf ["declaration", "file"]
  | .workers, .whole count => 1 ≤ count
  | .workers, .boolean value => value
  | .exclude, .list _ => true
  | _, _ => false

theorem mem_all (setting : Setting) : setting ∈ all := by
  cases setting <;> simp [all]

end Setting

/-- The value of a setting after the check. -/
def Config.value (config : Config) : Setting → Value
  | .mergePolicy => .text config.mergePolicy.label
  | .danglingEdges => .text config.danglingEdges.label
  | .docScope => .text config.docScope.label
  | .workers => config.workers
  | .exclude => .list config.exclude

/-- The value that a table gives to a setting, or the one that counts if it gives none. -/
def valueIn (entries : List (String × Value)) (setting : Setting) : Value :=
  (entries.lookup setting.name).getD setting.fallback

/-- What comes of the value of a setting that names one of several choices: the choice with this
name, or a fault if the value is not admitted. -/
def Decides {α : Type} (setting : Setting) (label : α → String) (fault : Value → ConfigFault)
    (value : Value) (result : Except ConfigFault α) : Prop :=
  (setting.admits value = true ∧ ∃ choice, value = .text (label choice) ∧ result = .ok choice) ∨
  (setting.admits value = false ∧ result = .error (fault value))

/-- A setting is decided by the table, or else by its default, if it admits the names of the choices
and nothing else. -/
theorem decides_choose {α : Type} {setting : Setting} (choices : List α) {label : α → String}
    {fallback : α} (listed : fallback ∈ choices)
    (byDefault : setting.fallback = .text (label fallback))
    (admitted : ∀ value, setting.admits value = value.isOneOf (choices.map label))
    (entries : List (String × Value)) (fault : Value → ConfigFault) :
    Decides setting label fault (valueIn entries setting)
      (choose entries setting.name (fun text => choices.find? (label · == text))
        fallback fault) := by
  unfold Decides valueIn choose
  rw [admitted, byDefault]
  cases entries.lookup setting.name with
  | none => exact .inl ⟨by simpa [Value.isOneOf] using ⟨fallback, listed, rfl⟩, fallback, rfl, rfl⟩
  | some value =>
    cases value with
    | text text =>
      -- Only the text of a choice can be found among them.
      simp only [Option.getD_some, Value.text?, Option.bind_some, Value.isOneOf, Value.text.injEq]
      cases found : choices.find? (label · == text) with
      | some choice =>
        have same : label choice = text := by simpa using List.find?_some found
        have among := List.mem_of_find?_eq_some found
        exact .inl ⟨by simpa using ⟨choice, among, same⟩, choice, same.symm, rfl⟩
      | none =>
        have others := List.find?_eq_none.1 found
        exact .inr ⟨by simpa using others, rfl⟩
    | _ => exact .inr ⟨rfl, rfl⟩

theorem isWorkerCount_eq (value : Value) : isWorkerCount value = Setting.workers.admits value := by
  cases value <;> rfl

/-- The first setting whose value is not admitted, if there is one. -/
def firstRefused? (given : Setting → Value) : Option Setting :=
  Setting.all.find? fun setting => !setting.admits (given setting)

/-- Nothing is refused exactly if every setting admits what it is given. -/
theorem firstRefused?_eq_none_iff {given : Setting → Value} :
    firstRefused? given = none ↔ ∀ setting : Setting, setting.admits (given setting) = true := by
  simp only [firstRefused?, List.find?_eq_none, Bool.not_eq_true', Bool.not_eq_false]
  exact ⟨fun admitted setting => admitted setting setting.mem_all, fun admitted setting _ =>
    admitted setting⟩

/-- The check takes each setting from the table, or else its default, unless a value is not
admitted; the first such value is at fault. -/
theorem check_cases (entries : List (String × Value)) :
    (firstRefused? (valueIn entries) = none ∧
      ∃ config, Config.check entries = .ok config ∧
        ∀ setting, config.value setting = valueIn entries setting) ∨
    ∃ setting fault, firstRefused? (valueIn entries) = some setting ∧
      Config.check entries = .error fault ∧
      fault.value = valueIn entries setting := by
  have merge : Decides .mergePolicy MergePolicy.label .mergePolicy (valueIn entries .mergePolicy)
      (choose entries "merge_policy" MergePolicy.ofLabel? .first .mergePolicy) :=
    decides_choose MergePolicy.all List.mem_cons_self rfl (fun value => rfl) entries _
  have dangling : Decides .danglingEdges DanglingPolicy.label .danglingEdges
    (valueIn entries .danglingEdges)
      (choose entries "dangling_edges" DanglingPolicy.ofLabel? .drop .danglingEdges) :=
    decides_choose DanglingPolicy.all List.mem_cons_self rfl (fun value => rfl) entries _
  have scope : Decides .docScope Java.DocScope.label .docScope (valueIn entries .docScope)
      (choose entries "doc_scope" Java.DocScope.ofLabel? .declaration .docScope) :=
    decides_choose Java.DocScope.all List.mem_cons_self rfl (fun value => rfl) entries _
  unfold Config.check firstRefused? Setting.all
  dsimp only
  -- Each check is reached only if those before it have passed.
  rcases merge with ⟨merges, policy, isPolicy, chosen⟩ | ⟨refused, faulty⟩
  case inr =>
    rw [faulty, List.find?_cons_of_pos (by simp [refused])]
    exact .inr ⟨.mergePolicy, .mergePolicy _, rfl, rfl, rfl⟩
  rw [chosen, List.find?_cons_of_neg (by simp [merges])]
  rcases dangling with ⟨dangles, fate, isFate, chosen⟩ | ⟨refused, faulty⟩
  case inr =>
    rw [faulty, List.find?_cons_of_pos (by simp [refused])]
    exact .inr ⟨.danglingEdges, .danglingEdges _, rfl, rfl, rfl⟩
  rw [chosen, List.find?_cons_of_neg (by simp [dangles])]
  rcases scope with ⟨scopes, scope, isScope, chosen⟩ | ⟨refused, faulty⟩
  case inr =>
    rw [faulty, List.find?_cons_of_pos (by simp [refused])]
    exact .inr ⟨.docScope, .docScope _, rfl, rfl, rfl⟩
  rw [chosen, List.find?_cons_of_neg (by simp [scopes])]
  have counted : isWorkerCount ((entries.lookup "workers").getD (.whole 4)) =
      Setting.workers.admits (valueIn entries .workers) := isWorkerCount_eq _
  rw [counted]
  cases works : Setting.workers.admits (valueIn entries .workers) with
  | false =>
    rw [List.find?_cons_of_pos (by simp [works])]
    exact .inr ⟨.workers, .workers _, rfl, rfl, rfl⟩
  | true =>
    rw [List.find?_cons_of_neg (by simp [works])]
    have taken (exclude : List Value) (isExclude : valueIn entries .exclude = .list exclude) :
        ∀ setting, Config.value ⟨exclude, policy, fate, scope, valueIn entries .workers⟩ setting =
          valueIn entries setting := by
      intro setting
      cases setting with
      | mergePolicy => exact isPolicy.symm
      | danglingEdges => exact isFate.symm
      | docScope => exact isScope.symm
      | workers => rfl
      | exclude => exact isExclude.symm
    -- Only a list can be excluded, and no list at all is the empty one.
    cases given : entries.lookup "exclude" with
    | none =>
      have isEmpty : valueIn entries .exclude = .list [] := by
        rw [valueIn, Setting.name, given]
        rfl
      rw [List.find?_cons_of_neg (by simp [isEmpty, Setting.admits])]
      exact .inl ⟨rfl, _, rfl, taken [] isEmpty⟩
    | some value =>
      have isValue : valueIn entries .exclude = value := by
        rw [valueIn, Setting.name, given]
        rfl
      cases value with
      | list items =>
        rw [List.find?_cons_of_neg (by simp [isValue, Setting.admits])]
        exact .inl ⟨rfl, _, rfl, taken items isValue⟩
      | _ =>
        rw [List.find?_cons_of_pos (by simp [isValue, Setting.admits])]
        exact .inr ⟨.exclude, .exclude _, rfl, rfl, isValue.symm⟩

/-- The check looks at nothing but the settings. -/
theorem check_congr {one other : List (String × Value)}
    (same : ∀ setting : Setting, one.lookup setting.name = other.lookup setting.name) :
    Config.check one = Config.check other := by
  have merge : one.lookup "merge_policy" = other.lookup "merge_policy" := same .mergePolicy
  have dangling : one.lookup "dangling_edges" = other.lookup "dangling_edges" := same .danglingEdges
  have scope : one.lookup "doc_scope" = other.lookup "doc_scope" := same .docScope
  have workers : one.lookup "workers" = other.lookup "workers" := same .workers
  have exclude : one.lookup "exclude" = other.lookup "exclude" := same .exclude
  simp only [Config.check, choose, merge, dangling, scope, workers, exclude]

/-- Names that are no settings are noted and change nothing. -/
theorem value_ofEntries (entries : List (String × Value)) :
    (Config.ofEntries entries).value = Config.check entries := by
  unfold Config.ofEntries
  dsimp only
  split <;> rfl

end Lineage.Settings
