/-! Values under names: each name once, in the order in which the names first came. -/

namespace Lineage

variable {κ α : Type} [DecidableEq κ]

/-- The entries with the value of a name replaced, or with a new entry at the end if the name is
new. -/
def putEntry (name : κ) (value : α) : List (κ × α) → List (κ × α)
  | [] => [(name, value)]
  | (known, old) :: more =>
    if known = name then (known, value) :: more else (known, old) :: putEntry name value more

/-- A new name comes last, and a known name keeps its place. -/
theorem map_fst_putEntry (name : κ) (value : α) (entries : List (κ × α)) :
    (putEntry name value entries).map Prod.fst =
      if name ∈ entries.map Prod.fst then entries.map Prod.fst
      else entries.map Prod.fst ++ [name] := by
  -- Along the entries: the name is found at the front, or further back, or nowhere.
  induction entries with
  | nil => simp [putEntry]
  | cons entry more ih =>
    obtain ⟨known, old⟩ := entry
    by_cases same : known = name
    · simp [putEntry, same]
    · have other : name ≠ known := fun equal => same equal.symm
      simp only [putEntry, if_neg same, List.map_cons, ih, List.mem_cons, other, false_or]
      split <;> simp

/-- The new value is found under its name, and all other names keep theirs. -/
theorem lookup_putEntry (name other : κ) (value : α) (entries : List (κ × α)) :
    (putEntry name value entries).lookup other =
      if other = name then some value else entries.lookup other := by
  induction entries with
  | nil =>
    by_cases asked : other = name
    · simp [putEntry, asked]
    · simp [putEntry, List.lookup_cons, beq_false_of_ne asked, asked]
  | cons entry more ih =>
    obtain ⟨known, old⟩ := entry
    by_cases front : other = known
    · -- The name at the front answers for itself, with the new value if that is its own.
      subst front
      by_cases same : other = name <;> simp [putEntry, same]
    · -- Any other name is looked up behind the front, whether the value there was replaced or not.
      have missed : (other == known) = false := beq_false_of_ne front
      by_cases same : known = name
      · subst same
        simp [putEntry, List.lookup_cons, missed, front]
      · simp [putEntry, same, List.lookup_cons, missed, ih]

/-- Values under distinct names, in order. -/
structure Table (κ α : Type) where
  entries : List (κ × α)
  distinct : (entries.map Prod.fst).Nodup

namespace Table

/-- The table without entries. -/
def empty : Table κ α :=
  ⟨[], List.nodup_nil⟩

/-- The names in order. -/
def names (table : Table κ α) : List κ :=
  table.entries.map Prod.fst

/-- The values in the order of their names. -/
def values (table : Table κ α) : List α :=
  table.entries.map Prod.snd

/-- The value under a name. -/
def get? (table : Table κ α) (name : κ) : Option α :=
  table.entries.lookup name

/-- Whether a name is in the table. -/
def contains (table : Table κ α) (name : κ) : Bool :=
  (table.get? name).isSome

/-- A table contains the names that are listed. -/
theorem contains_iff (table : Table κ α) (name : κ) :
    table.contains name = true ↔ name ∈ table.names := by
  simp [contains, get?, names]

/-- What is found under a name is in the table under that name. -/
theorem mem_names_of_get? {table : Table κ α} {name : κ} {value : α}
    (present : table.get? name = some value) :
    name ∈ table.names := by
  rw [← contains_iff, contains, present]
  rfl

/-- Something is found under each name. -/
theorem exists_get?_of_mem {table : Table κ α} {name : κ} (listed : name ∈ table.names) :
    ∃ value, table.get? name = some value :=
  Option.isSome_iff_exists.mp ((table.contains_iff name).mpr listed)

/-- Each entry is found under its name, since no other entry has that name. -/
theorem get?_of_mem (table : Table κ α) {name : κ} {value : α}
    (listed : (name, value) ∈ table.entries) :
    table.get? name = some value := by
  obtain ⟨before, behind, split⟩ := List.append_of_mem listed
  refine List.lookup_eq_some_iff.2 ⟨before, behind, split, fun entry earlier => ?_⟩
  -- An earlier entry of this name would make it come twice.
  have distinct := table.distinct
  rw [split, List.map_append, List.map_cons, List.nodup_append] at distinct
  have other := distinct.2.2 entry.1 (List.mem_map_of_mem earlier) name List.mem_cons_self
  exact bne_iff_ne.2 other.symm

/-- Puts a value under a name. A known name keeps its place. -/
def put (table : Table κ α) (name : κ) (value : α) : Table κ α where
  entries := putEntry name value table.entries
  distinct := by
    rw [map_fst_putEntry]
    split
    · exact table.distinct
    · rename_i fresh
      rw [List.nodup_append]
      exact ⟨table.distinct, by simp, fun one inOld other inNew same => by
        simp only [List.mem_singleton] at inNew
        exact fresh (inNew ▸ same ▸ inOld)⟩

/-- Putting a value changes what is under its name and nothing else. -/
@[simp] theorem get?_put (table : Table κ α) (name other : κ) (value : α) :
    (table.put name value).get? other = if other = name then some value else table.get? other :=
  lookup_putEntry name other value table.entries

/-- A new name comes last, and a known name keeps its place. -/
theorem names_put (table : Table κ α) (name : κ) (value : α) :
    (table.put name value).names =
      if name ∈ table.names then table.names else table.names ++ [name] :=
  map_fst_putEntry name value table.entries

/-- The table without the entries whose names satisfy a condition. -/
def eraseAll (table : Table κ α) (p : κ → Bool) : Table κ α where
  entries := table.entries.filter fun entry => !p entry.1
  distinct := (List.filter_sublist.map Prod.fst).nodup table.distinct

/-- The table of the given entries; of two under one name the later one counts. -/
def ofEntries (entries : List (κ × α)) : Table κ α :=
  entries.foldl (fun table entry => table.put entry.1 entry.2) empty

end Table

end Lineage
