import Lineage.Proofs.Project.Discovery

/-! Two tests of whether a name is that of a Java source: the one by which files are found, and the
one by which they are taken in. -/

namespace Lineage.Project

open Lineage.Files Lineage.Settings

/-- No other character becomes a point as a small letter. -/
theorem eq_point_of_toLower {c : Char} (lowered : c.toLower = '.') : c = '.' := by
  unfold Char.toLower at lowered
  split at lowered
  · -- Capital letters become letters, and those come after the point.
    rename_i upper
    have least : 65 ≤ c.val.toNat := UInt32.le_iff_toNat_le.1 upper.1
    have greatest : c.val.toNat ≤ 90 := UInt32.le_iff_toNat_le.1 upper.2
    have code : (c.val + 32).toNat = 46 := congrArg UInt32.toNat (congrArg Char.val lowered)
    rw [UInt32.toNat_add] at code
    simp only [UInt32.reduceToNat] at code
    omega
  · exact lowered

/-- A name has a part that is longer than nothing and an ending that reads as that of a Java source,
whatever the case of its letters. -/
def EndsLikeSource (name stem ending : String) : Prop :=
  stem ≠ "" ∧ name = stem ++ ending ∧ ending.toLower = ".java"

/-- In small letters, what reads as the ending of a Java source is that ending. -/
theorem map_toLower_eq {ending : String} (lowered : ending.toLower = ".java") :
    ending.toList.map Char.toLower = ['.', 'j', 'a', 'v', 'a'] := by
  rw [← String.toList_map]
  exact congrArg String.toList lowered

/-- What reads as the ending of a Java source is a point and four characters without a point. -/
theorem toList_of_toLower {ending : String} (lowered : ending.toLower = ".java") :
    ∃ letters, ending.toList = '.' :: letters ∧ letters ≠ [] ∧ '.' ∉ letters := by
  -- The letters are those of the ending, and none of them is a point.
  obtain ⟨point, letters, split, isPoint, rest⟩ := List.map_eq_cons_iff.1 (map_toLower_eq lowered)
  refine ⟨letters, ?_, ?_, ?_⟩
  · rw [split, eq_point_of_toLower isPoint]
  · rintro rfl
    cases rest
  · intro among
    have lower := List.mem_map_of_mem (f := Char.toLower) among
    rw [rest] at lower
    revert lower
    decide

/-- A name behind whose last point there are letters, and before it something, has the rest from
that point on as its ending. -/
theorem suffix_of_split {path : Path} {front letters : List Char}
    (chars : path.name.toList = front ++ '.' :: letters) (something : front ≠ [])
    (some : letters ≠ []) (noPoint : '.' ∉ letters) :
    path.suffix = String.ofList ('.' :: letters) := by
  -- The last point of the name is the one before the letters.
  have behind : (path.name.toList.reverse.takeWhile (· != '.')).reverse = letters := by
    have none : ∀ c ∈ letters.reverse, (c != '.') = true := by
      intro c among
      rw [bne_iff_ne]
      rintro rfl
      exact noPoint (List.mem_reverse.1 among)
    rw [chars, List.reverse_append, List.reverse_cons, List.append_assoc,
      List.takeWhile_append_of_pos none]
    simp
  unfold Path.suffix
  dsimp only
  rw [behind, chars]
  have before : (front ++ '.' :: letters).length - letters.length - 1 = front.length := by
    simp only [List.length_append, List.length_cons]
    omega
  rw [before, List.take_left, if_neg]
  simp only [Bool.or_eq_true, not_or, List.isEmpty_iff, beq_iff_eq, List.length_append,
    List.length_cons]
  exact ⟨⟨some, by omega⟩, something⟩

/-- Any other name has no ending. -/
theorem suffix_eq_or (path : Path) :
    path.suffix = "" ∨ ∃ front letters, path.name.toList = front ++ '.' :: letters ∧ front ≠ [] ∧
      path.suffix = String.ofList ('.' :: letters) := by
  unfold Path.suffix
  dsimp only
  generalize path.name.toList = chars
  split
  · exact .inl rfl
  · rename_i proper
    simp only [Bool.or_eq_true, not_or, List.isEmpty_iff, beq_iff_eq] at proper
    obtain ⟨⟨_, shorter⟩, something⟩ := proper
    have parts := List.takeWhile_append_dropWhile (p := (· != '.')) (l := chars.reverse)
    -- There is a point, since the letters at the end are not all of the name.
    cases rest : chars.reverse.dropWhile (· != '.') with
    | nil =>
      rw [rest, List.append_nil] at parts
      rw [parts, List.reverse_reverse] at shorter
      exact absurd rfl shorter
    | cons point more =>
      have isPoint : point = '.' := by
        have first := List.head_dropWhile_not (· != '.') (l := chars.reverse) (by simp [rest])
        simpa [rest] using first
      generalize chars.reverse.takeWhile (· != '.') = behind at parts shorter something ⊢
      rw [rest, isPoint] at parts
      have whole : chars = more.reverse ++ '.' :: behind.reverse := by
        rw [← List.reverse_reverse chars, ← parts]
        simp
      refine .inr ⟨more.reverse, behind.reverse, whole, ?_, rfl⟩
      rintro empty
      rw [whole, empty] at something
      simp at something

/-- The ending of a path reads as that of a Java source exactly if its name is something with such
an ending. -/
theorem toLower_suffix_iff {path : Path} :
    path.suffix.toLower = ".java" ↔ ∃ stem ending, EndsLikeSource path.name stem ending := by
  -- In both directions the name is split at its last point.
  constructor
  · intro lowered
    rcases suffix_eq_or path with none | ⟨front, letters, chars, something, suffix⟩
    · rw [none] at lowered
      exact absurd lowered (by decide +kernel)
    · refine ⟨String.ofList front, path.suffix, ?_, ?_, lowered⟩
      · intro empty
        exact something (String.ofList_eq_empty_iff.1 empty)
      · rw [← String.toList_inj, chars, suffix, String.toList_append, String.toList_ofList,
          String.toList_ofList]
  · rintro ⟨stem, ending, something, whole, lowered⟩
    obtain ⟨letters, split, some, noPoint⟩ := toList_of_toLower lowered
    have chars : path.name.toList = stem.toList ++ '.' :: letters := by
      rw [whole, String.toList_append, split]
    rw [suffix_of_split chars (fun empty => something (String.toList_eq_nil_iff.1 empty)) some
      noPoint, ← split, String.ofList_toList, lowered]

/-- A path is taken for that of a Java source by its name. -/
theorem isSource_iff {path : Path} :
    isSource path = true ↔ (∃ stem ending, EndsLikeSource path.name stem ending) ∧
      path.name ∉ skippedFiles := by
  rw [isSource, Bool.and_eq_true, beq_iff_eq, toLower_suffix_iff, Bool.not_eq_true',
    List.contains_eq_mem, decide_eq_false_iff_not]

/-- An ending of a Java source with a capital letter in it. -/
def EndsInCapitals (name : String) : Prop :=
  ∃ stem ending, EndsLikeSource name stem ending ∧ ending ≠ ".java"

/-- A name that ends as those of Java sources do has no other ending that reads like it, since all
of them are of one length. -/
theorem EndsLikeSource.parts_eq {name stem ending front : String}
    (like : EndsLikeSource name stem ending) (whole : name = front ++ ".java") :
    stem = front ∧ ending = ".java" := by
  obtain ⟨_, split, lowered⟩ := like
  have same : stem.toList ++ ending.toList = front.toList ++ ".java".toList := by
    rw [← String.toList_append, ← String.toList_append, ← split, whole]
  have lengths : ending.toList.length = ".java".toList.length := by
    rw [← List.length_map Char.toLower, map_toLower_eq lowered]
    rfl
  have parts := List.append_inj' same lengths
  exact ⟨String.toList_inj.1 parts.1, String.toList_inj.1 parts.2⟩

/-- The bare ending is found and not taken in. -/
theorem found_only_iff (path : Path) :
    isSourceName path.name = true ∧ isSource path = false ↔ path.name = ".java" := by
  have lower : ".java".toLower = ".java" := by decide +kernel
  rw [isSourceName_iff, ← Bool.not_eq_true, isSource_iff]
  constructor
  · rintro ⟨⟨stem, whole, kept⟩, refused⟩
    by_cases something : stem = ""
    · rw [whole, something, String.empty_append]
    · -- Behind anything the ending would be taken in.
      exact absurd ⟨⟨stem, ".java", something, whole, lower⟩, whole ▸ kept⟩ refused
  · intro bare
    have whole : path.name = "" ++ ".java" := by rw [bare, String.empty_append]
    refine ⟨⟨"", whole, by decide⟩, ?_⟩
    rintro ⟨⟨stem, ending, like⟩, _⟩
    exact like.1 (like.parts_eq whole).1

/-- An ending with a capital letter is taken in and not found. -/
theorem taken_only_iff (path : Path) :
    isSourceName path.name = false ∧ isSource path = true ↔ EndsInCapitals path.name := by
  rw [← Bool.not_eq_true, isSourceName_iff, isSource_iff]
  constructor
  · rintro ⟨missed, ⟨stem, ending, like⟩, kept⟩
    refine ⟨stem, ending, like, ?_⟩
    rintro rfl
    exact missed ⟨stem, like.2.1, like.2.1 ▸ kept⟩
  · rintro ⟨stem, ending, like, capital⟩
    have missed : ∀ front, path.name ≠ front ++ ".java" :=
      fun front whole => capital (like.parts_eq whole).2
    refine ⟨fun found => ?_, ⟨stem, ending, like⟩, fun skipped => ?_⟩
    · obtain ⟨front, whole, _⟩ := found
      exact missed front whole
    · -- The files that declare no types have names in small letters.
      rcases List.mem_cons.1 skipped with same | skipped
      · exact missed "package-info" same
      · exact missed "module-info" (List.mem_singleton.1 skipped)

/-- A file that the search for sources comes past: there are directories all the way to it, and none
below the first has a skipped name. -/
structure ComesPast (files : Files) (skipped : List String) (directory : Place)
    (names : List String) : Prop where
  named : names ≠ []
  way : ∀ count < names.length, files.at? (directory ++ names.take count) = some .directory
  entered : ∀ name ∈ names.dropLast, name ∉ skipped
  file : ∃ bytes, files.at? (directory ++ names) = some (.file bytes)

/-- What the search comes past is a source exactly if its name says so. -/
theorem leadsToSource_iff_comesPast {files : Files} {skipped : List String} {directory : Place}
    {names : List String} (past : ComesPast files skipped directory names) (root : Path) :
    LeadsToSource files skipped directory names ↔ isSourceName
      (root.descend names).name = true := by
  -- The last name of the way is the name of the path.
  have last : names.getLast? = some (root.descend names).name := by
    obtain ⟨front, final, rfl⟩ := (List.eq_nil_or_concat names).resolve_left past.named
    simp [Path.descend, Path.name]
  rw [isSourceName_iff]
  constructor
  · intro leads
    obtain ⟨stem, isLast, kept⟩ := leads.ending
    rw [last, Option.some.injEq] at isLast
    exact ⟨stem, isLast, kept⟩
  · rintro ⟨stem, whole, kept⟩
    rw [whole] at last
    exact ⟨past.way, past.entered, past.file, stem, last, kept⟩

/-- A file that the search comes past is found by its name alone. -/
theorem mem_discover_iff {files : Files} {root : Path} {exclude : List Value} {paths : List Path}
    {directory : Place} {names : List String} (found : discover files root exclude = .ok paths)
    (located : files.locate root = .ok directory)
    (past : ComesPast files (skippedDirectories ++ exclude.filterMap Value.text?) directory names) :
    root.descend names ∈ paths ↔ isSourceName (root.descend names).name = true := by
  rw [(discovered_of_ok found).exact, ← leadsToSource_iff_comesPast past root]
  constructor
  · rintro ⟨directory', names', located', same, leads⟩
    cases located.symm.trans located'
    -- Different ways from one root make different paths.
    have sameNames : names = names' := List.append_cancel_left (congrArg Path.parts same)
    exact sameNames ▸ leads
  · exact fun leads => ⟨directory, names, located, rfl, leads⟩

/-- Of the files that the search for sources comes past, it finds exactly those that are then taken
in, but for those whose name is the bare ending and those with a capital letter in their ending. The
first are found and left aside, and the others would be taken in and are not found. -/
theorem discover_agrees_iff {files : Files} {root : Path} {exclude : List Value} {paths : List Path}
    {directory : Place} {names : List String} (found : discover files root exclude = .ok paths)
    (located : files.locate root = .ok directory)
    (past : ComesPast files (skippedDirectories ++ exclude.filterMap Value.text?) directory names) :
    ((root.descend names ∈ paths ↔ isSource (root.descend names) = true) ↔
      (root.descend names).name ≠ ".java" ∧ ¬ EndsInCapitals (root.descend names).name) ∧
    (root.descend names ∈ paths ∧ isSource (root.descend names) = false ↔
      (root.descend names).name = ".java") ∧
    (root.descend names ∉ paths ∧ isSource (root.descend names) = true ↔
      EndsInCapitals (root.descend names).name) := by
  -- The two tests differ on two kinds of names only.
  have foundOnly := found_only_iff (root.descend names)
  have takenOnly := taken_only_iff (root.descend names)
  rw [mem_discover_iff found located past, Bool.not_eq_true]
  refine ⟨?_, foundOnly, takenOnly⟩
  rw [ne_eq, ← foundOnly, ← takenOnly]
  cases isSourceName (root.descend names).name <;> cases isSource (root.descend names) <;> simp

/-- A directory with a file whose name is the bare ending and one with its ending in capital
letters. -/
def oddEndings : Files where
  table :=
    ⟨[(["p"], .directory), (["p", ".java"], .file []), (["p", "B.JAVA"], .file [])], by decide⟩
  workingDirectory := ["p"]

theorem discover_oddEndings :
    discover oddEndings ⟨.root, ["p"]⟩ [] = .ok [⟨.root, ["p", ".java"]⟩] := by
  have only : (oddEndings.filesIn ["p"]).filter isSourceName = [".java"] := by decide +kernel
  exact discover_of_flat rfl rfl only

/-- What is found there is not taken in, and what would be taken in is not found. -/
theorem oddEndings_disagree :
    ∃ paths, discover oddEndings ⟨.root, ["p"]⟩ [] = .ok paths ∧
      (⟨.root, ["p", ".java"]⟩ ∈ paths ∧ isSource ⟨.root, ["p", ".java"]⟩ = false) ∧
      (⟨.root, ["p", "B.JAVA"]⟩ ∉ paths ∧ isSource ⟨.root, ["p", "B.JAVA"]⟩ = true) :=
  ⟨_, discover_oddEndings, by decide +kernel, by decide +kernel⟩

/-- The second of these files has an ending with capital letters. -/
theorem discover_agrees_iff_capitals :
    (⟨.root, ["p", "B.JAVA"]⟩ : Path) ∉ [(⟨.root, ["p", ".java"]⟩ : Path)] ∧
      isSource ⟨.root, ["p", "B.JAVA"]⟩ = true ∧ EndsInCapitals "B.JAVA" := by
  have past : ComesPast oddEndings (skippedDirectories ++ []) ["p"] ["B.JAVA"] := by
    refine ⟨by decide, fun count short => ?_, by decide, [], rfl⟩
    have first : count = 0 := by simpa using short
    rw [first]
    rfl
  have missed : (⟨.root, ["p", "B.JAVA"]⟩ : Path) ∉ [(⟨.root, ["p", ".java"]⟩ : Path)] := by decide
  have taken : isSource ⟨.root, ["p", "B.JAVA"]⟩ = true := by decide +kernel
  exact ⟨missed, taken, (discover_agrees_iff discover_oddEndings rfl past).2.2.1 ⟨missed, taken⟩⟩

end Lineage.Project
