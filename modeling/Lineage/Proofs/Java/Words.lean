import Lineage.Proofs.Java.Opening

/-! The words of a text, and how they tell where no type is announced. -/

namespace Lineage.Java

open Lineage.Text

/-- The words of a text are its longest stretches of characters of names. -/
def words (text : List Char) : List (List Char) :=
  (text.splitOnP fun c => !isNameChar c).filter fun word => !word.isEmpty

@[simp] theorem words_nil : words [] = [] :=
  rfl

variable {c : Char} {text name rest : List Char} {before : Option Char} {kind : Kind}
  {values : List (List Char)}

/-- A character that belongs to no name separates the words before it from those behind it. -/
theorem words_append_cons (separates : isNameChar c = false) (one other : List Char) :
    words (one ++ c :: other) = words one ++ words other := by
  unfold words
  rw [List.splitOnP_append_cons one other (by simp [separates]), List.filter_append]

@[simp] theorem words_cons (separates : isNameChar c = false) (text : List Char) :
    words (c :: text) = words text :=
  words_append_cons separates [] text

/-- Characters that belong to no name add no word. -/
theorem words_append_of_separators (separate : ∀ c ∈ text, isNameChar c = false)
    (rest : List Char) :
    words (text ++ rest) = words rest := by
  induction text with
  | nil => rfl
  | cons c text ih =>
    rw [List.cons_append, words_cons (separate c List.mem_cons_self),
      ih fun d inside => separate d (List.mem_cons_of_mem c inside)]

/-- A text that ends with no character of a name has all its words before the rest. -/
theorem words_append_of_last {one : List Char} (ended : one.getLast?.any isNameChar = false)
    (other : List Char) :
    words (one ++ other) = words one ++ words other := by
  rcases List.eq_nil_or_concat one with rfl | ⟨front, c, rfl⟩
  · rfl
  · -- The last character separates the two texts and is no part of a word itself.
    have separates : isNameChar c = false := by simpa using ended
    rw [List.concat_eq_append, List.append_assoc, List.singleton_append,
      words_append_cons separates, words_append_cons separates, words_nil, List.append_nil]

/-- A name that ends where the rest begins is a word. -/
theorem words_append_of_name (nonempty : name ≠ []) (named : ∀ c ∈ name, isNameChar c = true)
    (ended : rest.head?.any isNameChar = false) : words (name ++ rest) = name :: words rest := by
  -- A name holds no separator, so it is one stretch of its own.
  have alone : words name = [name] := by
    unfold words
    rw [List.splitOnP_eq_singleton fun c inside => by simp [named c inside]]
    simp [nonempty]
  cases rest with
  | nil => rw [List.append_nil, alone, words_nil]
  | cons c rest =>
    have separates : isNameChar c = false := by simpa using ended
    rw [words_append_cons separates, alone, words_cons separates, List.singleton_append]

theorem mayPrecede_of_isBlank (blank : isBlank c = true) : MayPrecede (some c) := by
  have notDot : c ≠ '.' := ne_of_class blank (by decide)
  have notAt : c ≠ '@' := ne_of_class blank (by decide)
  simp [MayPrecede, isNameChar_of_isBlank blank, notDot, notAt]

/-- What precedes a header may be cut off anywhere. -/
theorem MayPrecede.of_or {first second : Option Char} (started : MayPrecede (first.or second)) :
    MayPrecede first := by
  cases first with
  | none => rfl
  | some c => exact started

/-- A character before a header belongs to no name. -/
theorem MayPrecede.notName (started : MayPrecede before) : before.any isNameChar = false := by
  cases before with
  | none => rfl
  | some c =>
    rw [MayPrecede, Option.any_some, Bool.or_eq_false_iff, Bool.or_eq_false_iff] at started
    exact started.1.1

/-- Modifiers end with a blank, if there are any. -/
theorem ModifierText.last (isText : ModifierText (modifiersOf kind) values text) :
    text.getLast?.any isNameChar = false := by
  induction isText with
  | none => rfl
  | @more word blanks rest values listed someBlanks all isText ih =>
    -- The modifiers end with the blanks of the last one.
    rw [List.getLast?_append, List.getLast?_append]
    cases last : rest.getLast? with
    | some c => simpa [last] using ih
    | none =>
      obtain ⟨c, isLast⟩ := Option.isSome_iff_exists.mp (List.getLast?_isSome.mpr someBlanks)
      have blank := all c (List.mem_of_getLast? isLast)
      simp [isLast, isNameChar_of_isBlank blank]

/-- A header may begin behind modifiers. -/
theorem ModifierText.mayPrecede {words : List (List Char)} (isText : ModifierText words values text)
    (started : MayPrecede before) : MayPrecede (text.getLast?.or before) := by
  induction isText with
  | none => exact started
  | @more word blanks rest values _ someBlanks all _ ih =>
    rw [List.getLast?_append]
    cases last : rest.getLast? with
    | some c => simpa [last] using ih
    | none =>
      -- The last blank behind the modifier stands there.
      obtain ⟨c, isLast⟩ := Option.isSome_iff_exists.mp (List.getLast?_isSome.mpr someBlanks)
      rw [Option.none_or, List.getLast?_append, isLast, Option.some_or, Option.some_or]
      exact mayPrecede_of_isBlank (all c (List.mem_of_getLast? isLast))

theorem keywordOf_ne_nil (kind : Kind) : keywordOf kind ≠ [] := by
  cases kind <;> decide

theorem isNameChar_keywordOf (kind : Kind) : ∀ c ∈ keywordOf kind, isNameChar c = true := by
  cases kind <;> decide

/-- In the words of a text that announces a type, the name follows the word for the kind. -/
theorem words_announcement {spelled : List Char} (announced : Announcement kind values name spelled)
    (nonempty : name ≠ []) (named : ∀ c ∈ name, isNameChar c = true) {front : List Char}
    (started : front.getLast?.any isNameChar = false) (ended : rest.head?.any isNameChar = false) :
    ∃ early, words (front ++ (spelled ++ rest)) = early ++ keywordOf kind :: name ::
      words rest := by
  obtain ⟨modifiers, blanks, rfl, isText, someBlanks, allBlank⟩ := announced
  obtain ⟨blank, blanks, rfl⟩ := List.exists_cons_of_ne_nil someBlanks
  have separate : ∀ c ∈ blank :: blanks, isNameChar c = false :=
    fun c inside => isNameChar_of_isBlank (allBlank c inside)
  -- Modifiers end with a blank, so the word for the kind begins anew.
  have begun : (front ++ modifiers).getLast?.any isNameChar = false := by
    rw [List.getLast?_append]
    cases last : modifiers.getLast? with
    | none => simpa [last] using started
    | some c =>
      have := isText.last
      simpa [last] using this
  refine ⟨words (front ++ modifiers), ?_⟩
  have grouped : front ++ (modifiers ++ (keywordOf kind ++ (blank :: blanks ++ name)) ++ rest) =
      (front ++ modifiers) ++ (keywordOf kind ++ (blank :: blanks ++ (name ++ rest))) := by simp
  have behind : (blank :: blanks ++ (name ++ rest)).head?.any isNameChar = false :=
    separate blank List.mem_cons_self
  rw [grouped, words_append_of_last begun,
    words_append_of_name (keywordOf_ne_nil kind) (isNameChar_keywordOf kind) behind,
    words_append_of_separators separate, words_append_of_name nonempty named ended]

/-- A stretch of text is closed when no announcement that begins in it can reach beyond it: behind
its last character of a name stands one that is no part of any announcement. -/
def Closed (text : List Char) : Prop :=
  ∃ front c back, text = front ++ c :: back ∧ isWordy c = false ∧ ∀ d ∈ back, isNameChar d = false

theorem Closed.append (closed : Closed text) (front : List Char) : Closed (front ++ text) := by
  obtain ⟨early, c, late, rfl, closes, noName⟩ := closed
  exact ⟨front ++ early, c, late, by simp, closes, noName⟩

/-- What is announced within a closed stretch of text stands among its words. -/
theorem words_of_announced {spelled more : List Char} {front back : List Char}
    (announced : Announced kind name (front.getLast?.or before) spelled more) (nonempty : name ≠ [])
    (named : ∀ c ∈ name, isNameChar c = true) (closed : Closed (front ++ back)) (begins : back ≠ [])
    (split : back ++ rest = spelled ++ more) :
    ∃ early late, words (front ++ back) = early ++ keywordOf kind :: name :: late := by
  obtain ⟨started, ⟨values, spells⟩, ended⟩ := announced
  have wordy := spells.isWordy named
  rcases List.append_eq_append_iff.mp split with ⟨beyond, rfl, _⟩ | ⟨inside, rfl, rfl⟩
  · -- The announcement reaches to the end of the stretch, and so over the character that closes it.
    exfalso
    obtain ⟨early, c, late, isText, closes, noName⟩ := closed
    -- The stretch behind the front begins with the first letter of the announcement.
    have letter : back.head?.any isNameChar = true := by
      obtain ⟨d, back, rfl⟩ := List.exists_cons_of_ne_nil begins
      exact spells.head
    have unreached : c ∉ back :=
      notMem_of_class (fun d inside => wordy d (List.mem_append_left beyond inside)) closes
    rcases append_cases isText with ⟨between, rfl, rfl⟩ | ⟨between, rfl, isBack⟩
    · -- Behind the character that closes the stretch no name can begin.
      obtain ⟨e, back, rfl⟩ := List.exists_cons_of_ne_nil begins
      rw [List.head?_cons, Option.any_some, noName e (by simp)] at letter
      cases letter
    · exact unreached (by simp [isBack])
  · -- The announcement lies within the stretch, and its words are words of the stretch.
    have startedHere : front.getLast?.any isNameChar = false := started.of_or.notName
    have endedHere : inside.head?.any isNameChar = false := by
      cases inside with
      | nil => rfl
      | cons c inside => exact ended
    obtain ⟨early, found⟩ := words_announcement spells nonempty named startedHere endedHere
    exact ⟨early, words inside, found⟩

end Lineage.Java
