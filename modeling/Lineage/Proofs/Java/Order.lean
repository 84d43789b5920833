import Lineage.Proofs.Java.Boundary
import Mathlib.Data.List.Sort

/-! The order of declarations: no place begins two headers, so the two scans merge into one by
rising places. -/

namespace Lineage.Text.Reader

variable {α : Type}

/-- Findings come in the order of their places, no two at the same one. -/
theorem allFrom_rising (reader : Reader α) (text : List Char) (offset skip : Nat)
    (before : Option Char) :
    (reader.allFrom offset before skip text).Pairwise fun one other => one.start < other.start := by
  induction text generalizing offset before skip with
  | nil => cases skip <;> exact List.Pairwise.nil
  | cons c text ih =>
    cases skip with
    | succ skip => exact ih _ _ _
    | zero =>
      rw [allFrom]
      split
      · exact ih _ _ _
      · rename_i here atPlace
        refine List.pairwise_cons.mpr ⟨fun later member => ?_, ih _ _ _⟩
        -- What is found here begins here, and all else begins behind the first character.
        obtain ⟨_, _, rfl⟩ := Option.map_eq_some_iff.mp atPlace
        exact (bounds_of_mem_allFrom member).1

end Lineage.Text.Reader

namespace Lineage.Java

open Lineage.Text

/-- A word before a blank is all that stands before the first blank of the text. -/
theorem word_eq_of_append {word word' more more' : List Char}
    (solid : ∀ c ∈ word, isBlank c = false) (solid' : ∀ c ∈ word', isBlank c = false)
    (blank : more.head?.any isBlank = true) (blank' : more'.head?.any isBlank = true)
    (same : word ++ more = word' ++ more') : word = word' ∧ more = more' := by
  -- Each word is what stands before the first blank.
  have cut : ∀ {word more : List Char}, (∀ c ∈ word, isBlank c = false) →
      more.head?.any isBlank = true →
        (word ++ more).takeWhile (!isBlank ·) = word := by
    intro word more solid blank
    obtain ⟨c, isHead, isBlank⟩ := (Option.any_eq_true _ _).mp blank
    obtain ⟨rest, rfl⟩ := List.head?_eq_some_iff.mp isHead
    rw [List.takeWhile_append_of_pos fun d inside => by simp [solid d inside],
      List.takeWhile_cons_of_neg (by simp [isBlank]), List.append_nil]
  obtain rfl : word = word' := by rw [← cut solid blank, same, cut solid' blank']
  exact ⟨rfl, List.append_cancel_left same⟩

variable {values values' : List (List Char)} {text text' : List Char}

/-- Modifiers from a list are modifiers from a longer one. -/
theorem ModifierText.mono {words words' : List (List Char)}
    (isText : ModifierText words values text) (among : ∀ word ∈ words, word ∈ words') :
    ModifierText words' values text := by
  induction isText with
  | none => exact .none
  | more listed someBlanks allBlank _ ih => exact .more (among _ listed) someBlanks allBlank ih

/-- Modifiers behind modifiers are modifiers. -/
theorem ModifierText.append {words : List (List Char)} (isText : ModifierText words values text)
    (isText' : ModifierText words values' text') :
    ModifierText words (values ++ values') (text ++ text') := by
  induction isText with
  | none => exact isText'
  | more listed someBlanks allBlank _ ih =>
    rw [List.append_assoc]
    exact .more listed someBlanks allBlank ih

/-- The words that are read are those of the list. -/
theorem ModifierText.listed {words : List (List Char)} (isText : ModifierText words values text) :
    ∀ value ∈ values, value ∈ words := by
  induction isText with
  | none => simp
  | more listed _ _ _ ih => exact List.forall_mem_cons.mpr ⟨listed, ih⟩

/-- Words that can be told apart by blanks. -/
def AreWords (words : List (List Char)) : Prop :=
  ∀ word ∈ words, word ≠ [] ∧ ∀ c ∈ word, isBlank c = false

/-- Modifiers begin with a word and not with a blank. -/
theorem ModifierText.head {words : List (List Char)} (isText : ModifierText words values text)
    (areWords : AreWords words) (nonempty : values ≠ []) (rest : List Char) :
    (text ++ rest).head?.any isBlank = false := by
  cases isText with
  | none => exact absurd rfl nonempty
  | @more word _ _ _ listed _ _ _ =>
    obtain ⟨someLetters, solid⟩ := areWords word listed
    obtain ⟨c, letters, rfl⟩ := List.exists_cons_of_ne_nil someLetters
    exact solid c List.mem_cons_self

/-- Words with blanks behind each of them are read in one way only: of two readings of a text, one
begins with the other. -/
theorem ModifierText.begins_other {words words' : List (List Char)} {rest rest' : List Char}
    (isText : ModifierText words values text) (isText' : ModifierText words' values' text')
    (areWords : AreWords words) (areWords' : AreWords words')
    (same : text ++ rest = text' ++ rest') :
    values <+: values' ∨ values' <+: values := by
  -- Along both rows of words, as long as both go on.
  induction isText generalizing values' text' with
  | none => exact Or.inl List.nil_prefix
  | @more word blanks further values listed someBlanks allBlank isFurther ih =>
    cases isText' with
    | none => exact Or.inr List.nil_prefix
    | @more word' blanks' further' values' listed' someBlanks' allBlank' isFurther' =>
      have blankHead : ∀ {blanks rest : List Char}, blanks ≠ [] → (∀ c ∈ blanks, isBlank c = true) →
          (blanks ++ rest).head?.any isBlank = true := by
        intro blanks rest someBlanks allBlank
        obtain ⟨c, blanks, rfl⟩ := List.exists_cons_of_ne_nil someBlanks
        exact allBlank c List.mem_cons_self
      simp only [List.append_assoc] at same
      obtain ⟨rfl, behind⟩ := word_eq_of_append (areWords word listed).2 (areWords' word' listed').2
        (blankHead someBlanks allBlank) (blankHead someBlanks' allBlank') same
      by_cases last : values = []
      · exact Or.inl (by simp [last])
      by_cases last' : values' = []
      · exact Or.inr (by simp [last'])
      -- Other words follow in both readings, and behind the blanks they begin at the same place.
      have trimmed := congrArg trimStart behind
      rw [trimStart_append allBlank (isFurther.head areWords last rest),
        trimStart_append allBlank' (isFurther'.head areWords' last' rest')] at trimmed
      exact (ih isFurther' trimmed).imp (List.cons_prefix_cons.mpr ⟨rfl, ·⟩)
        (List.cons_prefix_cons.mpr ⟨rfl, ·⟩)

/-- The words of an announcement up to that for the kind, each with blanks behind it. -/
theorem Announcement.words {kind : Kind} {name : List Char}
    (announcement : Announcement kind values name text) :
    ∃ spelled, text = spelled ++ name ∧ (∀ value ∈ values, value ∈ modifiersOf kind) ∧
      ModifierText (keywordOf kind :: modifiersOf kind) (values ++ [keywordOf kind]) spelled := by
  -- The keyword is read as one more word behind the modifiers.
  obtain ⟨modifiers, blanks, rfl, isText, someBlanks, allBlank⟩ := announcement
  have keyword : ModifierText (keywordOf kind :: modifiersOf kind) [keywordOf kind]
    (keywordOf kind ++ blanks ++ []) :=
    .more List.mem_cons_self someBlanks allBlank .none
  rw [List.append_nil] at keyword
  refine ⟨modifiers ++ (keywordOf kind ++ blanks), by simp, isText.listed, ?_⟩
  exact (isText.mono fun word listed => List.mem_cons_of_mem _ listed).append keyword

/-- Two announcements at one place are made by the same word. -/
theorem Announcement.keywordOf_eq {kind kind' : Kind} {name name' rest rest' : List Char}
    (one : Announcement kind values name text) (other : Announcement kind' values' name' text')
    (same : text ++ rest = text' ++ rest') : keywordOf kind = keywordOf kind' := by
  have areWords : ∀ kind, AreWords (keywordOf kind :: modifiersOf kind) := by
    unfold AreWords
    intro kind
    cases kind <;> decide
  -- The word for a kind is no modifier, so no announcement goes on behind it.
  have ends : ∀ {kind kind' : Kind} {values values' : List (List Char)},
      (∀ value ∈ values', value ∈ modifiersOf kind') →
        values ++ [keywordOf kind] <+: values' ++ [keywordOf kind'] →
          keywordOf kind = keywordOf kind' := by
    intro kind kind' values values' listed begins
    have noModifier : keywordOf kind ∉ modifiersOf kind' := by cases kind <;> cases kind' <;> decide
    rcases List.prefix_concat_iff.mp begins with whole | ⟨more, rfl⟩
    · exact List.cons.inj (List.append_inj' whole rfl).2 |>.1
    · exact absurd (listed _ (by simp)) noModifier
  obtain ⟨spelled, rfl, listed, isText⟩ := one.words
  obtain ⟨spelled', rfl, listed', isText'⟩ := other.words
  rw [List.append_assoc, List.append_assoc] at same
  rcases isText.begins_other isText' (areWords kind) (areWords kind') same with begins | begins
  · exact ends listed' begins
  · exact (ends listed begins).symm

/-- No place begins both the header of a class and that of an interface. -/
theorem classHeader_or_interfaceHeader (place : Cursor) :
    Reader.classHeader Reader.anyName place = [] ∨
      Reader.interfaceHeader Reader.anyName place = [] := by
  by_contra both
  obtain ⟨someClass, someInterface⟩ := not_or.mp both
  obtain ⟨one, isOne⟩ := List.exists_mem_of_ne_nil _ someClass
  obtain ⟨other, isOther⟩ := List.exists_mem_of_ne_nil _ someInterface
  obtain ⟨_, _, _, _, split, _, ⟨_, announced⟩, _⟩ := Reader.announces_classHeader _ _ _ _ isOne
  obtain ⟨_, _, _, _, split', _, ⟨_, announced'⟩, _⟩ :=
    Reader.announces_interfaceHeader _ _ _ _ isOther
  -- They would be announced by different words.
  have sameWord := announced.keywordOf_eq announced' (split.symm.trans split')
  exact absurd sameWord (by decide)

/-- A class and an interface of a text begin at different places. -/
theorem start_ne_of_mem {one other : Placed} (isClass : one ∈ classesIn text)
    (isInterface : other ∈ interfacesIn text) : one.start ≠ other.start := by
  obtain ⟨found, member, rfl⟩ := List.mem_map.mp isClass
  obtain ⟨found', member', rfl⟩ := List.mem_map.mp isInterface
  obtain ⟨front, rest, rfl, start, here⟩ := Text.Reader.foundAt_of_mem_allFrom member
  obtain ⟨front', rest', split, start', here'⟩ := Text.Reader.foundAt_of_mem_allFrom member'
  intro same
  have sized : front.length = front'.length := by
    simp only at same
    omega
  obtain ⟨rfl, rfl⟩ := List.append_inj split sized
  -- At the one place there is nothing to be found for one of the two.
  rcases classHeader_or_interfaceHeader (.beyond 0 none front rest) with nothing | nothing
  · rw [Text.Reader.foundAt_eq_none nothing] at here
    cases here
  · rw [Text.Reader.foundAt_eq_none nothing] at here'
    cases here'

/-- What a reader finds comes by rising places. -/
theorem placedIn_rising {α : Type} (reader : Text.Reader α) (declare : α → Declaration)
    (text : List Char) :
    (placedIn reader declare text).Pairwise fun one other => one.start < other.start :=
  List.pairwise_map.mpr (Text.Reader.allFrom_rising reader text 0 0 none)

/-- Rows by rising places that have no place in common merge into one by rising places. -/
theorem merge_rising {left right : List Placed}
    (rising : left.Pairwise fun one other => one.start < other.start)
    (risingRight : right.Pairwise fun one other => one.start < other.start)
    (apart : ∀ one ∈ left, ∀ other ∈ right, one.start ≠ other.start) :
    (left.merge right fun one other => one.start ≤ other.start).Pairwise fun one other =>
      one.start < other.start := by
  have ordered : (left.merge right fun one other => one.start ≤ other.start).Pairwise
      fun one other =>
        decide (one.start ≤ other.start) = true := by
    refine List.pairwise_merge ?_ ?_ left right ?_ ?_
    · intro one two three
      simpa using fun early late => Nat.le_trans early late
    · intro one other
      simpa using Nat.le_total one.start other.start
    · exact rising.imp fun less => by simpa using less.le
    · exact risingRight.imp fun less => by simpa using less.le
  -- The order of the rows does not matter for their places to be different.
  have distinct : (left.merge right fun one other => one.start ≤ other.start).Pairwise
      fun one other =>
        one.start ≠ other.start := by
    refine ((List.merge_perm_append _).pairwise_iff fun different => different.symm).mpr ?_
    exact List.pairwise_append.mpr ⟨rising.imp Nat.ne_of_lt, risingRight.imp Nat.ne_of_lt, apart⟩
  refine ordered.imp₂ (fun _ _ early different => ?_) distinct
  exact Nat.lt_of_le_of_ne (by simpa using early) different

/-- Declarations come in the order of their headers: no place begins headers of both kinds, each
finding of either scan gives exactly one declaration, and these come by rising places. -/
theorem declarationsIn_ordered (text : List Char) :
    (∀ place, Reader.classHeader Reader.anyName place = [] ∨
      Reader.interfaceHeader Reader.anyName place = []) ∧
      ∃ rows : List Placed, rows.Perm (classesIn text ++ interfacesIn text) ∧
        rows.Pairwise (fun one other => one.start < other.start) ∧ declarationsIn text = rows.map
          (·.declaration) :=
  ⟨classHeader_or_interfaceHeader, _, List.merge_perm_append _,
    merge_rising (placedIn_rising _ _ text) (placedIn_rising _ _ text)
      fun _ isClass _ isInterface => start_ne_of_mem isClass isInterface, rfl⟩

end Lineage.Java
