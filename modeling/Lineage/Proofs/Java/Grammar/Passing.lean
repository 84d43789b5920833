import Lineage.Proofs.Java.Grammar.Reading

/-! Stretches of text over which a search for headers passes: those in which the word for the kind
does not stand. -/

namespace Lineage.Java

open Lineage.Text

/-- A header may begin behind the one character or the other. -/
theorem MayPrecede.or {first second : Option Char} (started : MayPrecede first)
    (startedElse : MayPrecede second) :
    MayPrecede (first.or second) := by
  cases first with
  | none => exact startedElse
  | some c => exact started

theorem keywordOf_mem_typeWords (kind : Kind) : keywordOf kind ∈ typeWords := by
  cases kind <;> decide

/-- Whatever its modifiers, a class is announced by the same word. -/
theorem keywordOf_ofClass (introduced : Introduction .plainClass)
    (superclass : Option (Clause TypeReference)) (interfaces : Option (Clause ReferenceList)) :
    keywordOf (HeaderText.ofClass introduced superclass interfaces).declaration.kind =
      keywordOf .plainClass := by
  rw [HeaderText.declaration]
  dsimp only
  split <;> rfl

/-- The words that announce a type are made of letters. -/
theorem typeWord_named {word : List Char} (listed : word ∈ typeWords) :
    word ≠ [] ∧ ∀ c ∈ word, isNameChar c = true := by
  have all : ∀ word ∈ typeWords, word ≠ [] ∧ ∀ c ∈ word, isNameChar c = true := by decide
  exact all word listed

/-- In a name stands no other word than the name. -/
theorem StandsIn.eq_name {word name : List Char} (named : ∀ c ∈ name, isNameChar c = true)
    (stands : StandsIn word name) : word = name := by
  obtain ⟨front, rest, rfl, started, ended⟩ := stands
  -- A character before the word or behind it would belong to a name.
  have noFront : front = [] := by
    rcases List.eq_nil_or_concat front with rfl | ⟨front, c, rfl⟩
    · rfl
    · have notName := started.notName
      simp [named c (by simp)] at notName
  have noRest : rest = [] := by
    cases rest with
    | nil => rfl
    | cons c rest => simp [named c (by simp)] at ended
  rw [noFront, noRest, List.nil_append, List.append_nil]

section Standing

variable {word : List Char} (listed : word ∈ typeWords)
include listed

/-- A word that stands in two texts in a row stands in one of them, unless a name reaches over the
seam. -/
theorem StandsIn.of_append {one other : List Char} (stands : StandsIn word (one ++ other))
    (seam : one.getLast?.any isNameChar = false ∨ other.head?.any isNameChar = false) :
    StandsIn word one ∨ StandsIn word other := by
  obtain ⟨front, rest, split, started, ended⟩ := stands
  rcases List.append_eq_append_iff.mp split with ⟨early, rfl, isOther⟩ | ⟨late, rfl, behind⟩
  · -- The word begins behind the seam.
    rw [List.getLast?_append] at started
    exact Or.inr ⟨early, rest, isOther, started.of_or, ended⟩
  · rcases List.append_eq_append_iff.mp behind with ⟨left, rfl, isRest⟩ | ⟨right, isWord, isOther⟩
    · -- The word ends before the seam.
      refine Or.inl ⟨front, left, rfl, started, ?_⟩
      cases left with
      | nil => rfl
      | cons c left => rwa [isRest] at ended
    · obtain ⟨_, named⟩ := typeWord_named listed
      cases right with
      | nil =>
        -- The word ends at the seam.
        rw [List.append_nil] at isWord
        exact Or.inl ⟨front, [], by rw [isWord, List.append_nil], started, rfl⟩
      | cons c right =>
        rcases List.eq_nil_or_concat late with rfl | ⟨late, d, rfl⟩
        · -- The word begins at the seam.
          rw [List.nil_append] at isWord
          exact Or.inr ⟨[], rest, by rw [isWord, isOther, List.nil_append], rfl, ended⟩
        · -- The characters on both sides of the seam belong to the word.
          have before : isNameChar d = true := named d (by simp [isWord])
          have behind : isNameChar c = true := named c (by simp [isWord])
          rcases seam with noName | noName
          · simp [before] at noName
          · simp [isOther, behind] at noName

/-- A sign in front of a text adds no word. -/
theorem not_standsIn_cons {c : Char} (sign : isNameChar c = false) {rest : List Char}
    (absent : ¬ StandsIn word rest) :
    ¬ StandsIn word (c :: rest) := by
  intro stands
  have split : StandsIn word ([c] ++ rest) := stands
  rcases split.of_append listed (Or.inl sign) with ⟨front, later, isSign, started, ended⟩ | here
  · -- The word would be the sign.
    obtain ⟨nonempty, named⟩ := typeWord_named listed
    obtain ⟨d, word, rfl⟩ := List.exists_cons_of_ne_nil nonempty
    have inside : d ∈ [c] := by rw [isSign]; simp
    rw [List.mem_singleton.mp inside] at named
    rw [named c List.mem_cons_self] at sign
    cases sign
  · exact absent here

/-- Blanks in front of a text add no word. -/
theorem not_standsIn_blanks (space : Blanks) {rest : List Char} (absent : ¬ StandsIn word rest) :
    ¬ StandsIn word (space.text ++ rest) := by
  obtain ⟨text, blank⟩ := space
  induction text with
  | nil => exact absent
  | cons c text ih =>
    exact not_standsIn_cons listed (isNameChar_of_isBlank (blank c List.mem_cons_self))
      (ih fun d inside => blank d (List.mem_cons_of_mem c inside))

/-- A text in which the word does not stand adds none in front of one that continues no name. -/
theorem not_standsIn_append {text rest : List Char} (here : ¬ StandsIn word text)
    (ended : rest.head?.any isNameChar = false) (absent : ¬ StandsIn word rest) :
    ¬ StandsIn word (text ++ rest) :=
  fun stands => (stands.of_append listed (Or.inr ended)).elim here absent

/-- No word that announces a type stands in a name and what follows it, unless it stands in what
follows. -/
theorem not_standsIn_name (name : Name) {rest : List Char}
    (ended : rest.head?.any isNameChar = false) (absent : ¬ StandsIn word rest) :
    ¬ StandsIn word (name.text ++ rest) := by
  refine not_standsIn_append listed (fun stands => name.noKeyword ?_) ended absent
  rw [← stands.eq_name name.named]
  exact listed

/-- No word that announces a type stands in type arguments and what follows them, unless it stands
in what follows. -/
theorem not_standsIn_brackets (brackets : Option Brackets) {rest : List Char}
    (absent : ¬ StandsIn word rest) :
    ¬ StandsIn word (bracketsText brackets ++ rest) := by
  -- The arguments are silent, and brackets separate them from the rest.
  cases brackets with
  | none => exact absent
  | some given =>
    rw [bracketsText, Option.map_some, argumentsText, Option.elim_some, Angles.text,
      List.append_assoc, List.cons_append, List.append_assoc]
    refine not_standsIn_blanks listed given.space (not_standsIn_cons listed (by decide) ?_)
    exact not_standsIn_append listed (given.silent word listed) (by rfl)
      (not_standsIn_cons listed (by decide) absent)

section Parts

variable {rest : List Char} (ended : rest.head?.any isPathChar = false)
  (absent : ¬ StandsIn word rest)
include ended absent

/-- No name of a path announces a type. -/
theorem not_standsIn_names (names : List Name) :
    ¬ StandsIn word ((names.map (·.toWord)).flatMap Word.dotted ++ rest) ∧
      ((names.map (·.toWord)).flatMap Word.dotted ++ rest).head?.any isNameChar = false := by
  induction names with
  | nil => exact ⟨absent, isNameChar_of_isPathChar ended⟩
  | cons name names ih =>
    rw [List.map_cons, List.flatMap_cons, Word.dotted, List.append_assoc]
    exact ⟨not_standsIn_cons listed (by decide) (not_standsIn_name listed name ih.2 ih.1), rfl⟩

/-- No word that announces a type stands in a reference. -/
theorem not_standsIn_reference (reference : TypeReference) :
    ¬ StandsIn word (reference.text ++ rest) := by
  -- From the end to the front: the type arguments, the names behind dots, the first name.
  obtain ⟨absentNames, endedNames⟩ := not_standsIn_names listed
    (Reader.head_bracketsText reference.arguments ended)
      (not_standsIn_brackets listed reference.arguments absent)
    reference.more
  rw [TypeReference.text, QualifiedName.text, List.append_assoc, List.append_assoc]
  exact not_standsIn_name listed reference.first endedNames absentNames

/-- No word that announces a type stands in references in a row. -/
theorem not_standsIn_references (list : ReferenceList) : ¬ StandsIn word (list.text ++ rest) := by
  -- From the last reference to the first: each one is followed by a comma or by the rest.
  have further : ∀ more : List FurtherReference,
      ¬ StandsIn word (more.flatMap FurtherReference.text ++ rest) ∧
        (more.flatMap FurtherReference.text ++ rest).head?.any isPathChar = false := by
    intro more
    induction more with
    | nil => exact ⟨absent, ended⟩
    | cons next more ih =>
      rw [List.flatMap_cons, FurtherReference.text, List.append_assoc, List.append_assoc,
        List.cons_append, List.append_assoc]
      refine ⟨not_standsIn_blanks listed next.before (not_standsIn_cons listed (by decide)
        (not_standsIn_blanks listed next.behind ?_)), next.before.head rfl⟩
      exact not_standsIn_reference listed ih.2 ih.1 next.reference
  obtain ⟨absentFurther, endedFurther⟩ := further list.more
  rw [ReferenceList.text, List.append_assoc]
  exact not_standsIn_reference listed endedFurther absentFurther list.first

/-- A clause holds the word only if what it introduces does. -/
theorem not_standsIn_link {α : Type} {link : List Char} (isLink : link ∈ linkWords)
    {write : α → List Char} (absentContent : ∀ content, ¬ StandsIn word (write content ++ rest))
    (clause : Option (Clause α)) :
    ¬ StandsIn word (linkText link write clause ++ rest) ∧
      (linkText link write clause ++ rest).head?.any isPathChar = false := by
  cases clause with
  | none => exact ⟨absent, ended⟩
  | some given =>
    have apart : ∀ link ∈ linkWords, ∀ word ∈ typeWords, ¬ StandsIn word link := by decide
    rw [linkText, Option.elim_some, List.append_assoc, List.append_assoc, List.append_assoc]
    refine ⟨not_standsIn_blanks listed given.before.toBlanks ?_, given.before.head _⟩
    exact not_standsIn_append listed (apart link isLink word listed)
      (isNameChar_of_isPathChar (given.behind.head _))
      (not_standsIn_blanks listed given.behind.toBlanks (absentContent given.content))

end Parts

/-- An announcement does not hold the word for another kind. -/
theorem not_standsIn_introduction {kind : Kind} (different : word ≠ keywordOf kind)
    (introduced : Introduction kind) {rest : List Char} (ended : rest.head?.any isNameChar = false)
    (absent : ¬ StandsIn word rest) :
    ¬ StandsIn word (introduced.text ++ rest) := by
  have apart : ∀ modifier ∈ modifiersOf kind, ∀ word ∈ typeWords, ¬ StandsIn word modifier := by
    cases kind <;> decide
  -- Behind the modifiers stands the word for the kind, which is another one.
  have absentKeyword :
      ¬ StandsIn word (keywordOf kind ++
        (introduced.space.text ++ (introduced.name.text ++ rest))) := by
    refine not_standsIn_append listed
      (fun stands => different (stands.eq_name (isNameChar_keywordOf kind)))
      (isNameChar_of_isPathChar (introduced.space.head _)) ?_
    exact not_standsIn_blanks listed introduced.space.toBlanks
      (not_standsIn_name listed introduced.name ended absent)
  rw [Introduction.text, List.append_assoc, List.append_assoc, List.append_assoc]
  induction introduced.modifiers with
  | nil => exact absentKeyword
  | cons modifier modifiers ih =>
    rw [List.flatMap_cons, Modifier.text, List.append_assoc, List.append_assoc]
    exact not_standsIn_append listed (apart modifier.word modifier.listed word listed)
      (isNameChar_of_isPathChar (modifier.space.head _))
      (not_standsIn_blanks listed modifier.space.toBlanks ih)

/-- A header does not hold the word for another kind. -/
theorem not_standsIn_header (header : HeaderText)
    (different : word ≠ keywordOf header.declaration.kind) {rest : List Char}
    (ended : rest.head?.any isPathChar = false) (absent : ¬ StandsIn word rest) :
    ¬ StandsIn word (header.text ++ rest) := by
  have extendsListed : "extends".toList ∈ linkWords := by decide
  have implementsListed : "implements".toList ∈ linkWords := by decide
  -- Each part is put in front of the parts behind it, beginning with the last clause.
  cases header with
  | ofClass introduced superclass interfaces =>
    rw [keywordOf_ofClass] at different
    obtain ⟨absentInterfaces, endedInterfaces⟩ :=
      not_standsIn_link listed ended absent implementsListed
      (not_standsIn_references listed ended absent) interfaces
    obtain ⟨absentSuperclass, endedSuperclass⟩ :=
      not_standsIn_link listed endedInterfaces absentInterfaces
      extendsListed (not_standsIn_reference listed endedInterfaces absentInterfaces) superclass
    rw [HeaderText.text, HeaderText.tail, List.append_assoc, List.append_assoc, List.append_assoc]
    exact not_standsIn_introduction listed different introduced
      (isNameChar_of_isPathChar (Reader.head_bracketsText _ endedSuperclass))
      (not_standsIn_brackets listed introduced.parameters absentSuperclass)
  | ofInterface introduced interfaces =>
    obtain ⟨absentInterfaces, endedInterfaces⟩ :=
      not_standsIn_link listed ended absent extendsListed
      (not_standsIn_references listed ended absent) interfaces
    rw [HeaderText.text, HeaderText.tail, List.append_assoc, List.append_assoc]
    exact not_standsIn_introduction listed different introduced
      (isNameChar_of_isPathChar (Reader.head_bracketsText _ endedInterfaces))
      (not_standsIn_brackets listed introduced.parameters absentInterfaces)

end Standing

/-- A text that leads up to a header does not end within a word. -/
theorem LeadsUp.not_part {front begun word : List Char} (leads : LeadsUp (front ++ begun))
    (nonempty : begun ≠ []) (spelled : ∀ c ∈ word, isNameChar c = true ∨ c = '-') :
    ¬ begun <+: word := by
  -- The last character before the place would belong to the word.
  rintro ⟨later, rfl⟩
  obtain ⟨early, c, rfl⟩ := (List.eq_nil_or_concat begun).resolve_left nonempty
  have isLast : (front ++ early.concat c).getLast? = some c := by simp
  obtain ⟨started, noHyphen⟩ := leads.last
  rw [isLast] at started noHyphen
  rcases spelled c (by simp) with named | isHyphen
  · exact absurd (started.notName.symm.trans named) (by decide)
  · exact noHyphen (by rw [isHyphen])

/-- A text that leads up to a header does not end with a modifier and blanks. -/
theorem LeadsUp.not_modifier {kind : Kind} {front word blanks : List Char}
    (leads : LeadsUp (front ++ (word ++ blanks))) (listed : word ∈ modifiersOf kind)
    (allBlank : ∀ c ∈ blanks, isBlank c = true) : ¬ MayPrecede front.getLast? := by
  have ends : ∀ word ∈ modifiersOf kind, word ∈ classModifiers ∧ word ≠ [] ∧
      word.getLast?.any isBlank = false := by
    cases kind <;> decide
  obtain ⟨isModifier, nonempty, notBlank⟩ := ends word listed
  -- Without the blanks at its end the text ends with the modifier.
  have trimmed : trimEnd (front ++ (word ++ blanks)) = front ++ word := by
    rw [← List.append_assoc]
    apply trimEnd_append allBlank
    obtain ⟨early, c, rfl⟩ := (List.eq_nil_or_concat word).resolve_left nonempty
    simpa using notBlank
  exact leads.modifier word isModifier front trimmed

/-- Where modifiers and the word for a kind begin in a text that leads up to a header, the word
stands in it. -/
theorem ModifierText.standsIn {kind : Kind} {values : List (List Char)} {modifiers : List Char}
    (isText : ModifierText (modifiersOf kind) values modifiers) {front begun rest more : List Char}
    (started : MayPrecede front.getLast?) (nonempty : begun ≠ [])
    (split : begun ++ rest = modifiers ++ (keywordOf kind ++ more))
    (ended : more.head?.any isNameChar = false) (leads : LeadsUp (front ++ begun)) :
    StandsIn (keywordOf kind) (front ++ begun) := by
  have spelled : ∀ word ∈ modifiersOf kind, ∀ c ∈ word, isNameChar c = true ∨ c = '-' := by
    cases kind <;> decide
  -- Along the modifiers; those that lie in the text are counted to its front.
  induction isText generalizing front begun with
  | none =>
    rw [List.nil_append] at split
    rcases List.append_eq_append_iff.mp split with ⟨later, isWord, _⟩ | ⟨behind, rfl, rfl⟩
    · have named : ∀ c ∈ keywordOf kind, isNameChar c = true ∨ c = '-' :=
        fun c inside => Or.inl (isNameChar_keywordOf kind c inside)
      exact absurd ⟨later, isWord.symm⟩ (leads.not_part nonempty named)
    · refine ⟨front, behind, rfl, started, ?_⟩
      cases behind with
      | nil => rfl
      | cons c behind => exact ended
  | @more word blanks modifiers values listed someBlanks allBlank _ ih =>
    rw [List.append_assoc, List.append_assoc] at split
    rcases List.append_eq_append_iff.mp split with ⟨later, isWord, _⟩ | ⟨behind, rfl, isRest⟩
    · exact absurd ⟨later, isWord.symm⟩ (leads.not_part nonempty (spelled word listed))
    · rcases List.append_eq_append_iff.mp isRest.symm with ⟨later, rfl, _⟩ | ⟨further, rfl, isMore⟩
      · -- The text would end with the modifier and some of the blanks behind it.
        exact absurd started (leads.not_modifier listed fun c inside =>
          allBlank c (List.mem_append_left later inside))
      · by_cases nothing : further = []
        · rw [nothing, List.append_nil] at leads
          exact absurd started (leads.not_modifier listed allBlank)
        · -- The text goes on behind the blanks, and there another word may begin.
          obtain ⟨early, c, rfl⟩ := (List.eq_nil_or_concat blanks).resolve_left someBlanks
          have grouped : front ++ (word ++ (early.concat c ++ further)) =
              (front ++ (word ++ early.concat c)) ++ further := by simp
          have startedBehind : MayPrecede (front ++ (word ++ early.concat c)).getLast? := by
            have isLast : (front ++ (word ++ early.concat c)).getLast? = some c := by simp
            rw [isLast]
            exact mayPrecede_of_isBlank (allBlank c (by simp))
          rw [grouped] at leads ⊢
          exact ih startedBehind nothing isMore.symm leads

namespace Reader

open Lineage.Text.Reader

/-- A reader announces types of a kind when each of its readings begins with the announcement of
one. -/
def Announces {α : Type} (reader : Text.Reader α) (kind : Kind) (language : List Char → Prop) :
    Prop :=
  ∀ offset before text result, result ∈ reader ⟨offset, before, text⟩ →
    ∃ name spelled more, language name ∧ text = spelled ++ more ∧
      Announced kind name before spelled more

/-- What begins with an announcement announces a type. -/
theorem announces_bind {α : Type} (kind : Kind)
    (next : List (List Char) × Excerpt → Text.Reader α) :
    Announces (announcement kind anyName >>= next) kind IsName := by
  intro offset before text result read
  obtain ⟨⟨values, excerpt⟩, _, readName, _⟩ := mem_bind.mp read
  obtain ⟨started, spelled, name, rest, isText, spells, isName, ended, _⟩ :=
    (mem_announcement spells_anyName).mp readName
  exact ⟨name, spelled, rest, isName, isText, started, ⟨values, spells⟩, ended⟩

theorem announces_classHeader : Announces (classHeader anyName) .plainClass IsName := by
  rw [classHeader_eq]
  exact announces_bind _ _

theorem announces_interfaceHeader : Announces (interfaceHeader anyName) .interface IsName := by
  rw [interfaceHeader_eq]
  exact announces_bind _ _

/-- A search for headers passes over a stretch in which the word for the kind does not stand, if the
text ends with it or it leads up to a header. -/
theorem Announces.allFrom_silent {α : Type} {reader : Text.Reader α} {kind : Kind}
    {language : List Char → Prop} (announces : Announces reader kind language)
    {taken rest : List Char} (absent : ¬ StandsIn (keywordOf kind) taken)
    (leads : rest ≠ [] → LeadsUp taken) (offset : Nat) (before : Option Char) :
    reader.allFrom offset before 0 (taken ++ rest) =
      reader.allFrom (offset + taken.length) (taken.getLast?.or before) 0 rest := by
  refine Text.Reader.allFrom_append fun front c back isTaken => ?_
  rw [List.eq_nil_iff_forall_not_mem]
  -- A reading that begins in the stretch announces a type there, with the word for the kind.
  intro result read
  obtain ⟨name, _, more, _, split, started,
    ⟨values, modifiers, blanks, rfl, isText, someBlanks, allBlank⟩, _⟩ :=
    announces _ _ _ _ read
  -- The word for the kind is followed by a blank.
  have ended : (blanks ++ (name ++ more)).head?.any isNameChar = false :=
    isNameChar_of_isPathChar (Spacing.head ⟨⟨blanks, allBlank⟩, someBlanks⟩ _)
  have grouped : modifiers ++ (keywordOf kind ++ (blanks ++ name)) ++ more =
      modifiers ++ (keywordOf kind ++ (blanks ++ (name ++ more))) := by simp
  rw [grouped] at split
  apply absent
  rw [isTaken]
  by_cases nothing : rest = []
  · -- All of the announcement lies in the stretch.
    rw [nothing, List.append_nil] at split
    refine ⟨front ++ modifiers, blanks ++ (name ++ more), by rw [split]; simp, ?_, ended⟩
    rw [List.getLast?_append]
    exact isText.mayPrecede started.of_or
  · exact isText.standsIn started.of_or (List.cons_ne_nil c back) split ended
      (isTaken ▸ leads nothing)

end Reader

end Lineage.Java
