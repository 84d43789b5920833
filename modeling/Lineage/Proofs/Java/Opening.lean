import Lineage.Java.Body
import Lineage.Proofs.Text.Blank
import Lineage.Proofs.Text.Reader

/-! Where the body of a type opens: at the first brace behind an announcement of the type. -/

namespace Lineage.Java

open Lineage.Text

/-- The word that announces a kind of type. -/
def keywordOf : Kind → List Char
  | .interface => "interface".toList
  | .plainClass | .abstractClass => "class".toList

/-- The words that may precede the announcement of a kind of type. -/
def modifiersOf : Kind → List (List Char)
  | .interface => interfaceModifiers
  | .plainClass | .abstractClass => classModifiers

/-- Modifiers in a row, each with blanks behind it. -/
inductive ModifierText (words : List (List Char)) : List (List Char) → List Char → Prop where
  | none : ModifierText words [] []
  | more {word blanks rest : List Char} {values : List (List Char)} : word ∈ words → blanks ≠ [] →
    (∀ c ∈ blanks, isBlank c = true) → ModifierText words values rest →
    ModifierText words (word :: values) (word ++ blanks ++ rest)

/-- What announces a type: modifiers, the word for its kind, blanks and its name. -/
def Announcement (kind : Kind) (values : List (List Char)) (name text : List Char) : Prop :=
  ∃ modifiers blanks, text = modifiers ++ (keywordOf kind ++ (blanks ++ name)) ∧
    ModifierText (modifiersOf kind) values modifiers ∧ blanks ≠ [] ∧ ∀ c ∈ blanks, isBlank c = true

/-- A header may follow a character that could not belong to its first word. -/
def MayPrecede (before : Option Char) : Prop :=
  before.any (fun c => isNameChar c || c == '.' || c == '@') = false

/-- A text announces a type between what comes before it and what follows when neither continues its
words. -/
structure Announced (kind : Kind) (name : List Char) (before : Option Char)
    (text rest : List Char) : Prop where
  started : MayPrecede before
  spelled : ∃ values, Announcement kind values name text
  ended : rest.head?.any isNameChar = false

/-- The characters of names, blanks and the hyphen. -/
def isWordy (c : Char) : Bool :=
  isNameChar c || isBlank c || c == '-'

variable {c : Char} {kind : Kind} {values : List (List Char)} {text name : List Char}

/-- No blank belongs to a name. -/
theorem isNameChar_of_isBlank (blank : isBlank c = true) : isNameChar c = false := by
  have different : c ≠ '$' := ne_of_class blank (by decide)
  simp [isNameChar, isWord_of_isBlank blank, different]

/-- No character of a name is a blank. -/
theorem isBlank_of_isNameChar (fits : isNameChar c = true) : isBlank c = false := by
  by_contra blank
  rw [isNameChar_of_isBlank (by simpa using blank)] at fits
  cases fits

theorem isWordy_of_isNameChar (fits : isNameChar c = true) : isWordy c = true := by
  simp [isWordy, fits]

theorem isWordy_of_isBlank (fits : isBlank c = true) : isWordy c = true := by
  simp [isWordy, fits]

/-- Modifiers are made of words and blanks. -/
theorem ModifierText.isWordy (isText : ModifierText (modifiersOf kind) values text) :
    ∀ c ∈ text, isWordy c = true := by
  have words : ∀ word ∈ modifiersOf kind, ∀ c ∈ word, Java.isWordy c = true := by
    cases kind <;> decide
  -- Along the row of modifiers: each is a word of the list with blanks behind it.
  induction isText with
  | none => simp
  | more listed _ all _ ih =>
    simp only [List.mem_append]
    rintro c ((inWord | inBlanks) | inRest)
    · exact words _ listed c inWord
    · exact isWordy_of_isBlank (all c inBlanks)
    · exact ih c inRest

/-- An announcement is made of words and blanks. -/
theorem Announcement.isWordy (announcement : Announcement kind values name text)
    (named : ∀ c ∈ name, isNameChar c = true) : ∀ c ∈ text, isWordy c = true := by
  obtain ⟨modifiers, blanks, rfl, isText, _, all⟩ := announcement
  have keyword : ∀ c ∈ keywordOf kind, Java.isWordy c = true := by
    cases kind <;> decide
  simp only [List.mem_append]
  rintro c (inModifiers | inKeyword | inBlanks | inName)
  · exact isText.isWordy c inModifiers
  · exact keyword c inKeyword
  · exact isWordy_of_isBlank (all c inBlanks)
  · exact isWordy_of_isNameChar (named c inName)

/-- An announcement begins with a letter. -/
theorem Announcement.head (announcement : Announcement kind values name text) :
    text.head?.any isNameChar = true := by
  obtain ⟨modifiers, blanks, rfl, isText, _, _⟩ := announcement
  -- It begins with its first modifier, or without any with the word for the kind.
  cases isText with
  | none => cases kind <;> rfl
  | @more word _ _ _ listed _ _ _ =>
    have letters : ∀ word ∈ modifiersOf kind, word ≠ [] ∧ word.head?.any isNameChar = true := by
      cases kind <;> decide
    obtain ⟨nonempty, letter⟩ := letters word listed
    obtain ⟨c, more, rfl⟩ := List.exists_cons_of_ne_nil nonempty
    exact letter

namespace Reader

open Lineage.Text.Reader

/-- One modifier with the blanks behind it. -/
def modifier (words : List (List Char)) : Text.Reader (List Char) := do
  let word ← wordOf words
  blanks1
  return word

variable {offset : Nat} {before : Option Char}

/-- A modifier is one of the words and at least one blank. -/
theorem mem_modifier {words : List (List Char)} {result : List Char × Cursor} :
    result ∈ modifier words ⟨offset, before, text⟩ ↔
      ∃ word ∈ words, ∃ blanks rest, text = word ++ blanks ++ rest ∧ blanks ≠ [] ∧
        (∀ c ∈ blanks, isBlank c = true) ∧ result =
          (word, .beyond offset before (word ++ blanks) rest) := by
  -- The word first, and then the blanks, in both directions.
  simp only [modifier, mem_bind, mem_pure, mem_wordOf]
  constructor
  · rintro ⟨_, _, ⟨word, listed, rest, rfl, same⟩, _, after, read, rfl⟩
    cases same
    obtain ⟨blanks, rest, rfl, nonempty, all, same⟩ := mem_run1.mp read
    cases same
    refine ⟨_, listed, blanks, rest, by simp, nonempty, all, ?_⟩
    rw [← Cursor.beyond_append]
  · rintro ⟨word, listed, blanks, rest, rfl, nonempty, all, rfl⟩
    refine ⟨word, _, ⟨word, listed, blanks ++ rest, by simp, rfl⟩, (), _,
      mem_run1.mpr ⟨blanks, rest, rfl, nonempty, all, rfl⟩, ?_⟩
    rw [← Cursor.beyond_append]

/-- Modifiers are read where they stand in a row, any number of them. -/
theorem mem_modifiers {words : List (List Char)} {last : Cursor} :
    (values, last) ∈ modifiers words ⟨offset, before, text⟩ ↔
      ∃ taken rest, text = taken ++ rest ∧ ModifierText words values taken ∧
        last = .beyond offset before taken rest := by
  constructor
  · -- The values tell how many modifiers were read.
    intro read
    induction values generalizing offset before text with
    | nil =>
      rcases mem_many.mp read with ⟨_, _, _, _, _, _, impossible⟩ | ⟨_, rfl⟩
      · cases impossible
      · exact ⟨[], text, rfl, .none, rfl⟩
    | cons value values ih =>
      rcases mem_many.mp read with ⟨_, _, _, readOne, _, readMore, same⟩ | ⟨impossible, _⟩
      · cases same
        obtain ⟨word, listed, blanks, rest, rfl, nonempty, all, same⟩ := mem_modifier.mp readOne
        cases same
        obtain ⟨taken, rest, rfl, isText, rfl⟩ := ih readMore
        exact ⟨_ ++ blanks ++ taken, rest, by simp, .more listed nonempty all isText,
          Cursor.beyond_append offset before (_ ++ blanks) taken rest⟩
      · cases impossible
  · -- The row of modifiers tells how many rounds there are, and each of them reads something.
    rintro ⟨taken, rest, rfl, isText, rfl⟩
    induction isText generalizing offset before with
    | none => exact mem_many.mpr (Or.inr ⟨rfl, rfl⟩)
    | @more word blanks taken values listed nonempty all _ ih =>
      refine mem_many.mpr (Or.inl ⟨word, .beyond offset before (word ++ blanks) (taken ++ rest),
        values, mem_modifier.mpr ⟨word, listed, blanks, taken ++ rest, by simp, nonempty, all, rfl⟩,
        ?_, ?_, rfl⟩)
      · have := List.length_pos_iff.mpr nonempty
        simp only [Cursor.rest_beyond, List.length_append]
        omega
      · have more := @ih (offset + (word ++ blanks).length) ((word ++ blanks).getLast?.or before)
        rw [Cursor.beyond_append] at more
        exact more

/-- Words that may stand before a declaration or a method. None begins with another, so blanks tell
them apart. -/
structure AreModifiers (words : List (List Char)) : Prop where
  solid : ∀ word ∈ words, ∀ c ∈ word, isBlank c = false
  begun : ∀ word ∈ words, word.head?.any isNameChar = true
  apart : ∀ word ∈ words, ∀ other ∈ words, other <+: word → other = word

/-- The modifiers of types are words of which none begins another. -/
theorem areModifiers_modifiersOf (kind : Kind) : AreModifiers (modifiersOf kind) where
  solid := by cases kind <;> decide
  begun := by cases kind <;> decide
  apart := by cases kind <;> decide

/-- What can be a name in a header. -/
def IsName (name : List Char) : Prop :=
  name ≠ [] ∧ ∀ c ∈ name, isNameChar c = true

/-- Characters that are neither an opening brace nor a semicolon. -/
def InHeader (c : Char) : Prop :=
  c ≠ '{' ∧ c ≠ ';'

theorem inHeader_of_isWordy (fits : isWordy c = true) : InHeader c :=
  ⟨ne_of_class fits (by decide), ne_of_class fits (by decide)⟩

theorem inHeader_of_isNameChar (fits : isNameChar c = true) : InHeader c :=
  inHeader_of_isWordy (isWordy_of_isNameChar fits)

/-- Characters that are neither a brace nor a semicolon. -/
def Unbroken (c : Char) : Prop :=
  c ∉ ['{', '}', ';']

instance decidableUnbroken (c : Char) : Decidable (Unbroken c) :=
  inferInstanceAs (Decidable (c ∉ _))

theorem Unbroken.inHeader (unbroken : Unbroken c) : InHeader c := by
  simp only [Unbroken, List.mem_cons, not_or] at unbroken
  exact ⟨unbroken.1, unbroken.2.2.1⟩

theorem unbroken_of_class {p : Char → Bool} (fits : p c = true)
    (outside : ∀ d ∈ ['{', '}', ';'], p d = false) : Unbroken c :=
  fun isSign => ne_of_class fits (outside c isSign) rfl

theorem unbroken_of_isNameChar (fits : isNameChar c = true) : Unbroken c :=
  unbroken_of_class fits (by decide)

theorem unbroken_of_isBlank (fits : isBlank c = true) : Unbroken c :=
  unbroken_of_class fits (by decide)

/-- A sign that is neither a brace nor a semicolon. -/
theorem unbroken_of_beq {sign : Char} (plain : Unbroken sign) (fits : (c == sign) = true) :
    Unbroken c := by
  rwa [beq_iff_eq.mp fits]

/-- What closes angle brackets lies behind neither a brace nor a semicolon. -/
theorem closeAngles?_takes {depth : Nat} {after : Cursor}
    (closed : closeAngles? depth offset text = some after) :
    ∃ taken rest, text = taken ++ rest ∧
      (∀ c ∈ taken, Unbroken c) ∧ after = .beyond offset before taken rest := by
  induction text generalizing depth offset before with
  | nil => cases closed
  | cons c text ih =>
    -- In each case the character is taken, and the search goes on or ends behind it.
    have step : ∀ {deeper}, Unbroken c → closeAngles? deeper (offset + 1) text = some after →
        ∃ taken rest, c :: text = taken ++ rest ∧ (∀ c ∈ taken, Unbroken c) ∧
          after = .beyond offset before taken rest := by
      intro deeper fits further
      obtain ⟨taken, rest, rfl, all, rfl⟩ := @ih (offset + 1) (some c) deeper further
      exact ⟨c :: taken, rest, rfl, by simpa [fits] using all,
        Cursor.beyond_cons offset before c taken rest⟩
    unfold closeAngles? at closed
    split at closed
    · -- A bracket opens, as long as brackets may lie deeper.
      rename_i opens
      split at closed
      · exact step (unbroken_of_beq (by decide) opens) closed
      · cases closed
    · split at closed
      · -- A bracket closes, and the outermost one ends the search.
        rename_i closes
        have fits : Unbroken c := unbroken_of_beq (by decide) closes
        split at closed
        · cases closed
          exact ⟨[c], text, rfl, by simpa using fits, rfl⟩
        · exact step fits closed
      · split at closed
        · cases closed
        · -- A brace or a semicolon would have stopped the search.
          rename_i plain
          refine step (fun isSign => plain ?_) closed
          simpa [or_assoc] using isSign

/-- Type arguments are unbroken. -/
theorem arguments_takes : Takes arguments Unbroken := by
  refine .bind (.char fun _ => unbroken_of_beq (by decide)) fun _ => ?_
  -- Behind the first bracket the arguments end where the brackets close.
  intro offset before text value after read
  simp only [List.mem_map, Option.mem_toList] at read
  obtain ⟨stop, closed, same⟩ := read
  cases same
  exact closeAngles?_takes closed

theorem blanks_takes : Takes blanks Unbroken :=
  .run fun _ => unbroken_of_isBlank

theorem blanks1_takes : Takes blanks1 Unbroken :=
  .run1 fun _ => unbroken_of_isBlank

theorem someArguments_takes : Takes someArguments Unbroken :=
  .bind (.optional (.bind blanks_takes fun _ => arguments_takes)) fun _ => .pure ()

theorem path_takes : Takes path Unbroken :=
  .bind (.run1 fun _ => unbroken_of_isNameChar) fun _ => .bind (.many (.bind
    (.char fun _ => unbroken_of_beq (by decide)) fun _ => .run1 fun _ => unbroken_of_isNameChar))
      fun _ => .pure ()

theorem reference_takes : Takes reference Unbroken :=
  .bind path_takes fun _ => someArguments_takes

theorem references_takes : Takes references Unbroken :=
  .bind reference_takes fun _ => .bind (.many (.bind blanks_takes fun _ => .bind
    (.char fun _ => unbroken_of_beq (by decide)) fun _ => .bind blanks_takes fun _ =>
      reference_takes)) fun _ => .pure ()

/-- A clause is unbroken if what it holds is. -/
theorem clause_takes {word : List Char} {content : Text.Reader Unit}
    (plain : ∀ c ∈ word, Unbroken c) (takes : Takes content Unbroken) :
    Takes (clause word content) Unbroken :=
  .optional (.bind blanks1_takes fun _ => .bind (.literal plain) fun _ =>
    .bind blanks1_takes fun _ =>
    .stretch takes)

/-- A reader spells the texts of a language when it reads each of them where it stands, and nothing
else. -/
def Spells (reader : Text.Reader Unit) (language : List Char → Prop) : Prop :=
  ∀ offset before text result, result ∈ reader ⟨offset, before, text⟩ ↔
    ∃ taken rest, text = taken ++ rest ∧ language taken ∧
      result = ((), .beyond offset before taken rest)

/-- A word is read where it is spelled. -/
theorem spells_literal (word : List Char) : Spells (literal word) (· = word) := by
  intro offset before text result
  rw [mem_literal]
  constructor
  · rintro ⟨rest, rfl, rfl⟩
    exact ⟨word, rest, rfl, rfl, rfl⟩
  · rintro ⟨_, rest, rfl, rfl, rfl⟩
    exact ⟨rest, rfl, rfl⟩

/-- A name is read where characters of names are spelled. -/
theorem spells_anyName :
    Spells anyName fun name => name ≠ [] ∧ ∀ c ∈ name, isNameChar c = true := by
  intro offset before text result
  rw [anyName, mem_run1]
  constructor
  · rintro ⟨taken, rest, rfl, nonempty, all, rfl⟩
    exact ⟨taken, rest, rfl, ⟨nonempty, all⟩, rfl⟩
  · rintro ⟨taken, rest, rfl, ⟨nonempty, all⟩, rfl⟩
    exact ⟨taken, rest, rfl, nonempty, all, rfl⟩

/-- The part of a header from its modifiers to the name. -/
def announcement (kind : Kind) (name : Text.Reader Unit) :
    Text.Reader (List (List Char) × Excerpt) := do
  headerStart
  let modifiers ← modifiers (modifiersOf kind)
  literal (keywordOf kind)
  blanks1
  let name ← stretch name
  notBefore isNameChar
  return (modifiers, name)

/-- A class header is an announcement, type arguments and two clauses. -/
theorem classHeader_eq (name : Text.Reader Unit) : classHeader name = (do
    let announced ← announcement .plainClass name
    someArguments
    let superclass ← clause "extends".toList reference
    let interfaces ← clause "implements".toList references
    return ⟨announced.1, announced.2, superclass, interfaces⟩) := by
  simp only [classHeader, announcement, bind_assoc, pure_bind]
  rfl

/-- An interface header is an announcement, type arguments and a clause. -/
theorem interfaceHeader_eq (name : Text.Reader Unit) : interfaceHeader name = (do
    let announced ← announcement .interface name
    someArguments
    let interfaces ← clause "extends".toList references
    return ⟨announced.2, interfaces⟩) := by
  simp only [interfaceHeader, announcement, bind_assoc, pure_bind]
  rfl

/-- An announcement is read exactly where it stands and is not part of a longer word. -/
theorem mem_announcement {name : Text.Reader Unit} {language : List Char → Prop}
    (spells : Spells name language) {excerpt : Excerpt} {after : Cursor} :
    ((values, excerpt), after) ∈ announcement kind name ⟨offset, before, text⟩ ↔
      MayPrecede before ∧ ∃ spelled named rest, text = spelled ++ rest ∧
        Announcement kind values named spelled ∧
        language named ∧ rest.head?.any isNameChar = false ∧
          excerpt = ⟨named ++ rest, named.length⟩ ∧
        after = .beyond offset before spelled rest := by
  simp only [announcement, headerStart, notAfter, notBefore, mem_bind, mem_ensure, mem_pure,
    mem_stretch, Bool.not_eq_true']
  constructor
  · -- Each reader in turn tells what it took, and the parts make up the announcement.
    rintro ⟨_, _, ⟨started, same⟩, _, _, readModifiers, _, _, readKeyword, _, _, readBlanks, _, _,
      ⟨_, _, readName, sameName⟩, _, _, ⟨ended, sameEnd⟩, sameResult⟩
    cases same
    cases sameResult
    cases sameEnd
    cases sameName
    obtain ⟨modifiers, rest, rfl, isText, rfl⟩ := mem_modifiers.mp readModifiers
    obtain ⟨rest, rfl, same⟩ := mem_literal.mp readKeyword
    cases same
    obtain ⟨blanks, rest, rfl, nonempty, all, same⟩ := mem_run1.mp readBlanks
    cases same
    obtain ⟨named, rest, rfl, inLanguage, same⟩ := (spells _ _ _ _).mp readName
    cases same
    refine ⟨started, modifiers ++ (keywordOf kind ++ (blanks ++ named)), named, rest, by simp,
      ⟨modifiers, blanks, rfl, isText, nonempty, all⟩, inLanguage, ended, ?_, ?_⟩
    · simp [Cursor.beyond]
    · simp only [Cursor.beyond_append]
  · -- The parts of the announcement are what the readers ask for.
    rintro ⟨started, _, named, rest, rfl, ⟨modifiers, blanks, rfl, isText, nonempty, all⟩,
      inLanguage, ended, rfl, rfl⟩
    refine ⟨(), _, ⟨started, rfl⟩, values, _,
      mem_modifiers.mpr ⟨modifiers, _, List.append_assoc .., isText, rfl⟩, (), _,
      mem_literal.mpr ⟨_, List.append_assoc .., rfl⟩, (), _,
      mem_run1.mpr ⟨blanks, _, List.append_assoc .., nonempty, all, rfl⟩, _, _,
      ⟨(), _, (spells _ _ _ _).mpr ⟨named, rest, rfl, inLanguage, rfl⟩, rfl⟩, (), _, ⟨ended, rfl⟩,
        ?_⟩
    refine Prod.ext ?_ ?_
    · simp [Cursor.beyond]
    · simp only [Cursor.beyond_append]

/-- The part of a header behind the name. -/
def restOfHeader : Kind → Text.Reader Unit
  | .interface => do
    someArguments
    let _ ← clause "extends".toList references
  | .plainClass | .abstractClass => do
    someArguments
    let _ ← clause "extends".toList reference
    let _ ← clause "implements".toList references

/-- An opening is an announcement, the rest of the header, what is skipped and the brace. -/
theorem opening_eq (kind : Kind) (name : List Char) : opening kind name = (do
    let _ ← announcement kind (literal name)
    restOfHeader kind
    run fun c => !(c == '{' || c == ';')
    char (· == '{')) := by
  cases kind with
  | interface => simp only [opening, interfaceHeader_eq, restOfHeader, bind_assoc, pure_bind]
  | plainClass => simp only [opening, classHeader_eq, restOfHeader, bind_assoc, pure_bind]
  | abstractClass =>
    -- Abstract classes are announced as other classes are.
    simp only [opening, classHeader_eq, restOfHeader, bind_assoc, pure_bind]
    rfl

/-- The rest of a header is made of what can stand in headers. -/
theorem restOfHeader_takes (kind : Kind) : Takes (restOfHeader kind) InHeader := by
  have plainExtends : ∀ c ∈ "extends".toList, Unbroken c := by decide
  have plainImplements : ∀ c ∈ "implements".toList, Unbroken c := by decide
  refine Takes.mono ?_ fun _ => Unbroken.inHeader
  cases kind with
  | interface =>
    exact .bind someArguments_takes fun _ =>
      .bind (clause_takes plainExtends references_takes) fun _ => .pure ()
  | plainClass | abstractClass =>
    exact .bind someArguments_takes fun _ =>
      .bind (clause_takes plainExtends reference_takes) fun _ =>
      .bind (clause_takes plainImplements references_takes) fun _ => .pure ()

/-- Nothing needs to stand behind the name. -/
theorem mem_restOfHeader_nothing (kind : Kind) (place : Cursor) :
    ((), place) ∈ restOfHeader kind place := by
  have arguments : ((), place) ∈ someArguments place :=
    mem_bind.mpr ⟨none, place, mem_optional.mpr (Or.inr rfl), mem_pure.mpr rfl⟩
  have clauses : ∀ word content, (none, place) ∈ clause word content place :=
    fun _ _ => mem_optional.mpr (Or.inr rfl)
  cases kind with
  | interface =>
    exact mem_bind.mpr ⟨(), place, arguments,
      mem_bind.mpr ⟨none, place, clauses _ _, mem_pure.mpr rfl⟩⟩
  | plainClass | abstractClass =>
    exact mem_bind.mpr ⟨(), place, arguments, mem_bind.mpr ⟨none, place, clauses _ _,
      mem_bind.mpr ⟨none, place, clauses _ _, mem_pure.mpr rfl⟩⟩⟩

/-- A body opens behind an announcement at the first brace, unless a semicolon comes before. -/
theorem mem_opening {result : Unit × Cursor} :
    result ∈ opening kind name ⟨offset, before, text⟩ ↔
      ∃ spelled gap rest, text = spelled ++ (gap ++ '{' :: rest) ∧
        Announced kind name before spelled (gap ++ '{' :: rest) ∧ (∀ c ∈ gap, InHeader c) ∧
        result = ((), .beyond offset before (spelled ++ (gap ++ ['{'])) rest) := by
  rw [opening_eq]
  simp only [mem_bind]
  constructor
  · -- Whatever the clauses of the header took, they and the gap behind them hold no brace and no
    -- semicolon.
    rintro ⟨⟨values, excerpt⟩, _, readName, _, _, readRest, _, _, readGap, readBrace⟩
    obtain ⟨started, spelled, _, rest, rfl, announced, rfl, ended, _, rfl⟩ :=
      (mem_announcement (spells_literal _)).mp readName
    obtain ⟨clauses, rest, rfl, allClauses, rfl⟩ := restOfHeader_takes kind _ _ _ _ _ readRest
    obtain ⟨gap, rest, rfl, allGap, same⟩ := mem_run.mp readGap
    cases same
    obtain ⟨brace, rest, rfl, isBrace, rfl⟩ := mem_char.mp readBrace
    rw [beq_iff_eq] at isBrace
    subst isBrace
    refine ⟨spelled, clauses ++ gap, rest, by simp,
      ⟨started, ⟨values, announced⟩, by simpa using ended⟩, ?_, ?_⟩
    · intro c inside
      rcases List.mem_append.mp inside with inClauses | inGap
      · exact allClauses c inClauses
      · simpa [InHeader] using allGap c inGap
    · simp only [Cursor.beyond_append, List.append_assoc]
  · -- No clause needs to be read: the gap may be all that stands before the brace.
    rintro ⟨spelled, gap, rest, rfl, ⟨started, ⟨values, announced⟩, ended⟩, all, rfl⟩
    refine ⟨(values, ⟨name ++ (gap ++ '{' :: rest), name.length⟩), _,
      (mem_announcement (spells_literal name)).mpr
        ⟨started, spelled, name, _, rfl, announced, rfl, ended, rfl, rfl⟩,
      (), _, mem_restOfHeader_nothing kind _, (), _,
      mem_run.mpr ⟨gap, '{' :: rest, rfl, fun c inside => by simpa [InHeader] using all c inside,
        rfl⟩,
      mem_char.mpr ⟨'{', rest, rfl, rfl, ?_⟩⟩
    simp only [Cursor.beyond_append]

end Reader

end Lineage.Java
