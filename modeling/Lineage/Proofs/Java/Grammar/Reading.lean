import Lineage.Proofs.Java.Grammar
import Lineage.Proofs.Text.Preferred

/-! Headers that the language allows are read to their end, and they declare what they say. -/

namespace Lineage.Java

open Lineage.Text

/-- A word begins with no blank. -/
theorem Word.notBlank (word : Word) (rest : List Char) :
    (word.text ++ rest).head?.any isBlank = false := by
  obtain ⟨c, tail, isText⟩ := List.exists_cons_of_ne_nil word.isName.1
  rw [isText]
  exact isBlank_of_isNameChar (word.isName.2 c (by simp [isText]))

/-- A blank belongs to no path. -/
theorem Spacing.head (space : Spacing) (rest : List Char) :
    (space.text ++ rest).head?.any isPathChar = false := by
  obtain ⟨c, tail, isText⟩ := List.exists_cons_of_ne_nil space.nonempty
  have blank := space.blank c (by simp [isText])
  rw [isText]
  by_contra inPath
  have notBlank : isBlank c = false := isBlank_of_isPathChar (by simpa using inPath)
  rw [blank] at notBlank
  cases notBlank

/-- Behind a path blanks may stand, or what ends the path itself. -/
theorem Blanks.head (space : Blanks) {rest : List Char}
    (ended : rest.head?.any isPathChar = false) :
    (space.text ++ rest).head?.any isPathChar = false := by
  by_cases empty : space.text = []
  · rwa [empty]
  · exact Spacing.head ⟨space, empty⟩ rest

/-- What ends a path ends a name. -/
theorem isNameChar_of_isPathChar {first : Option Char} (ended : first.any isPathChar = false) :
    first.any isNameChar = false := by
  cases first with
  | none => rfl
  | some c =>
    rw [Option.any_some, isPathChar, Bool.or_eq_false_iff] at ended
    exact ended.1

namespace Reader

open Lineage.Text.Reader

/-- A sign does not come next, however many blanks are skipped. -/
def NotNext (sign : Char) (rest : List Char) : Prop :=
  ∀ taken more, (∀ c ∈ taken, isBlank c = true) → rest = taken ++ more → more.head? ≠ some sign

/-- A sign is not next if it does not stand behind the blanks. -/
theorem notNext_of_trimStart {sign : Char} {rest : List Char} (notBlank : isBlank sign = false)
    (absent : (trimStart rest).head? ≠ some sign) : NotNext sign rest := by
  rintro taken more allBlank rfl isSign
  -- The sign would be the first character behind the blanks.
  have first : more.head?.any isBlank = false := by rw [isSign]; exact notBlank
  rw [trimStart_append allBlank first] at absent
  exact absent isSign

/-- Blanks and a sign are not read where the sign does not come next. -/
theorem blanks_char_eq_nil {α : Type} {sign : Char} {next : Unit → Text.Reader α} {rest : List Char}
    (notNext : NotNext sign rest) {offset : Nat} {before : Option Char} :
    (blanks >>= fun _ => char (· == sign) >>= next) ⟨offset, before, rest⟩ = [] := by
  -- Whichever blanks are read, the sign does not stand behind them.
  refine List.eq_nil_iff_forall_not_mem.mpr fun result read => ?_
  obtain ⟨_, _, readBlanks, readNext⟩ := mem_bind.mp read
  obtain ⟨taken, more, rfl, allBlank, same⟩ := mem_run.mp readBlanks
  cases same
  obtain ⟨_, _, readSign, _⟩ := mem_bind.mp readNext
  obtain ⟨c, more, rfl, isSign, _⟩ := mem_char.mp readSign
  exact notNext taken (c :: more) allBlank rfl (by rw [beq_iff_eq.mp isSign]; rfl)

end Reader

/-- A reference ends where no character of a path and no type arguments follow. -/
structure EndsReference (rest : List Char) : Prop where
  path : rest.head?.any isPathChar = false
  arguments : Reader.NotNext '<' rest

/-- What ends a header ends a reference. -/
theorem EndsHeader.endsReference {rest : List Char} (ends : EndsHeader rest) :
    EndsReference rest := by
  refine ⟨ends.name, Reader.notNext_of_trimStart (by decide) fun isSign => ends.sign ?_⟩
  rw [isSign]
  exact List.mem_cons_self

/-- No comma follows a header. -/
theorem EndsHeader.noComma {rest : List Char} (ends : EndsHeader rest) :
    Reader.NotNext ',' rest := by
  refine Reader.notNext_of_trimStart (by decide) fun isSign => ends.sign ?_
  rw [isSign]
  exact List.mem_cons_of_mem _ List.mem_cons_self

/-- A sign does not come next where another one does. -/
theorem notNext_sign (space : Blanks) {c sign : Char} (notBlank : isBlank c = false)
    (signNotBlank : isBlank sign = false) (different : c ≠ sign) (rest : List Char) :
    Reader.NotNext sign (space.text ++ c :: rest) := by
  refine Reader.notNext_of_trimStart signNotBlank ?_
  rw [trimStart_append_cons space.blank notBlank]
  simpa using different

/-- Behind blanks, a sign that is no opening bracket ends a reference. -/
theorem endsReference_sign (space : Blanks) {c : Char} (notBlank : isBlank c = false)
    (notPath : isPathChar c = false) (notOpen : c ≠ '<') (rest : List Char) :
    EndsReference (space.text ++ c :: rest) :=
  ⟨space.head notPath, notNext_sign space notBlank (by decide) notOpen rest⟩

/-- Texts that begin with different characters differ. -/
theorem append_ne_append {one other : List Char} (nonempty : one ≠ []) (otherNonempty : other ≠ [])
    (different : one.head? ≠ other.head?) (rest more : List Char) :
    one ++ rest ≠ other ++ more := by
  obtain ⟨c, one, rfl⟩ := List.exists_cons_of_ne_nil nonempty
  obtain ⟨d, other, rfl⟩ := List.exists_cons_of_ne_nil otherNonempty
  intro same
  exact different (congrArg some (List.cons.inj same).1)

/-- A word that introduces references begins with a letter. -/
theorem head_linkWord {word : List Char} (listed : word ∈ linkWords) (more : List Char) :
    (word ++ more).head?.any isNameChar = true := by
  have letters : ∀ word ∈ linkWords, word ≠ [] ∧ word.head?.any isNameChar = true := by decide
  obtain ⟨nonempty, letter⟩ := letters word listed
  obtain ⟨c, word, rfl⟩ := List.exists_cons_of_ne_nil nonempty
  exact letter

/-- The word of a clause begins with no blank. -/
theorem notBlank_linkWord {word : List Char} (listed : word ∈ linkWords) (more : List Char) :
    (word ++ more).head?.any isBlank = false := by
  have letter := head_linkWord listed more
  cases isFirst : (word ++ more).head? with
  | none => rfl
  | some c =>
    rw [isFirst] at letter
    exact isBlank_of_isNameChar letter

/-- A clause as it is written, behind the blanks before it. -/
theorem trimStart_link {α : Type} {word : List Char} (listed : word ∈ linkWords)
    (write : α → List Char) (given : Clause α) (rest : List Char) :
    trimStart (linkText word write (some given) ++ rest) =
      word ++ (given.behind.text ++ write given.content ++ rest) := by
  rw [linkText, Option.elim_some, List.append_assoc, List.append_assoc,
    trimStart_append given.before.blank (notBlank_linkWord listed _)]

/-- A reference ends where a clause follows, or else what ends a reference. -/
theorem endsReference_link {α : Type} {word : List Char} (listed : word ∈ linkWords)
    (write : α → List Char) (clause : Option (Clause α)) {rest : List Char}
    (ends : EndsReference rest) :
    EndsReference (linkText word write clause ++ rest) := by
  cases clause with
  | none => exact ends
  | some given =>
    constructor
    · rw [linkText, Option.elim_some, List.append_assoc]
      exact given.before.head _
    · -- Behind the blanks comes the word, which begins with a letter.
      apply Reader.notNext_of_trimStart (by decide)
      rw [trimStart_link listed]
      intro isOpen
      have letter := head_linkWord listed (given.behind.text ++ write given.content ++ rest)
      rw [isOpen] at letter
      exact absurd letter (by decide)

/-- No clause comes next that the word introduces. -/
def NoLink (word rest : List Char) : Prop :=
  ∀ more, trimStart rest = word ++ more → more.head?.any isBlank = false

/-- Where a clause of another word may stand, that word or what follows it comes first. -/
theorem noLink_link {α : Type} {word other : List Char} (listed : word ∈ linkWords)
    (otherListed : other ∈ linkWords) (different : word ≠ other) (write : α → List Char)
    (clause : Option (Clause α)) {rest : List Char} (absent : NoLink word rest) :
    NoLink word (linkText other write clause ++ rest) := by
  cases clause with
  | none => exact absent
  | some given =>
    have heads : ∀ word ∈ linkWords, ∀ other ∈ linkWords, word ≠ other →
        other ≠ [] ∧ word ≠ [] ∧ other.head? ≠ word.head? := by decide
    obtain ⟨otherNonempty, nonempty, apart⟩ := heads word listed other otherListed different
    intro more isLink
    rw [trimStart_link otherListed] at isLink
    exact absurd isLink (append_ne_append otherNonempty nonempty apart _ _)

namespace Reader

open Lineage.Text.Reader

section Reading

variable {offset : Nat} {before : Option Char} {rest : List Char}

/-- Brackets inside brackets are passed over, as long as there is room for them. -/
theorem closeAngles?_append {depth deep : Nat} {inner bare : List Char}
    (angled : Angled deep inner bare) (room : depth + deep ≤ 2)
    (unbroken : ∀ c ∈ inner, c ∉ ['{', '}', ';']) (offset : Nat) (rest : List Char) :
    closeAngles? depth offset (inner ++ rest) = closeAngles? depth
      (offset + inner.length) rest := by
  -- Along the text; what is in its brackets lies one level deeper.
  induction angled generalizing depth offset rest with
  | nil => rfl
  | @plain deep c text bare notOpen notClose _ ih =>
    have whole : ¬ (c == '{' || c == '}' || c == ';') = true := by
      simpa [and_assoc] using unbroken c List.mem_cons_self
    rw [List.cons_append, closeAngles?.eq_def]
    dsimp only
    rw [if_neg (by simpa using notOpen), if_neg (by simpa using notClose), if_neg whole,
      ih room fun d inside => unbroken d (List.mem_cons_of_mem c inside), List.length_cons,
        Nat.add_assoc,
      Nat.add_comm 1]
  | @nest deep inner lost text bare _ _ ihInner ih =>
    have unbrokenInner : ∀ c ∈ inner, c ∉ ['{', '}', ';'] :=
      fun c inside => unbroken c (by simp [inside])
    have unbrokenText : ∀ c ∈ text, c ∉ ['{', '}', ';'] :=
      fun c inside => unbroken c (by simp [inside])
    -- The bracket that closes leads back to the level of the text.
    have closes : ∀ offset, closeAngles? (depth + 1) offset ('>' :: (text ++ rest)) =
        closeAngles? depth (offset + 1) (text ++ rest) := fun offset => rfl
    have opens : closeAngles? depth offset ('<' :: (inner ++ '>' :: (text ++ rest))) =
        closeAngles? (depth + 1) (offset + 1) (inner ++ '>' :: (text ++ rest)) := by
      rw [closeAngles?.eq_def]
      dsimp only
      rw [if_pos (by decide), if_pos (by omega)]
    rw [List.cons_append, List.append_assoc, List.cons_append, opens,
      ihInner (by omega) unbrokenInner, closes, ih room unbrokenText, List.length_cons,
      List.length_append, List.length_cons]
    congr 1
    omega

/-- There is one way to read brackets, which is to the one that closes the first. -/
theorem arguments_append (angles : Angles) :
    arguments ⟨offset, before, angles.text ++ rest⟩ =
      [((), .beyond offset before angles.text rest)] := by
  obtain ⟨bare, angled⟩ := angles.nested
  have opened : char (· == '<') ⟨offset, before, angles.text ++ rest⟩ =
      [((), ⟨offset + 1, some '<', angles.inner ++ ['>'] ++ rest⟩)] := rfl
  -- The search for the end starts behind the first bracket and ends with the last one.
  refine (bind_eq_of_singleton opened _).trans ?_
  dsimp only
  rw [List.append_assoc, closeAngles?_append angled (by omega) angles.unbroken]
  simp [closeAngles?, Cursor.beyond, Angles.text, List.getLast?_cons, Nat.add_assoc, Nat.add_comm 1]

theorem prefers_arguments (angles : Angles) :
    Prefers arguments offset before angles.text rest () := by
  rw [Prefers, arguments_append]
  rfl

/-- Type arguments are read where they stand, and nothing where none come next. -/
theorem prefers_someArguments (arguments : Option (Blanks × Angles)) (absent : NotNext '<' rest) :
    Prefers someArguments offset before (argumentsText arguments) rest () := by
  cases arguments with
  | none => exact .map (.optional_none (blanks_char_eq_nil absent)) fun _ => ()
  | some given =>
    have readBlanks : Prefers blanks offset before given.1.text (given.2.text ++ rest) () :=
      .run given.1.blank (by rfl)
    exact (readBlanks.bind (prefers_arguments given.2)).optional_some.map fun _ => ()

/-- Type arguments that may be absent belong to no path. -/
theorem head_argumentsText (arguments : Option (Blanks × Angles))
    (ended : rest.head?.any isPathChar = false) :
    (argumentsText arguments ++ rest).head?.any isPathChar = false := by
  cases arguments with
  | none => exact ended
  | some given =>
    rw [argumentsText, Option.elim_some, List.append_assoc]
    exact given.1.head rfl

/-- Brackets are read where they stand, and nothing where a reference ends. -/
theorem prefers_brackets (brackets : Option Brackets) (ends : EndsReference rest) :
    Prefers someArguments offset before (bracketsText brackets) rest () :=
  prefers_someArguments _ ends.arguments

/-- Brackets that may be absent belong to no path. -/
theorem head_bracketsText (brackets : Option Brackets) (ended : rest.head?.any isPathChar = false) :
    (bracketsText brackets ++ rest).head?.any isPathChar = false :=
  head_argumentsText _ ended

/-- A word of a path ends at the next dot or where the path ends. -/
theorem head_dottedWords (words : List Word) (ended : rest.head?.any isPathChar = false) :
    (words.flatMap Word.dotted ++ rest).head?.any isNameChar = false := by
  cases words with
  | nil => exact isNameChar_of_isPathChar ended
  | cons other words => rfl

/-- Further words of a path are read as long as a dot comes next. -/
theorem prefers_dottedWords (words : List Word) (ended : rest.head?.any isPathChar = false) :
    Prefers (many do char (· == '.'); run1 isNameChar) offset before
      (words.flatMap Word.dotted) rest (words.map fun _ => ()) := by
  induction words generalizing offset before with
  | nil =>
    -- What follows does not begin with a dot.
    have noDot : rest.head?.any (· == '.') = false := by
      cases isFirst : rest.head? with
      | none => rfl
      | some c =>
        rw [isFirst, Option.any_some, isPathChar, Bool.or_eq_false_iff] at ended
        exact ended.2
    exact .many_none (((Begins.char fun _ same => same).bind _).eq_nil noDot)
  | cons word words ih =>
    have readWord : ∀ {offset before}, Prefers (run1 isNameChar) offset before word.text
        (words.flatMap Word.dotted ++ rest) () :=
          .run1 word.isName.1 word.isName.2 (head_dottedWords words ended)
    have readDot : Prefers (char (· == '.')) offset before ['.']
        (word.text ++ (words.flatMap Word.dotted ++ rest)) () := .char rfl
    exact .many_cons (List.cons_ne_nil _ _) (readDot.bind readWord) ih

/-- A qualified name is read as it is written. -/
theorem prefers_path (name : QualifiedName) (ended : rest.head?.any isPathChar = false) :
    Prefers path offset before name.text rest () := by
  have readFirst : Prefers (run1 isNameChar) offset before name.first.text
    (name.more.flatMap Word.dotted ++ rest) () :=
    .run1 name.first.isName.1 name.first.isName.2 (head_dottedWords name.more ended)
  exact readFirst.bind ((prefers_dottedWords name.more ended).map fun _ => ())

/-- A reference is read as it is written. -/
theorem prefers_reference (name : QualifiedName) (arguments : Option (Blanks × Angles))
    (ends : EndsReference rest) :
    Prefers reference offset before (name.text ++ argumentsText arguments) rest () :=
  .bind (prefers_path name (head_argumentsText arguments ends.path))
    (prefers_someArguments arguments ends.arguments)

theorem prefers_typeReference (reference : TypeReference) (ends : EndsReference rest) :
    Prefers Reader.reference offset before reference.text rest () :=
  prefers_reference reference.name _ ends

/-- A reference begins with its first name. -/
theorem head_typeReference (reference : TypeReference) (rest : List Char) :
    (reference.text ++ rest).head?.any isBlank = false := by
  rw [TypeReference.text, QualifiedName.text, List.append_assoc, List.append_assoc]
  exact reference.first.notBlank _

/-- A reference ends where further ones follow, or else what ends a reference. -/
theorem endsReference_further (more : List FurtherReference) (ends : EndsReference rest) :
    EndsReference (more.flatMap FurtherReference.text ++ rest) := by
  cases more with
  | nil => exact ends
  | cons further more =>
    rw [List.flatMap_cons, FurtherReference.text, List.append_assoc, List.append_assoc]
    exact endsReference_sign further.before (by decide) (by decide) (by decide) _

/-- A comma with blanks around it, and a reference. -/
theorem prefers_further (further : FurtherReference) (ends : EndsReference rest) :
    Prefers (do blanks; char (· == ','); blanks; reference) offset before further.text rest () := by
  have readBefore : Prefers blanks offset before further.before.text
      (',' :: (further.behind.text ++ further.reference.text) ++ rest) () :=
        .run further.before.blank (by rfl)
  have readComma : ∀ {offset before}, Prefers (char (· == ',')) offset before [',']
      (further.behind.text ++ further.reference.text ++ rest) () := .char rfl
  have readBehind : ∀ {offset before}, Prefers blanks offset before further.behind.text
      (further.reference.text ++ rest) () :=
        .run further.behind.blank (head_typeReference further.reference rest)
  exact readBefore.bind (readComma.bind
    (readBehind.bind (prefers_typeReference further.reference ends)))

/-- Further references are read as long as a comma comes next. -/
theorem prefers_manyFurther (more : List FurtherReference) (ends : EndsReference rest)
    (noComma : NotNext ',' rest) :
    Prefers (many do blanks; char (· == ','); blanks; reference) offset before
      (more.flatMap FurtherReference.text) rest (more.map fun _ => ()) := by
  induction more generalizing offset before with
  | nil => exact .many_none (blanks_char_eq_nil noComma)
  | cons further more ih =>
    have nonempty : further.text ≠ [] := by simp [FurtherReference.text]
    exact .many_cons nonempty (prefers_further further (endsReference_further more ends)) ih

/-- References in a row are read as they are written. -/
theorem prefers_referenceList (list : ReferenceList) (ends : EndsReference rest)
    (noComma : NotNext ',' rest) :
    Prefers references offset before list.text rest () :=
  .bind (prefers_typeReference list.first (endsReference_further list.more ends))
    ((prefers_manyFurther list.more ends noComma).map fun _ => ())

theorem head_referenceList (list : ReferenceList) (rest : List Char) :
    (list.text ++ rest).head?.any isBlank = false := by
  rw [ReferenceList.text, List.append_assoc]
  exact head_typeReference list.first _

/-- What a clause says, if it is there. -/
def linkExcerpt {α : Type} (write : α → List Char) (clause : Option (Clause α)) (rest : List Char) :
    Option Excerpt :=
  clause.map fun given => ⟨write given.content ++ rest, (write given.content).length⟩

/-- A clause is read where it stands, and nothing where its word does not come next. -/
theorem prefers_link {α : Type} {word : List Char} (listed : word ∈ linkWords)
    {write : α → List Char}
    (head : ∀ content rest, (write content ++ rest).head?.any isBlank = false)
    {content : Text.Reader Unit}
    (reads : ∀ given offset before, Prefers content offset before (write given) rest ())
    (absent : NoLink word rest) (clause : Option (Clause α)) :
    Prefers (Reader.clause word content) offset before (linkText word write clause) rest
      (linkExcerpt write clause rest) := by
  cases clause with
  | none =>
    refine .optional_none (List.eq_nil_iff_forall_not_mem.mpr fun result read => ?_)
    obtain ⟨_, _, readBlanks, readRest⟩ := mem_bind.mp read
    obtain ⟨taken, more, split, _, allBlank, same⟩ := mem_run1.mp readBlanks
    cases same
    obtain ⟨_, _, readWord, readBehind⟩ := mem_bind.mp readRest
    obtain ⟨later, rfl, same⟩ := mem_literal.mp readWord
    cases same
    -- The word would come next, with a blank behind it.
    obtain ⟨_, _, readBlanks, _⟩ := mem_bind.mp readBehind
    obtain ⟨behind, last, rfl, nonempty, behindBlank, _⟩ := mem_run1.mp readBlanks
    obtain ⟨c, behind, rfl⟩ := List.exists_cons_of_ne_nil nonempty
    have next : trimStart rest = word ++ (c :: behind ++ last) := by
      rw [split, trimStart_append allBlank (notBlank_linkWord listed _)]
    have noBlank : isBlank c = false := absent _ next
    rw [behindBlank c List.mem_cons_self] at noBlank
    cases noBlank
  | some given =>
    have readBefore : Prefers blanks1 offset before given.before.text
        (word ++ (given.behind.text ++ write given.content) ++ rest) () := by
      refine .run1 given.before.nonempty given.before.blank ?_
      rw [List.append_assoc]
      exact notBlank_linkWord listed _
    have readBehind : ∀ {offset before}, Prefers blanks1 offset before given.behind.text
        (write given.content ++ rest) () :=
      .run1 given.behind.nonempty given.behind.blank (head given.content rest)
    exact .optional_some (readBefore.bind
      (.bind (.literal _) (readBehind.bind (.stretch (reads _ _ _)))))

section Modifiers

variable {words : List (List Char)}

/-- A modifier with a blank behind it is read, whichever are tried before. -/
theorem AreModifiers.prefers_word (areModifiers : AreModifiers words) {word : List Char}
    (listed : word ∈ words) (space : Spacing) :
    Prefers (wordOf words) offset before word (space.text ++ rest) word := by
  obtain ⟨first, late, split, absent⟩ := List.eq_append_cons_of_mem listed
  obtain ⟨blank, blanks, isSpace⟩ := List.exists_cons_of_ne_nil space.nonempty
  rw [split]
  refine .wordOf fun other early more same => ?_
  have otherListed : other ∈ words := by
    rw [split]
    exact List.mem_append_left _ early
  rcases List.append_eq_append_iff.mp same with ⟨beyond, isOther, behind⟩ | ⟨inside, isWord, _⟩
  · -- The other one would go on with the blank.
    cases beyond with
    | nil =>
      rw [List.append_nil] at isOther
      exact absent (isOther ▸ early)
    | cons c beyond =>
      rw [isSpace, List.cons_append, List.cons_append] at behind
      obtain ⟨rfl, _⟩ := List.cons.inj behind
      have noBlank := areModifiers.solid other otherListed blank (by simp [isOther])
      rw [space.blank blank (by simp [isSpace])] at noBlank
      cases noBlank
  · have isSame := areModifiers.apart word listed other otherListed ⟨inside, isWord.symm⟩
    exact absent (isSame ▸ early)

/-- A modifier is read as it is written. -/
theorem AreModifiers.prefers_modifier (areModifiers : AreModifiers words) {word : List Char}
    (listed : word ∈ words) (space : Spacing) (notBlank : rest.head?.any isBlank = false) :
    Prefers (modifier words) offset before (word ++ space.text) rest word := by
  have readBlanks : ∀ {offset before}, Prefers blanks1 offset before space.text rest () :=
    .run1 space.nonempty space.blank notBlank
  exact .bind (areModifiers.prefers_word listed space) (readBlanks.map fun _ => word)

variable {ι : Type} {word : ι → List Char} {space : ι → Spacing}

/-- What follows a modifier begins with no blank. -/
theorem AreModifiers.notBlank_row (areModifiers : AreModifiers words) (listed : ∀ i, word i ∈ words)
    (row : List ι) (notBlank : rest.head?.any isBlank = false) :
    (row.flatMap (fun i => word i ++ (space i).text) ++ rest).head?.any isBlank = false := by
  cases row with
  | nil => exact notBlank
  | cons i row =>
    have begun := areModifiers.begun (word i) (listed i)
    rw [List.flatMap_cons]
    cases isWord : word i with
    | nil => simp [isWord] at begun
    | cons c tail => exact areModifiers.solid (word i) (listed i) c (by simp [isWord])

/-- Modifiers in a row are read up to where no further one can be read. -/
theorem AreModifiers.prefers_row (areModifiers : AreModifiers words) (listed : ∀ i, word i ∈ words)
    (row : List ι) (notBlank : rest.head?.any isBlank = false)
    (absent : ∀ {offset before}, modifier words ⟨offset, before, rest⟩ = []) :
    Prefers (Reader.modifiers words) offset before
      (row.flatMap fun i => word i ++ (space i).text) rest (row.map word) := by
  unfold Reader.modifiers
  induction row generalizing offset before with
  | nil => exact .many_none absent
  | cons i row ih =>
    have nonempty : word i ++ (space i).text ≠ [] := by simp [(space i).nonempty]
    refine .many_cons nonempty ?_ ih
    exact areModifiers.prefers_modifier (listed i) (space i)
      (areModifiers.notBlank_row listed row notBlank)

end Modifiers

/-- No modifier begins like the word for a kind. -/
theorem modifier_eq_nil (kind : Kind) :
    modifier (modifiersOf kind) ⟨offset, before, keywordOf kind ++ rest⟩ = [] := by
  -- Each modifier begins with another letter than the word.
  have different : ∀ word ∈ modifiersOf kind, word ≠ [] ∧ (keywordOf kind).head? ≠ word.head? := by
    cases kind <;> decide
  rw [List.eq_nil_iff_forall_not_mem]
  intro result read
  obtain ⟨word, listed, blanks, more, split, _⟩ := mem_modifier.mp read
  obtain ⟨nonempty, otherHead⟩ := different word listed
  rw [List.append_assoc] at split
  exact append_ne_append (keywordOf_ne_nil kind) nonempty otherHead _ _ split

/-- Modifiers are read up to the word for the kind. -/
theorem prefers_modifiers {kind : Kind} (modifiers : List (Modifier kind)) :
    Prefers (Reader.modifiers (modifiersOf kind)) offset before (modifiers.flatMap Modifier.text)
      (keywordOf kind ++ rest) (modifiers.map (·.word)) := by
  have notBlank : (keywordOf kind ++ rest).head?.any isBlank = false := by cases kind <;> rfl
  exact (areModifiers_modifiersOf kind).prefers_row (fun modifier => modifier.listed) modifiers
    notBlank (modifier_eq_nil kind)

/-- The part of a header that ends with the name is read as an announcement. -/
theorem prefers_introduction {kind : Kind} (introduced : Introduction kind)
    (started : MayPrecede before) (ended : rest.head?.any isNameChar = false) :
    Prefers (announcement kind anyName) offset before introduced.text rest
      (introduced.modifiers.map (·.word),
        ⟨introduced.name.text ++ rest, introduced.name.text.length⟩) := by
  have readStart : Prefers headerStart offset before [] (introduced.text ++ rest) () :=
    .ensure (by simpa [MayPrecede] using started)
  have readBlanks : ∀ {offset before}, Prefers blanks1 offset before introduced.space.text
      (introduced.name.text ++ rest) () :=
    .run1 introduced.space.nonempty introduced.space.blank (introduced.name.notBlank rest)
  have readName : ∀ {offset before}, Prefers anyName offset before introduced.name.text rest () :=
    .run1 introduced.name.nonempty introduced.name.named ended
  have readEnd : ∀ {offset before}, Prefers (notBefore isNameChar) offset before [] rest () :=
    .ensure (by simpa using ended)
  have readNamed : ∀ {values offset before}, Prefers (do
      let name ← stretch anyName
      notBefore isNameChar
      return (values, name) : Text.Reader (List (List Char) × Excerpt)) offset before
        (introduced.name.text ++ []) rest
        (values, ⟨introduced.name.text ++ rest, introduced.name.text.length⟩) :=
    readName.stretch.bind (readEnd.map fun _ => _)
  rw [List.append_nil] at readNamed
  -- The checks at both ends take nothing, and each part ends where the next one begins.
  refine readStart.bind (.bind ?_ (.bind (.literal _) (readBlanks.bind readNamed)))
  rw [List.append_assoc]
  exact prefers_modifiers introduced.modifiers

/-- The interfaces at the end of a header are read to its end. -/
theorem prefers_interfaces {word : List Char} (ends : EndsHeader rest) (listed : word ∈ linkWords)
    (interfaces : Option (Clause ReferenceList)) :
    Prefers (clause word references) offset before (linkText word ReferenceList.text interfaces)
      rest (linkExcerpt ReferenceList.text interfaces rest) :=
  prefers_link listed head_referenceList
    (fun list _ _ => prefers_referenceList list ends.endsReference ends.noComma)
    (ends.clause _ listed) interfaces

/-- What is read of the header of a class, with `rest` behind it. -/
def classHeaderOf (introduced : Introduction .plainClass)
    (superclass : Option (Clause TypeReference)) (interfaces : Option (Clause ReferenceList))
    (rest : List Char) : ClassHeader where
  modifiers := introduced.modifiers.map (·.word)
  name :=
    ⟨introduced.name.text ++ ((HeaderText.ofClass introduced superclass interfaces).tail ++ rest),
    introduced.name.text.length⟩
  superclass := linkExcerpt TypeReference.text superclass
    (linkText "implements".toList ReferenceList.text interfaces ++ rest)
  interfaces := linkExcerpt ReferenceList.text interfaces rest

/-- The header of a class is read to its end. -/
theorem prefers_classHeader (introduced : Introduction .plainClass)
    (superclass : Option (Clause TypeReference)) (interfaces : Option (Clause ReferenceList))
    (started : MayPrecede before) (ends : EndsHeader rest) :
    Prefers (classHeader anyName) offset before
      (HeaderText.ofClass introduced superclass interfaces).text rest
      (classHeaderOf introduced superclass interfaces rest) := by
  have extendsListed : "extends".toList ∈ linkWords := by decide
  have implementsListed : "implements".toList ∈ linkWords := by decide
  -- Each part ends where the next one begins, or where the header ends if there is none.
  have endsInterfaces := ends.endsReference
  have endsSuperclass :=
    endsReference_link implementsListed ReferenceList.text interfaces endsInterfaces
  have endsParameters :=
    endsReference_link extendsListed TypeReference.text superclass endsSuperclass
  have readSuperclass : ∀ {offset before}, Prefers (clause "extends".toList reference) offset before
      (linkText "extends".toList TypeReference.text superclass)
      (linkText "implements".toList ReferenceList.text interfaces ++ rest)
      (linkExcerpt TypeReference.text superclass
        (linkText "implements".toList ReferenceList.text interfaces ++ rest)) :=
    prefers_link extendsListed head_typeReference
      (fun reference _ _ => prefers_typeReference reference endsSuperclass)
      (noLink_link extendsListed implementsListed (by decide) _ _ (ends.clause _ extendsListed))
        superclass
  have readTail : ∀ {values name offset before}, Prefers (do
      someArguments
      let superclass ← clause "extends".toList reference
      let interfaces ← clause "implements".toList references
      return ClassHeader.mk values name superclass interfaces) offset before
        (HeaderText.ofClass introduced superclass interfaces).tail rest
        { classHeaderOf introduced superclass interfaces rest with modifiers := values, name } := by
    intro values name offset before
    refine .bind (prefers_brackets introduced.parameters ?_)
      (readSuperclass.bind ((prefers_interfaces ends implementsListed interfaces).map _))
    rw [List.append_assoc]
    exact endsParameters
  have nameEnds :
      ((HeaderText.ofClass introduced superclass interfaces).tail ++ rest).head?.any isPathChar =
        false := by
    rw [HeaderText.tail, List.append_assoc, List.append_assoc]
    exact head_bracketsText _ endsParameters.path
  rw [classHeader_eq]
  exact (prefers_introduction introduced started (isNameChar_of_isPathChar nameEnds)).bind readTail

/-- What is read of the header of an interface, with `rest` behind it. -/
def interfaceHeaderOf (introduced : Introduction .interface)
    (interfaces : Option (Clause ReferenceList)) (rest : List Char) : InterfaceHeader where
  name := ⟨introduced.name.text ++ ((HeaderText.ofInterface introduced interfaces).tail ++ rest),
    introduced.name.text.length⟩
  interfaces := linkExcerpt ReferenceList.text interfaces rest

/-- The header of an interface is read to its end. -/
theorem prefers_interfaceHeader (introduced : Introduction .interface)
    (interfaces : Option (Clause ReferenceList)) (started : MayPrecede before)
    (ends : EndsHeader rest) :
    Prefers (interfaceHeader anyName) offset before
      (HeaderText.ofInterface introduced interfaces).text rest
      (interfaceHeaderOf introduced interfaces rest) := by
  -- Part by part: the introduction, the type parameters and the clause.
  have extendsListed : "extends".toList ∈ linkWords := by decide
  have endsInterfaces := ends.endsReference
  have endsParameters :=
    endsReference_link extendsListed ReferenceList.text interfaces endsInterfaces
  have readTail : ∀ {name offset before}, Prefers (do
      someArguments
      let interfaces ← clause "extends".toList references
      return InterfaceHeader.mk name interfaces) offset before
        (HeaderText.ofInterface introduced interfaces).tail rest
        { interfaceHeaderOf introduced interfaces rest with name } :=
    .bind (prefers_brackets introduced.parameters endsParameters)
      ((prefers_interfaces ends extendsListed interfaces).map _)
  have nameEnds : ((HeaderText.ofInterface introduced interfaces).tail ++ rest).head?.any
      isPathChar = false := by
    rw [HeaderText.tail, List.append_assoc]
    exact head_bracketsText _ endsParameters.path
  rw [interfaceHeader_eq]
  exact (prefers_introduction introduced started (isNameChar_of_isPathChar nameEnds)).bind readTail

end Reading

end Reader

/-- The last name of a path is what stands behind its last dot. -/
theorem afterLastDot_name (reference : TypeReference) :
    afterLastDot reference.name.text = reference.simple.text := by
  have noDot : ∀ name : Name, '.' ∉ name.text := fun name => notMem_of_class name.named (by decide)
  obtain ⟨first, more, arguments⟩ := reference
  rcases List.eq_nil_or_concat more with rfl | ⟨names, last, rfl⟩
  · -- There is no dot at all.
    simp only [TypeReference.name, QualifiedName.text, TypeReference.simple, List.map_nil,
      List.flatMap_nil, List.append_nil, List.getLast_singleton]
    exact afterLastDot_of_noDot (noDot first)
  · have grouped : (TypeReference.mk first (names.concat last) arguments).name.text =
        (first.text ++ (names.map (·.toWord)).flatMap Word.dotted) ++ '.' :: last.text := by
      simp [TypeReference.name, QualifiedName.text, Word.dotted]
    have isLast : (TypeReference.mk first (names.concat last) arguments).simple = last := by
      simp [TypeReference.simple]
    rw [grouped, isLast]
    exact afterLastDot_append_cons _ (noDot last)

/-- Words joined by dots are a path. -/
theorem QualifiedName.isPath (name : QualifiedName) : IsPath name.text := by
  have ofWord : ∀ word : Word, ∀ c ∈ word.text, isPathChar c = true := by
    intro word c inside
    simp [isPathChar, word.named c inside]
  refine ⟨by simp [QualifiedName.text, name.first.nonempty], fun c inside => ?_⟩
  rcases List.mem_append.mp inside with inFirst | inMore
  · exact ofWord _ c inFirst
  · -- Behind the first word each word has a dot before it.
    obtain ⟨word, _, inWord⟩ := List.mem_flatMap.mp inMore
    rcases List.mem_cons.mp inWord with rfl | inWord
    · decide
    · exact ofWord word c inWord

/-- A reference is written as its path and perhaps type arguments. -/
theorem TypeReference.isReference (reference : TypeReference) :
    Reference reference.name.text reference.text := by
  cases given : reference.arguments with
  | none =>
    refine ⟨[], [], ?_, reference.name.isPath, by simp, .nil⟩
    rw [TypeReference.text, given]
    rfl
  | some brackets =>
    obtain ⟨bare, angled⟩ := brackets.nested
    refine ⟨brackets.space.text, '<' :: (brackets.inner ++ ['>']), ?_, reference.name.isPath,
      brackets.space.blank, .nest angled .nil⟩
    rw [TypeReference.text, given]
    rfl

/-- Further references of the grammar are further references. -/
theorem furtherReferences_more (more : List FurtherReference) :
    FurtherReferences (more.map (·.reference.name.text)) (more.flatMap FurtherReference.text) := by
  induction more with
  | nil => exact .none
  | cons further more ih =>
    have step :=
      FurtherReferences.more further.before.blank further.behind.blank
        further.reference.isReference ih
    simpa [FurtherReference.text] using step

/-- A list of references comes down to the last names of their paths. -/
theorem simpleNames_referenceList (list : ReferenceList) :
    simpleNames list.text = list.references.map (·.simple.text) := by
  have paths : (list.first.name.text :: list.more.map (·.reference.name.text)).map afterLastDot =
      list.references.map (·.simple.text) := by
    simp [ReferenceList.references, afterLastDot_name]
  rw [ReferenceList.text, simpleNames_references list.first.isReference
    (furtherReferences_more list.more), paths, List.filter_eq_self]
  -- No name is empty, so none is dropped.
  intro text member
  obtain ⟨reference, _, rfl⟩ := List.mem_map.mp member
  simpa using reference.simple.nonempty

theorem simpleName_typeReference (reference : TypeReference) :
    simpleName reference.text = reference.simple.text := by
  rw [reference.isReference.simpleName_text, afterLastDot_name]

namespace Reader

/-- What a list of references says comes down to the names that stand for them. -/
theorem namesIn_linkExcerpt (interfaces : Option (Clause ReferenceList)) (rest : List Char) :
    namesIn (linkExcerpt ReferenceList.text interfaces rest) = simpleReferences interfaces := by
  cases interfaces with
  | none => rfl
  | some given =>
    simp [namesIn, linkExcerpt, simpleReferences, Excerpt.text, simpleNames_referenceList]

/-- What is read of a class header declares what was written. -/
theorem declaration_classHeaderOf (introduced : Introduction .plainClass)
    (superclass : Option (Clause TypeReference)) (interfaces : Option (Clause ReferenceList))
    (rest : List Char) :
    (classHeaderOf introduced superclass interfaces rest).declaration =
      (HeaderText.ofClass introduced superclass interfaces).declaration := by
  -- The name and the superclass are those of the excerpts, and so are the interfaces.
  have name : (classHeaderOf introduced superclass interfaces rest).name.text =
    introduced.name.text := List.take_left
  have extended :
      (((classHeaderOf introduced superclass interfaces rest).superclass.map fun reference =>
        simpleName reference.text).bind fun name => if name.isEmpty then
          none else some (String.ofList name)) =
        superclass.map fun given => String.ofList given.content.simple.text := by
    cases superclass with
    | none => rfl
    | some given =>
      simp [classHeaderOf, linkExcerpt, Excerpt.text, simpleName_typeReference,
        given.content.simple.nonempty]
  simp only [ClassHeader.declaration, HeaderText.declaration, name, extended]
  simp only [classHeaderOf, namesIn_linkExcerpt]
  rfl

/-- What is read of an interface header declares what was written. -/
theorem declaration_interfaceHeaderOf (introduced : Introduction .interface)
    (interfaces : Option (Clause ReferenceList)) (rest : List Char) :
    (interfaceHeaderOf introduced interfaces rest).declaration =
      (HeaderText.ofInterface introduced interfaces).declaration := by
  have name : (interfaceHeaderOf introduced interfaces rest).name.text = introduced.name.text :=
    List.take_left
  simp only [InterfaceHeader.declaration, HeaderText.declaration, name]
  simp only [interfaceHeaderOf, namesIn_linkExcerpt]

end Reader

end Lineage.Java
