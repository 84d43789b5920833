import Lineage.Proofs.Java.Member.Scan
import Lineage.Proofs.Text.Reads

/-! Words of statements in the place of a type: a header whose type is such a word is not kept, but
one whose type only begins with it is. A constructor is therefore kept exactly if it has type
parameters. -/

namespace Lineage.Java

open Lineage.Text

/-- What may follow the first word of a type: nothing, another word behind a dot, or a bracket
behind blanks. -/
inductive TypeTail : List Char → Prop where
  | none : TypeTail []
  | dotted (rest : List Char) : TypeTail ('.' :: rest)
  | bracket {blanks rest : List Char} {sign : Char} : (∀ c ∈ blanks, isBlank c = true) →
    sign ∈ ['<', '['] →
    TypeTail (blanks ++ sign :: rest)

/-- The first word of a type ends where another part of the type or blanks begin. -/
theorem TypeTail.head {tail rest : List Char} (isTail : TypeTail tail)
    (ended : rest.head?.any isNameChar = false) :
    (tail ++ rest).head?.any isNameChar = false := by
  cases isTail with
  | none => exact ended
  | dotted more => rfl
  | @bracket blanks more sign allBlank isBracket =>
    cases blanks with
    | nil =>
      have outside : ∀ sign ∈ ['<', '['], isNameChar sign = false := by decide
      exact outside sign isBracket
    | cons b blanks => exact isNameChar_of_isBlank (allBlank b List.mem_cons_self)

/-- More of a type behind a part of it is a part of it. -/
theorem TypeTail.append {tail more : List Char} (isTail : TypeTail tail) (isMore : TypeTail more) :
    TypeTail (tail ++ more) := by
  cases isTail with
  | none => exact isMore
  | dotted rest => exact .dotted _
  | bracket allBlank isBracket =>
    rw [List.append_assoc]
    exact .bracket allBlank isBracket

/-- What follows the first word of a type, and a name behind blanks, do not begin with a
parenthesis. -/
theorem TypeTail.noParenthesis {tail blanks name : List Char} (isTail : TypeTail tail)
    (allBlank : ∀ c ∈ blanks, isBlank c = true) (named : name.head?.any isNameChar = true) :
    (trimStart (tail ++ (blanks ++ name))).head? ≠ some '(' := by
  cases isTail with
  | none =>
    -- Behind the blanks the name comes next.
    obtain ⟨c, rest, rfl⟩ : ∃ c rest, name = c :: rest := by
      cases name with
      | nil => cases named
      | cons c rest => exact ⟨c, rest, rfl⟩
    have isName : isNameChar c = true := named
    rw [List.nil_append, trimStart_append_cons allBlank (isBlank_of_isNameChar isName)]
    exact fun same => ne_of_class isName (by decide) (Option.some.inj same)
  | dotted rest =>
    have whole : trimStart ('.' :: (rest ++ (blanks ++ name))) = '.' ::
      (rest ++ (blanks ++ name)) :=
      @trimStart_append_cons '.' [] (by simp) (by decide) _
    rw [List.cons_append, whole]
    exact fun same => by cases same
  | @bracket before rest sign beforeBlank isBracket =>
    have plain : ∀ sign ∈ ['<', '['], isBlank sign = false ∧ sign ≠ '(' := by decide
    obtain ⟨notBlank, different⟩ := plain sign isBracket
    rw [List.append_assoc, List.cons_append, trimStart_append_cons beforeBlank notBlank]
    exact fun same => different (Option.some.inj same)

theorem MethodModifier.isName (modifier : MethodModifier) : Reader.IsName modifier.word := by
  have named : ∀ word ∈ methodModifiers, word ≠ [] ∧ ∀ c ∈ word, isNameChar c = true := by decide
  exact named modifier.word modifier.listed

/-- What a constructor looks like to a search for methods: its last modifier, with the type
parameters for arguments, stands in the place of a type. -/
def Constructor.typed (given : Constructor) : Typed where
  -- Without type parameters the modifier alone is the type.
  type :=
    { name := ⟨⟨given.last.word, given.last.isName⟩, []⟩
      arguments := given.typeParameters.map fun angles => (given.last.space.toBlanks, angles.1)
      dimensions := [] }
  space := given.typeParameters.elim given.last.space (·.2)
  signature := given.signature

/-- A constructor can be read as a method whose type is its last modifier. -/
theorem Constructor.text_typed (given : Constructor) :
    given.typed.text = given.last.text ++ given.unmodified := by
  -- The type parameters become type arguments of the modifier, if there are any.
  cases isGiven : given.typeParameters with
  | none =>
    simp [Constructor.typed, Constructor.unmodified, Typed.text, ReturnType.text,
      QualifiedName.text, argumentsText, MethodModifier.text, isGiven]
  | some angles =>
    simp [Constructor.typed, Constructor.unmodified, Typed.text, ReturnType.text,
      QualifiedName.text, argumentsText, MethodModifier.text, isGiven]

/-- What stands behind the modifiers of a constructor begins with no blank. -/
theorem Constructor.notBlank_unmodified (given : Constructor) (rest : List Char) :
    (given.unmodified ++ rest).head?.any isBlank = false := by
  unfold Constructor.unmodified
  cases given.typeParameters with
  | none =>
    rw [Option.elim_none, List.nil_append]
    exact given.signature.notBlank_header rest
  | some angles => rfl

/-- A text that could be a type: a word, and what may follow the first word of a type. -/
def IsType (text : List Char) : Prop :=
  ∃ word tail, text = word ++ tail ∧ Reader.IsName word ∧ TypeTail tail

theorem IsType.append {text more : List Char} (isType : IsType text) (isMore : TypeTail more) :
    IsType (text ++ more) := by
  obtain ⟨word, tail, rfl, isName, isTail⟩ := isType
  exact ⟨word, tail ++ more, List.append_assoc .., isName, isTail.append isMore⟩

namespace Reader

open Lineage.Text.Reader

/-- Blanks and what begins with a bracket may follow the first word of a type. -/
theorem reads_blanks_bracket {reader : Text.Reader Unit} {sign : Char}
    (isBracket : sign ∈ ['<', '['])
    (reads : Reads reader fun _ taken => ∃ rest, taken = sign :: rest) :
    Reads (do blanks; reader) fun _ taken => TypeTail taken := by
  refine .bind .run fun _ blanks allBlank => reads.mono ?_
  rintro _ _ ⟨rest, rfl⟩
  exact .bracket allBlank isBracket

/-- What is read as type arguments begins with their bracket. -/
theorem reads_arguments_sign : Reads arguments fun _ taken => ∃ rest, taken = '<' :: rest := by
  -- The bracket is read first, and then all up to the closing one.
  refine .bind .char ?_
  rintro _ _ ⟨c, isAngle, rfl⟩
  obtain rfl : c = '<' := by simpa using isAngle
  intro place read member
  obtain ⟨after, closed, rfl⟩ := List.mem_map.mp member
  obtain ⟨taken, rest, split, _, rfl⟩ :=
    @closeAngles?_takes _ _ place.before _ _ (Option.mem_toList.mp closed)
  exact ⟨taken, ⟨split, rfl⟩, taken, rfl⟩

/-- Type arguments may stand behind the first word of a type. -/
theorem reads_someArguments_tail : Reads someArguments fun _ taken => TypeTail taken := by
  refine .bind (reads_blanks_bracket (by decide) reads_arguments_sign).optional ?_
  rintro _ taken (⟨_, _, isTail⟩ | ⟨_, rfl⟩)
  · exact .pure (by rwa [List.append_nil])
  · exact .pure .none

/-- Square brackets may stand behind the first word of a type. -/
theorem reads_dimensions_tail : Reads dimensions fun _ taken => TypeTail taken := by
  -- One pair may, and so may all of them in a row.
  have bracket : '[' ∈ ['<', '['] := by decide
  have one : Reads dimension fun _ taken => TypeTail taken := by
    refine reads_blanks_bracket bracket (.bind .char ?_)
    rintro _ _ ⟨c, isBracket, rfl⟩
    obtain rfl : c = '[' := by simpa using isBracket
    exact .bind .run fun _ blanks _ => Reads.char.mono fun _ rest _ => ⟨blanks ++ rest, rfl⟩
  refine .bind one.many ?_
  rintro _ _ ⟨parts, rfl, row⟩
  refine .pure ?_
  rw [List.append_nil]
  induction row with
  | nil => exact .none
  | cons isTail _ ih => exact isTail.append ih

/-- A path is a type. -/
theorem reads_path_type : Reads path fun _ taken => IsType taken := by
  have dotted : Reads (do char (· == '.'); run1 isNameChar : Text.Reader Unit) fun _ taken =>
      TypeTail taken := by
    refine .bind .char ?_
    rintro _ _ ⟨c, isDot, rfl⟩
    obtain rfl : c = '.' := by simpa using isDot
    exact Reads.run1.mono fun _ rest _ => .dotted rest
  refine .bind .run1 fun _ word isName => .bind dotted.many ?_
  rintro _ _ ⟨parts, rfl, row⟩
  refine .pure ⟨word, parts.flatten, by rw [List.append_nil], isName, ?_⟩
  -- Each further word begins with a dot.
  induction row with
  | nil => exact .none
  | cons isTail _ ih => exact isTail.append ih

/-- What is read as the type of a method is a type. -/
theorem reads_returnType : Reads returnType fun _ taken => IsType taken := by
  have reference : Reads reference fun _ taken => IsType taken :=
    .bind reads_path_type fun _ _ isType => reads_someArguments_tail.mono fun _ _ isTail =>
      isType.append isTail
  exact .bind reference fun _ _ isType => reads_dimensions_tail.mono fun _ _ isTail =>
    isType.append isTail

section Constructor

variable {offset : Nat} {before : Option Char}

/-- No type is read where a name and its parameters stand. -/
theorem typedOn_eq_nil (signature : Signature) (rest : List Char) :
    typedOn ⟨offset, before, signature.header ++ rest⟩ = [] := by
  refine List.eq_nil_iff_forall_not_mem.mpr fun result read => ?_
  obtain ⟨excerpt, middle, readType, readMore⟩ := mem_bind.mp read
  obtain ⟨_, last, readBlanks, readName⟩ := mem_bind.mp readMore
  -- What is read as a type is a word and a tail, and blanks and a name would have to follow.
  obtain ⟨_, took, rfl, _, word, tail, isText, isName, isTail⟩ :=
    reads_returnType.stretch _ _ readType
  obtain ⟨offset, before, behind⟩ := middle
  obtain ⟨blanks, name, rfl, nonempty, allBlank, same⟩ := mem_run1.mp readBlanks
  cases same
  have named : name.head?.any isNameChar = true :=
    ((Begins.run1 fun _ fits => fits).stretch.bind _) _ _ readName
  -- Both ways to see the text agree on the first word.
  have split : signature.name.text ++ (signature.behindName ++ rest) = word ++
      (tail ++ (blanks ++ name)) := by
    rw [← List.append_assoc, ← List.append_assoc word, ← isText]
    exact took.rest
  have nameEnds := head_behindName signature rest
  have blankEnds : (blanks ++ name).head?.any isNameChar = false := by
    obtain ⟨b, blanks, rfl⟩ := List.exists_cons_of_ne_nil nonempty
    exact isNameChar_of_isBlank (allBlank b List.mem_cons_self)
  obtain rfl :=
    eq_of_append_eq signature.name.isName.2 isName.2 nameEnds (isTail.head blankEnds) split
  -- Behind it comes the parenthesis before the parameters.
  have next : (trimStart (signature.behindName ++ rest)).head? = some '(' := by
    rw [Signature.behindName, List.append_assoc, List.cons_append,
      trimStart_append_cons signature.space.blank (by decide)]
    rfl
  rw [List.append_cancel_left split] at next
  exact isTail.noParenthesis allBlank named next

/-- No type is read where blanks come first. -/
theorem typedOn_blank {text : List Char} (blank : text.head?.any isBlank = true) :
    typedOn ⟨offset, before, text⟩ = [] := by
  refine begins_typedOn.eq_nil ?_
  cases text with
  | nil => cases blank
  | cons c text => exact isNameChar_of_isBlank blank

/-- No type is read where type parameters, a name and its parameters stand. -/
theorem unmodifiedOn_eq_nil (given : Constructor) (rest : List Char) :
    unmodifiedOn ⟨offset, before, given.unmodified ++ rest⟩ = [] := by
  refine List.eq_nil_iff_forall_not_mem.mpr fun result read => ?_
  obtain ⟨_, _, readParameters, readTyped⟩ := mem_bind.mp read
  unfold Constructor.unmodified at readParameters
  cases isGiven : given.typeParameters with
  | none =>
    rw [isGiven, Option.elim_none, List.nil_append] at readParameters
    rcases mem_optional.mp readParameters with ⟨_, _, readSome, _⟩ | same
    · -- A name opens no type parameters.
      rw [Signature.header, List.append_assoc, typeParameters_eq_nil] at readSome
      cases readSome
    · cases same
      rw [typedOn_eq_nil] at readTyped
      cases readTyped
  | some angles =>
    rw [isGiven, Option.elim_some, List.append_assoc, List.append_assoc] at readParameters
    rcases mem_optional.mp readParameters with ⟨_, _, readSome, same⟩ | same
    · cases same
      -- Only the blanks behind the brackets can be read in more than one way.
      obtain ⟨_, _, readAngles, readBlanks⟩ := mem_bind.mp readSome
      rw [arguments_append] at readAngles
      cases List.mem_singleton.mp readAngles
      obtain ⟨blanks, more, split, allBlank, same⟩ := mem_run.mp readBlanks
      cases same
      have notBlank := given.signature.notBlank_header rest
      rcases eq_or_blank angles.2.blank allBlank notBlank split with rfl | blank
      · rw [Cursor.beyond, typedOn_eq_nil] at readTyped
        cases readTyped
      · rw [Cursor.beyond, typedOn_blank blank] at readTyped
        cases readTyped
    · -- Nor does a bracket begin a type.
      cases same
      rw [begins_typedOn.eq_nil (by rfl)] at readTyped
      cases readTyped

/-- A constructor from its type parameters on is not read as a method, with or without further
modifiers. -/
theorem modified_eq_nil (given : Constructor) (rest : List Char) :
    (do let _ ← modifiers methodModifiers; unmodifiedOn : Text.Reader MethodHeader)
      ⟨offset, before, given.unmodified ++ rest⟩ = [] := by
  -- There is no modifier left, and what is there begins no method.
  have noModifier : modifier methodModifiers ⟨offset, before, given.unmodified ++ rest⟩ = [] := by
    unfold Constructor.unmodified
    cases given.typeParameters with
    | none =>
      rw [Option.elim_none, List.nil_append, Signature.header, List.append_assoc]
      exact methodModifier_eq_nil given.signature.name given.signature.noKeyword
        (head_behindName given.signature rest)
    | some angles =>
      rw [Option.elim_some, List.append_assoc, List.append_assoc]
      exact methodModifier_angles_eq_nil angles.1
  refine (many_bind (modifier methodModifiers) unmodifiedOn _).trans ?_
  rw [noModifier, unmodifiedOn_eq_nil, List.flatMap_nil, List.nil_append]

/-- Behind the last modifier of a constructor no method is read. -/
theorem lastModifier_fails (given : Constructor) (rest : List Char) :
    ∀ read ∈ modifier methodModifiers ⟨offset, before, given.last.text ++ given.unmodified ++ rest⟩,
      (do let _ ← modifiers methodModifiers; unmodifiedOn :
        Text.Reader MethodHeader) read.2 = [] := by
  intro read member
  obtain ⟨word, listed, blanks, more, split, nonempty, allBlank, rfl⟩ := mem_modifier.mp member
  rw [MethodModifier.text, List.append_assoc, List.append_assoc, List.append_assoc] at split
  obtain rfl := eq_modifier listed nonempty allBlank given.last.isName.2
    (isNameChar_of_isPathChar (given.last.space.head _)) split
  -- Behind the word come the rest of its blanks or what follows them.
  rcases eq_or_blank given.last.space.blank allBlank (given.notBlank_unmodified rest)
    (List.append_cancel_left split) with rfl | blank
  · exact modified_eq_nil given rest
  · refine begins_modified.eq_nil ?_
    cases more with
    | nil => cases blank
    | cons c more => exact beginsMethod_of_isBlank blank

/-- A constructor is read with its last modifier, and the type parameters behind it, in the place of
a type. -/
theorem prefers_constructor (given : Constructor) {rest : List Char}
    (started : MayPrecedeMethod before) :
    Prefers methodHeader offset before given.header rest (typedRead given.typed rest) := by
  have row : ∀ {offset before} (row : List MethodModifier),
      Prefers (do let _ ← modifiers methodModifiers; unmodifiedOn) offset before
        (row.flatMap MethodModifier.text ++ (given.last.text ++ given.unmodified)) rest
        (typedRead given.typed rest) := by
    intro offset before row
    induction row generalizing offset before with
    | nil =>
      -- All modifiers but the last one are read as such.
      refine .many_bind_nil (lastModifier_fails given rest) ?_
      rw [List.flatMap_nil, List.nil_append, ← given.text_typed]
      exact prefers_unmodified none given.typed
    | cons first row ih =>
      have nonempty : first.text ≠ [] := by simp [MethodModifier.text, first.space.nonempty]
      have readFirst : Prefers (modifier methodModifiers) offset before first.text
          (row.flatMap MethodModifier.text ++ (given.last.text ++ given.unmodified) ++ rest)
            first.word := by
        refine areModifiers_methodModifiers.prefers_modifier first.listed first.space ?_
        rw [List.append_assoc, MethodModifier.text, List.append_assoc, List.append_assoc]
        exact areModifiers_methodModifiers.notBlank_row (fun modifier => modifier.listed) row
          (Word.notBlank ⟨given.last.word, given.last.isName⟩ _)
      rw [List.flatMap_cons, List.append_assoc]
      exact .many_bind_cons nonempty readFirst ih
  rw [methodHeader_eq_unmodifiedOn]
  exact (prefers_methodStart started).bind (row given.modifiers)

end Constructor

/-- Whatever stands before a type and behind it, the type in a header could be one. -/
theorem gives_methodHeader : Gives methodHeader fun header => IsType header.returnType.text := by
  have type : Gives (stretch returnType) fun excerpt => IsType excerpt.text := by
    intro place read member
    obtain ⟨_, _, isText, _, isType⟩ := reads_returnType.stretch place read member
    rwa [isText]
  -- What is read behind the type does not change it.
  have signature : ∀ {excerpt}, IsType excerpt.text → Gives (signatureOn excerpt) fun header =>
      IsType header.returnType.text := fun isType =>
    .behind fun _ => .behind fun _ => .behind fun _ => .behind fun _ => .behind fun _ =>
      .behind fun _ =>
      .behind fun _ => .pure isType
  rw [methodHeader_eq_unmodifiedOn]
  exact .behind fun _ => .behind fun _ => .behind fun _ => .bind type fun _ isType =>
    .behind fun _ => signature isType

end Reader

/-- The word with which the type in a header begins. -/
def MethodHeader.firstWord (header : MethodHeader) : List Char :=
  header.returnType.text.takeWhile isNameChar

/-- What follows the first word of the type in a header, within the type. -/
def MethodHeader.behindWord (header : MethodHeader) : List Char :=
  header.returnType.text.dropWhile isNameChar

/-- A header counts if neither its name nor its type is a word of a statement. A type that begins
with such a word counts if anything follows the word. -/
def MethodHeader.Counts (header : MethodHeader) : Prop :=
  header.name.text ∉ notATypeWords ∧ (header.firstWord ∈ notATypeWords → header.behindWord ≠ [])

instance decidableCounts (header : MethodHeader) : Decidable header.Counts :=
  inferInstanceAs (Decidable (_ ∧ _))

/-- A type is a word of a statement if its first word is one and nothing follows. -/
theorem mem_notATypeWords_iff (header : MethodHeader) :
    header.returnType.text ∈ notATypeWords ↔
      header.firstWord ∈ notATypeWords ∧ header.behindWord = [] := by
  -- A word that is no type is made of characters of names, so it is the first word as a whole.
  have named : ∀ word ∈ notATypeWords, ∀ c ∈ word, isNameChar c = true := by decide
  constructor
  · intro listed
    have isWord : header.firstWord = header.returnType.text :=
      List.takeWhile_eq_self_iff.mpr (named _ listed)
    have nothing : header.behindWord = [] := List.dropWhile_eq_nil_iff.mpr (named _ listed)
    exact ⟨isWord ▸ listed, nothing⟩
  · rintro ⟨listed, nothing⟩
    have whole : header.firstWord ++ header.behindWord = header.returnType.text :=
      List.takeWhile_append_dropWhile
    rw [nothing, List.append_nil] at whole
    exact whole ▸ listed

/-- A header is kept exactly if it counts. -/
theorem keptHeader_eq (header : MethodHeader) :
    keptHeader header = if header.Counts then
      some (header.name.text, header.parameters.text) else none := by
  have counts : (isNoType header.returnType.text || isNoType header.name.text) = true ↔
      ¬ header.Counts := by
    rw [Bool.or_eq_true, isNoType, isNoType, List.contains_iff_mem, List.contains_iff_mem,
      mem_notATypeWords_iff, MethodHeader.Counts]
    tauto
  rw [keptHeader]
  by_cases holds : header.Counts
  · rw [if_neg (by rwa [counts, not_not]), if_pos holds]
  · rw [if_pos (counts.mpr holds), if_neg holds]

/-- The methods that are found are the headers that count. -/
theorem methodHeaders_counts (text : List Char) :
    methodHeaders text = ((Reader.methodHeader.all text).filter fun found => found.value.Counts).map
      fun found => (found.value.name.text, found.value.parameters.text) := by
  have kept : methodHeaders text = (Reader.methodHeader.all text).filterMap fun found =>
    keptHeader found.value := rfl
  rw [kept]
  generalize Reader.methodHeader.all text = all
  induction all with
  | nil => rfl
  | cons found all ih =>
    rw [List.filterMap_cons, keptHeader_eq]
    by_cases counts : found.value.Counts
    · simp [counts, ih]
    · simp [counts, ih]

/-- The first word of a type in a header, and what may follow it. -/
theorem IsType.firstWord {header : MethodHeader} (isType : IsType header.returnType.text) :
    Reader.IsName header.firstWord ∧ TypeTail header.behindWord := by
  obtain ⟨word, tail, isText, isName, isTail⟩ := isType
  have ended : tail.head?.any isNameChar = false := by
    have alone := @TypeTail.head tail [] isTail rfl
    rwa [List.append_nil] at alone
  have isFirst : header.firstWord = word := by
    rw [MethodHeader.firstWord, isText, Reader.takeWhile_name isName.2 ended]
  have whole : header.firstWord ++ header.behindWord = word ++ tail :=
    List.takeWhile_append_dropWhile.trans isText
  rw [isFirst] at whole ⊢
  rw [List.append_cancel_left whole]
  exact ⟨isName, isTail⟩

/-- A constructor without type parameters has a word of a statement for its type, and one with type
parameters has not. -/
theorem keptHeader_constructor (given : Constructor) (rest : List Char) :
    keptHeader (Reader.typedRead given.typed rest) =
      given.typeParameters.map fun _ =>
        (given.signature.name.text, given.signature.parameters) := by
  cases isGiven : given.typeParameters with
  | none =>
    have noType : ∀ word ∈ methodModifiers, isNoType word = true := by decide
    have isWord : given.typed.type.text = given.last.word := by
      simp [Constructor.typed, ReturnType.text, QualifiedName.text, argumentsText, isGiven]
    obtain ⟨returnType, _, _⟩ := Reader.text_typedRead given.typed rest
    rw [keptHeader, returnType, isWord, noType _ given.last.listed]
    rfl
  | some angles =>
    have named : ∀ word ∈ notATypeWords, '<' ∉ word := by decide
    -- No listed word holds the bracket that the type parameters begin with.
    have angled : '<' ∈ given.typed.type.text := by
      simp [Constructor.typed, ReturnType.text, argumentsText, isGiven, Angles.text]
    exact keptHeader_typed (fun listed => named _ listed angled) rest

/-- A constructor is found, and it is kept if it has type parameters. -/
def Constructor.findable (given : Constructor) : Findable where
  header := given.header
  ending := given.signature.ending
  read := Reader.typedRead given.typed
  kept := given.typeParameters.map fun _ => (given.signature.name.text, given.signature.parameters)
  marked := by
    rw [Constructor.header, List.getLast?_append, ← given.text_typed, given.typed.getLast?_text]
    rfl
  prefers := Reader.prefers_constructor given
  keeps := keptHeader_constructor given

/-- What is found of an item, whether it is a method or a constructor. -/
def Item.findable : Item → Findable
  | .method member => member.findable
  | .constructor given => given.findable

/-- What is reported of an item: a method in any case, and a constructor only if it has type
parameters. -/
def Item.reported : Item → Option (List Char × List Char)
  | .method member => some (member.typed.signature.name.text, member.typed.signature.parameters)
  | .constructor given => given.typeParameters.map fun _ =>
    (given.signature.name.text, given.signature.parameters)

/-- Of items in a row those are found that are reported. -/
theorem methodHeaders_items (lead : Blanks) (items : List (Item × Blanks)) :
    methodHeaders (lead.text ++ items.flatMap fun item => item.1.text ++ item.2.text) =
      items.filterMap fun item => item.1.reported := by
  -- Each item is read as something that can be found, with the same text and the same result.
  have text : ∀ item : Item, item.findable.text = item.text := by
    intro item
    cases item <;> rfl
  have kept : ∀ item : Item, item.findable.kept = item.reported := by
    intro item
    cases item <;> rfl
  have found := methodHeaders_row lead (items.map fun item => (item.1.findable, item.2))
  rw [List.flatMap_map, List.filterMap_map] at found
  simpa only [text, kept, Function.comp_def] using found

/-- The headers that are found in a text are kept if they count, in order, and the type in each of
them is a word with what may follow it. Among methods and constructors in a row, all methods are
kept, and those constructors that have type parameters, whose last modifier is taken for a type with
type arguments. -/
theorem methodHeaders_keywords (text : List Char) (lead : Blanks) (items : List (Item × Blanks)) :
    (methodHeaders text = ((Reader.methodHeader.all text).filter fun found =>
      found.value.Counts).map (fun found => (found.value.name.text, found.value.parameters.text)) ∧
        ∀ found ∈ Reader.methodHeader.all text,
          Reader.IsName found.value.firstWord ∧ TypeTail found.value.behindWord) ∧
      methodHeaders (lead.text ++ items.flatMap fun item => item.1.text ++ item.2.text) =
        items.filterMap fun item => item.1.reported := by
  refine ⟨⟨methodHeaders_counts text, fun found member => ?_⟩, methodHeaders_items lead items⟩
  exact (Reader.gives_methodHeader.of_mem_all member).firstWord

/-- A constructor without type parameters and a statement are found but not kept. -/
theorem methodHeaders_keywords_mixed :
    let text :=
      "public Outer() \x7b \x7d public <T> Inner(T x) \x7b \x7d new Helper(n); int f();".toList
    ((Reader.methodHeader.all text).filter fun found => found.value.Counts).map
        (fun found => (found.value.name.text, found.value.parameters.text)) =
      [("Inner".toList, "T x".toList), ("f".toList, [])] ∧
      ∀ found ∈ Reader.methodHeader.all text,
        Reader.IsName found.value.firstWord ∧ TypeTail found.value.behindWord := by
  intro text
  obtain ⟨counts, shaped⟩ := (methodHeaders_keywords text ⟨[], List.forall_mem_nil _⟩ []).1
  have found : methodHeaders text = [("Inner".toList, "T x".toList), ("f".toList, [])] := by
    decide +kernel
  exact ⟨counts.symm.trans found, shaped⟩

/-- A constructor with a modifier and type parameters is kept, though the type in its header begins
with the modifier. -/
theorem constructor_kept :
    let text := "public <T> Inner(T x) \x7b \x7d".toList
    (Reader.methodHeader.all text).map (fun found => found.value.firstWord) = ["public".toList] ∧
      "public".toList ∈ notATypeWords ∧ methodHeaders text = [("Inner".toList, "T x".toList)] := by
  decide +kernel

end Lineage.Java
