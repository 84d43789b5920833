import Lineage.Proofs.Java.Grammar
import Lineage.Proofs.Java.Printed

/-! The headers of written types: the words in them, and that they are headers as the language
allows them. -/

namespace Lineage.Java

open Lineage.Text

/-- The words for kinds of types are never types. -/
theorem keywordOf_mem (kind : Kind) : keywordOf kind ∈ notATypeWords := by
  cases kind <;> decide

variable {word typeName rest : List Char} {names : List (List Char)} {type : TypeText}

theorem Identifier.ne_keywordOf (identifier : Identifier word) (kind : Kind) :
    keywordOf kind ≠ word := by
  rintro rfl
  exact identifier.noKeyword (keywordOf_mem kind)

/-- The words of the header of a method are its type, its name and those of its parameters. -/
theorem MethodText.Fits.words_header {method : MethodText} (fits : method.Fits typeName) :
    words (method.header ++ ['\n']) = method.returnType :: method.name ::
      words method.parameters := by
  have grouped : method.header ++ ['\n'] =
      method.returnType ++ ' ' :: (method.name ++ '(' ::
        (method.parameters ++ ')' :: [';', '\n'])) := by
    simp [MethodText.header]
  rw [grouped, words_append_of_name fits.returnType.nonempty fits.returnType.named (by rfl),
    words_cons (by decide), words_append_of_name fits.name.nonempty fits.name.named (by rfl),
    words_cons (by decide),
    words_append_cons (by decide), words_cons (by decide), words_cons (by decide), words_nil,
      List.append_nil]

/-- No word of a method announces a type. -/
theorem MethodText.Fits.keywordOf_notMem {method : MethodText} (fits : method.Fits typeName)
    (kind : Kind) : keywordOf kind ∉ words (method.header ++ ['\n']) := by
  rw [fits.words_header, List.mem_cons, List.mem_cons, not_or, not_or]
  exact ⟨fits.returnType.ne_keywordOf kind, fits.name.ne_keywordOf kind, fits.noType kind⟩

/-- No word of the methods of a type announces a type. -/
theorem keywordOf_notMem_methods {methods : List MethodText}
    (fit : ∀ method ∈ methods, method.Fits typeName) (kind : Kind) :
    keywordOf kind ∉ words (methods.flatMap MethodText.bare) := by
  induction methods with
  | nil => simp
  | cons method methods ih =>
    have here := fit method List.mem_cons_self
    have separate : ∀ c ∈ method.gap, isNameChar c = false :=
      fun c inside => isNameChar_of_isBlank (method.isBlank_gap c inside)
    have ended : (method.header ++ ['\n']).getLast?.any isNameChar = false := by
      rw [List.getLast?_concat]
      decide
    -- The line feed behind a method separates its words from those of the next.
    rw [List.flatMap_cons, MethodText.bare, List.append_assoc method.gap,
      List.append_assoc method.gap, words_append_of_separators separate, words_append_of_last ended,
      List.mem_append, not_or]
    exact ⟨here.keywordOf_notMem kind, ih fun other member =>
      fit other (List.mem_cons_of_mem method member)⟩

/-- The words of a clause. -/
def clauseWords (word : List Char) (names : List (List Char)) : List (List Char) :=
  if names.isEmpty then [] else word :: names

/-- Names with commas between them are words. -/
theorem words_intercalate (fit : ∀ name ∈ names, Identifier name)
    (ended : rest.head?.any isNameChar = false) :
    words ([',', ' '].intercalate names ++ rest) = names ++ words rest := by
  -- The commas and the blanks separate the names.
  induction names with
  | nil => rfl
  | cons name names ih =>
    have here := fit name List.mem_cons_self
    cases names with
    | nil =>
      rw [List.intercalate_singleton, words_append_of_name here.nonempty here.named ended]
      rfl
    | cons other names =>
      have later := ih fun found member => fit found (List.mem_cons_of_mem name member)
      rw [List.intercalate_cons_cons, List.append_assoc, List.append_assoc,
        words_append_of_name here.nonempty here.named (by rfl), List.cons_append,
          words_cons (by decide),
        List.singleton_append, words_cons (by decide), later]
      rfl

/-- The words of a clause are its keyword and its names. -/
theorem words_clauseText (nonempty : word ≠ []) (named : ∀ c ∈ word, isNameChar c = true)
    (fit : ∀ name ∈ names, Identifier name) (ended : rest.head?.any isNameChar = false) :
    words (clauseText word names ++ rest) = clauseWords word names ++ words rest := by
  unfold clauseText clauseWords
  split
  · rfl
  · rw [List.append_assoc, List.cons_append, List.cons_append, words_cons (by decide),
      words_append_of_name nonempty named (by rfl), words_cons (by decide),
        words_intercalate fit ended]
    rfl

/-- A clause begins with a blank, if it is there, and what follows it does not belong to a name. -/
theorem head_clauseText (ended : rest.head?.any isNameChar = false) :
    (clauseText word names ++ rest).head?.any isNameChar = false := by
  unfold clauseText
  split
  · exact ended
  · rfl

/-- The words that follow the name of a type in its header. -/
def TypeText.clauseWords (type : TypeText) : List (List Char) :=
  Java.clauseWords "extends".toList type.extended ++
    Java.clauseWords "implements".toList type.implemented

/-- The words of the clauses are those of both. -/
theorem TypeText.Fits.words_clauses (fits : type.Fits) (ended : rest.head?.any isNameChar = false) :
    words (type.clauses ++ rest) = type.clauseWords ++ words rest := by
  rw [TypeText.clauses, List.append_assoc,
    words_clauseText (by decide) (by decide) fits.extended (head_clauseText ended),
    words_clauseText (by decide) (by decide) fits.implemented ended, TypeText.clauseWords,
      List.append_assoc]

theorem TypeText.head_clauses (ended : rest.head?.any isNameChar = false) :
    (type.clauses ++ rest).head?.any isNameChar = false := by
  rw [TypeText.clauses, List.append_assoc]
  exact head_clauseText (head_clauseText ended)

/-- No word behind the name of a type announces a type. -/
theorem TypeText.Fits.keywordOf_notMem (fits : type.Fits) (kind : Kind) :
    keywordOf kind ∉ type.clauseWords := by
  -- A clause consists of its own word and of names that can stand for types.
  have onClause : ∀ {word names}, keywordOf kind ≠ word → (∀ name ∈ names, Identifier name) →
      keywordOf kind ∉ Java.clauseWords word names := by
    intro word names different fit member
    unfold Java.clauseWords at member
    split at member
    · cases member
    · rcases List.mem_cons.mp member with same | listed
      · exact different same
      · exact (fit _ listed).ne_keywordOf kind rfl
  have noExtends : keywordOf kind ≠ "extends".toList := by cases kind <;> decide
  have noImplements : keywordOf kind ≠ "implements".toList := by cases kind <;> decide
  rw [TypeText.clauseWords, List.mem_append, not_or]
  exact ⟨onClause noExtends fits.extended, onClause noImplements fits.implemented⟩

/-- The words before the name of a type. -/
def introductionWords : Kind → List (List Char)
  | .plainClass => ["class".toList]
  | .abstractClass => ["abstract".toList, "class".toList]
  | .interface => ["interface".toList]

/-- The words before a name are those that introduce its kind. -/
theorem words_introduction (kind : Kind) (rest : List Char) :
    words (introduction kind ++ rest) = introductionWords kind ++ words rest := by
  have ended : (introduction kind).getLast?.any isNameChar = false := by cases kind <;> decide
  rw [words_append_of_last ended]
  cases kind <;> congr 1

/-- The words of a header. -/
theorem TypeText.Fits.words_header (fits : type.Fits) (ended : rest.head?.any isNameChar = false) :
    words (type.header ++ rest) = introductionWords type.kind ++ type.name ::
      (type.clauseWords ++ words rest) := by
  rw [TypeText.header, List.append_assoc, List.append_assoc, words_introduction,
    words_append_of_name fits.name.nonempty fits.name.named (TypeText.head_clauses ended),
      fits.words_clauses ended]

/-- Where a mark stands only once in a list, one other entry follows it. -/
theorem next_of_mark {front back early late : List (List Char)} {mark next sought found : List Char}
    (notBefore : sought ∉ front) (notBehind : sought ∉ next :: back)
    (split : front ++ mark :: next :: back = early ++ sought :: found :: late) :
    sought = mark ∧ found = next := by
  rcases append_cons_cases split with ⟨more, _, behind⟩ | ⟨_, rfl, same⟩ | ⟨more, rfl, _⟩
  · -- The mark would stand behind the place where it is expected.
    exact absurd (behind ▸ by simp) notBehind
  · exact ⟨rfl, (List.cons.inj same).1.symm⟩
  · -- The mark would stand before that place.
    simp at notBefore

/-- Among the words of a header, the word for a kind stands once, and the name of the type follows
it. -/
theorem TypeText.Fits.name_of_words (fits : type.Fits) {kind : Kind} {name : List Char}
    {early late : List (List Char)} (ended : rest.head?.any isNameChar = false)
    (absent : keywordOf kind ∉ words rest)
    (split : words (type.header ++ rest) = early ++ keywordOf kind :: name :: late) :
    keywordOf kind = keywordOf type.kind ∧ name = type.name := by
  -- The word for the kind is the last of the words before the name.
  have introduced : introductionWords type.kind =
      (introductionWords type.kind).dropLast ++ [keywordOf type.kind] := by cases type.kind <;> rfl
  have notBefore : keywordOf kind ∉ (introductionWords type.kind).dropLast := by
    cases kind <;> cases type.kind <;> decide
  have notBehind : keywordOf kind ∉ type.name :: (type.clauseWords ++ words rest) := by
    rw [List.mem_cons, List.mem_append, not_or, not_or]
    exact ⟨fits.name.ne_keywordOf kind, fits.keywordOf_notMem kind, absent⟩
  rw [fits.words_header ended, introduced, List.append_assoc, List.singleton_append] at split
  exact next_of_mark notBefore notBehind split

/-- An identifier is the name of a type. -/
def Identifier.asName {word : List Char} (identifier : Identifier word) : Name where
  text := word
  isName := ⟨identifier.nonempty, identifier.named⟩
  noKeyword listed := by
    have never : ∀ word ∈ typeWords, word ∈ notATypeWords := by decide
    exact identifier.noKeyword (never word listed)

/-- An identifier refers to a type, without a path and without type arguments. -/
def Identifier.asReference {word : List Char} (identifier : Identifier word) : TypeReference :=
  ⟨identifier.asName, [], none⟩

@[simp] theorem Identifier.text_asReference (identifier : Identifier word) :
    identifier.asReference.text = word := by
  simp [Identifier.asReference, Identifier.asName, TypeReference.text, TypeReference.name,
    QualifiedName.text, bracketsText, argumentsText]

@[simp] theorem Identifier.simple_asReference (identifier : Identifier word) :
    identifier.asReference.simple.text = word :=
  rfl

/-- Behind the first of several names, each one has a comma and a blank before it. -/
theorem intercalate_eq (name : List Char) (names : List (List Char)) :
    [',', ' '].intercalate (name :: names) = name ++ names.flatMap fun other =>
      ',' :: ' ' :: other := by
  induction names generalizing name with
  | nil => simp
  | cons other names ih => rw [List.intercalate_cons_cons, ih, List.append_assoc]; rfl

/-- Names with commas between them are references. -/
theorem exists_further (fit : ∀ name ∈ names, Identifier name) :
    ∃ more : List FurtherReference,
      more.flatMap FurtherReference.text = names.flatMap (fun name => ',' :: ' ' :: name) ∧
        more.map (·.reference.simple.text) = names := by
  induction names with
  | nil => exact ⟨[], rfl, rfl⟩
  | cons name names ih =>
    obtain ⟨more, isText, isNames⟩ :=
      ih fun other member => fit other (List.mem_cons_of_mem name member)
    have identifier := fit name List.mem_cons_self
    refine ⟨⟨.none, Spacing.single.toBlanks, identifier.asReference⟩ :: more, ?_, ?_⟩
    · simp [FurtherReference.text, Blanks.none, Spacing.single, isText]
    · simp [isNames]

/-- A clause of names is a clause of references to them. -/
theorem exists_interfaces (word : List Char) (fit : ∀ name ∈ names, Identifier name) :
    ∃ clause, linkText word ReferenceList.text clause = clauseText word names ∧
      simpleReferences clause = names.map String.ofList := by
  cases names with
  | nil => exact ⟨none, rfl, rfl⟩
  | cons name names =>
    obtain ⟨more, isText, isNames⟩ :=
      exists_further fun other member => fit other (List.mem_cons_of_mem name member)
    have identifier := fit name List.mem_cons_self
    refine ⟨some ⟨.single, .single, identifier.asReference, more⟩, ?_, ?_⟩
    · simp [linkText, ReferenceList.text, Spacing.single, clauseText, intercalate_eq, isText]
    · rw [← isNames]
      simp [simpleReferences, ReferenceList.references]

/-- A superclass can be written as a clause. -/
theorem exists_superclass (word : List Char) {superclass : Option (List Char)}
    (fit : ∀ name ∈ superclass, Identifier name) :
    ∃ clause, linkText word TypeReference.text clause = clauseText word superclass.toList ∧
      (clause.map fun given => String.ofList given.content.simple.text) =
        superclass.map String.ofList := by
  cases superclass with
  | none => exact ⟨none, rfl, rfl⟩
  | some name =>
    refine ⟨some ⟨.single, .single, (fit name rfl).asReference⟩, ?_, rfl⟩
    simp [linkText, Spacing.single, clauseText]

theorem abstract_mem : "abstract".toList ∈ modifiersOf .plainClass := by
  decide

/-- The modifiers with which a type is introduced. -/
def introducedBy : Kind → List (Modifier .plainClass)
  | .abstractClass => [⟨"abstract".toList, abstract_mem, .single⟩]
  | .plainClass | .interface => []

theorem introduction_eq (kind : Kind) :
    introduction kind = (introducedBy kind).flatMap Modifier.text ++ (keywordOf kind ++ [' ']) := by
  cases kind <;> decide

/-- A class extends its superclass and implements its interfaces. -/
theorem TypeText.clauses_of_class (isClass : type.kind ≠ .interface) :
    type.clauses =
      clauseText "extends".toList type.superclass.toList ++
        clauseText "implements".toList type.interfaces := by
  unfold TypeText.clauses TypeText.extended TypeText.implemented
  cases isKind : type.kind with
  | interface => exact absurd isKind isClass
  | plainClass | abstractClass => rfl

/-- An interface extends its interfaces. -/
theorem TypeText.clauses_of_interface (isInterface : type.kind = .interface) :
    type.clauses = clauseText "extends".toList type.interfaces := by
  unfold TypeText.clauses TypeText.extended TypeText.implemented
  rw [isInterface]
  exact List.append_nil _

/-- The header of a written class is one that the language allows. -/
theorem TypeText.Fits.exists_classHeader (fits : type.Fits) (isClass : type.kind ≠ .interface) :
    ∃ header : HeaderText, header.text = type.header ∧ header.declaration = type.methodless := by
  obtain ⟨superclass, isSuperclass, superclassName⟩ :=
    exists_superclass "extends".toList fits.superclass
  obtain ⟨interfaces, isInterfaces, interfaceNames⟩ :=
    exists_interfaces "implements".toList fits.interfaces
  -- A class is introduced as abstract exactly if it is abstract, and by the same word in any case.
  have sameWord : keywordOf .plainClass = keywordOf type.kind := by
    cases isKind : type.kind with
    | interface => exact absurd isKind isClass
    | plainClass | abstractClass => rfl
  have sameKind :
      (if ((introducedBy type.kind).map (·.word)).contains "abstract".toList then Kind.abstractClass
        else .plainClass) = type.kind := by
    cases isKind : type.kind with
    | interface => exact absurd isKind isClass
    | plainClass | abstractClass => decide
  refine ⟨.ofClass ⟨introducedBy type.kind, .single, fits.name.asName, none⟩ superclass interfaces,
    ?_, ?_⟩
  · rw [HeaderText.text, HeaderText.tail, Introduction.text, isSuperclass, isInterfaces,
      TypeText.header, introduction_eq, type.clauses_of_class isClass, sameWord]
    simp [bracketsText, argumentsText, Spacing.single, Identifier.asName]
  · simp only [HeaderText.declaration, superclassName, interfaceNames, TypeText.methodless,
      TypeText.declaration, Declaration.mk.injEq, and_true]
    exact ⟨rfl, sameKind⟩

/-- The header of an interface that fits is one of the grammar. -/
theorem TypeText.Fits.exists_interfaceHeader (fits : type.Fits)
    (isInterface : type.kind = .interface) :
    ∃ header : HeaderText, header.text = type.header ∧ header.declaration = type.methodless := by
  obtain ⟨interfaces, isInterfaces, interfaceNames⟩ :=
    exists_interfaces "extends".toList fits.interfaces
  refine ⟨.ofInterface ⟨[], .single, fits.name.asName, none⟩ interfaces, ?_, ?_⟩
  · rw [HeaderText.text, HeaderText.tail, Introduction.text, isInterfaces, TypeText.header,
      introduction_eq, type.clauses_of_interface isInterface, isInterface]
    simp [bracketsText, argumentsText, Spacing.single, Identifier.asName, introducedBy]
  · have superless := type.superless isInterface
    simp only [HeaderText.declaration, interfaceNames, TypeText.methodless, TypeText.declaration,
      superless, isInterface, Option.map_none]
    rfl

/-- The header of a written type is one that the language allows, and it declares the type without
its methods. -/
theorem TypeText.Fits.exists_header (fits : type.Fits) :
    ∃ header : HeaderText, header.text = type.header ∧ header.declaration = type.methodless := by
  by_cases isInterface : type.kind = .interface
  · exact fits.exists_interfaceHeader isInterface
  · exact fits.exists_classHeader isInterface

end Lineage.Java
