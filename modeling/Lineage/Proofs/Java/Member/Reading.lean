import Lineage.Proofs.Java.Grammar.Reading
import Lineage.Proofs.Java.Member
import Lineage.Proofs.Java.Method

/-! Methods that the language allows are read to the end of their headers. -/

namespace Lineage.Java

open Lineage.Text

/-- Where a word comes next, no sign does. -/
theorem notNext_word (space : Blanks) (word : Word) {sign : Char} (notBlank : isBlank sign = false)
    (notName : isNameChar sign = false) (rest : List Char) :
    Reader.NotNext sign (space.text ++ (word.text ++ rest)) := by
  obtain ⟨c, tail, isText⟩ := List.exists_cons_of_ne_nil word.isName.1
  have isName := word.isName.2 c (by simp [isText])
  rw [isText]
  exact notNext_sign space (isBlank_of_isNameChar isName) notBlank (ne_of_class isName notName) _

/-- Pairs of brackets belong to no path. -/
theorem head_dimensions (dimensions : List Dimension) {rest : List Char}
    (ended : rest.head?.any isPathChar = false) :
    (dimensions.flatMap Dimension.text ++ rest).head?.any isPathChar = false := by
  cases dimensions with
  | nil => exact ended
  | cons dimension dimensions =>
    rw [List.flatMap_cons, Dimension.text, List.append_assoc, List.append_assoc]
    exact dimension.before.head rfl

/-- A sign comes next neither where pairs of brackets do nor where it does not come next behind
them. -/
theorem notNext_dimensions (dimensions : List Dimension) {sign : Char}
    (notBlank : isBlank sign = false) (different : '[' ≠ sign) {rest : List Char}
    (absent : Reader.NotNext sign rest) :
    Reader.NotNext sign (dimensions.flatMap Dimension.text ++ rest) := by
  cases dimensions with
  | nil => exact absent
  | cons dimension dimensions =>
    rw [List.flatMap_cons, Dimension.text, List.append_assoc, List.append_assoc]
    exact notNext_sign dimension.before (by decide) notBlank different _

/-- A name can stand in a list of exceptions. -/
theorem QualifiedName.isListed_text (name : QualifiedName) :
    ∀ c ∈ name.text, Reader.isListed c = true := by
  have ofWord : ∀ word : Word, ∀ c ∈ word.text, Reader.isListed c = true := by
    intro word c inside
    simp [Reader.isListed, word.isName.2 c inside]
  refine List.forall_mem_append.mpr ⟨ofWord name.first, fun c inside => ?_⟩
  obtain ⟨word, _, inWord⟩ := List.mem_flatMap.mp inside
  exact List.forall_mem_cons.mpr ⟨by decide, ofWord word⟩ c inWord

theorem Blanks.isListed_text (space : Blanks) : ∀ c ∈ space.text, Reader.isListed c = true :=
  fun c inside => Reader.isListed_of_isBlank (space.blank c inside)

theorem FurtherException.isListed_text (further : FurtherException) :
    ∀ c ∈ further.text, Reader.isListed c = true :=
  List.forall_mem_append.mpr ⟨further.before.isListed_text, List.forall_mem_cons.mpr ⟨by decide,
    List.forall_mem_append.mpr ⟨further.behind.isListed_text, further.name.isListed_text⟩⟩⟩

/-- Exceptions and blanks are what may stand between the parameters of a method and its ending. -/
theorem Signature.isTail (signature : Signature) : Reader.Tail signature.tail := by
  unfold Signature.tail
  cases signature.exceptions with
  | none => exact .blanks signature.last.blank
  | some exceptions =>
    obtain ⟨c, blanks, isSpace⟩ := List.exists_cons_of_ne_nil exceptions.behind.nonempty
    have blank : ∀ d ∈ c :: blanks, isBlank d = true := isSpace ▸ exceptions.behind.blank
    -- The first blank stands alone, and all else belongs to the list.
    have grouped : exceptions.text ++ signature.last.text = exceptions.before.text ++
        ("throws".toList ++ c :: (blanks ++
          (exceptions.first.text ++ (exceptions.more.flatMap FurtherException.text ++
          signature.last.text)))) := by
      simp [Exceptions.text, isSpace]
    rw [Option.elim_some, grouped]
    refine .throws exceptions.before.blank (blank c List.mem_cons_self) ?_ ?_
    · simp [QualifiedName.text, exceptions.first.first.isName.1]
    · refine List.forall_mem_append.mpr ⟨fun d inside => ?_, List.forall_mem_append.mpr ⟨
        exceptions.first.isListed_text,
          List.forall_mem_append.mpr ⟨fun d inside => ?_, signature.last.isListed_text⟩⟩⟩
      · exact Reader.isListed_of_isBlank (blank d (List.mem_cons_of_mem c inside))
      · obtain ⟨further, _, inFurther⟩ := List.mem_flatMap.mp inside
        exact further.isListed_text d inFurther

/-- Behind the parameters of a method comes no opening bracket that does not belong to a pair. -/
theorem Signature.notNext_tail (signature : Signature) (rest : List Char) :
    Reader.NotNext '[' (signature.tail ++ [signature.ending.mark] ++ rest) := by
  obtain ⟨notBlank, different⟩ : isBlank signature.ending.mark = false ∧
      signature.ending.mark ≠ '[' := by
    cases signature.ending <;> exact ⟨rfl, by simp [Ending.mark]⟩
  rw [Signature.tail, List.append_assoc, List.append_assoc]
  cases signature.exceptions with
  | none => exact notNext_sign signature.last notBlank (by decide) different rest
  | some exceptions =>
    rw [Option.elim_some, Exceptions.text, List.append_assoc]
    exact notNext_sign exceptions.before (by decide) (by decide) (by decide) _

theorem Signature.notBlank_header (signature : Signature) (rest : List Char) :
    (signature.header ++ rest).head?.any isBlank = false := by
  rw [Signature.header, List.append_assoc]
  exact signature.name.notBlank _

theorem head_behindName (signature : Signature) (rest : List Char) :
    (signature.behindName ++ rest).head?.any isNameChar = false := by
  rw [Signature.behindName, List.append_assoc]
  exact isNameChar_of_isPathChar (signature.space.head rfl)

namespace Reader

open Lineage.Text.Reader

section Reading

variable {offset : Nat} {before : Option Char} {rest : List Char}

/-- A pair of square brackets is read as it is written. -/
theorem prefers_dimension (dimension : Dimension) :
    Prefers Reader.dimension offset before dimension.text rest () := by
  have readBefore : Prefers blanks offset before dimension.before.text
      ('[' :: (dimension.inside.text ++ [']']) ++ rest) () := .run dimension.before.blank (by rfl)
  have readOpen : ∀ {offset before}, Prefers (char (· == '[')) offset before ['[']
      (dimension.inside.text ++ [']'] ++ rest) () := .char rfl
  have readInside : ∀ {offset before},
    Prefers blanks offset before dimension.inside.text ([']'] ++ rest) () :=
    .run dimension.inside.blank (by rfl)
  exact readBefore.bind (readOpen.bind (readInside.bind (.char rfl)))

/-- Pairs of brackets are read as long as one comes next. -/
theorem prefers_dimensions (list : List Dimension) (absent : NotNext '[' rest) :
    Prefers dimensions offset before (list.flatMap Dimension.text) rest () := by
  have row : Prefers (many Reader.dimension) offset before (list.flatMap Dimension.text) rest
      (list.map fun _ => ()) := by
    induction list generalizing offset before with
    | nil => exact .many_none (blanks_char_eq_nil absent)
    | cons dimension list ih =>
      exact .many_cons (by simp [Dimension.text]) (prefers_dimension dimension) ih
  exact row.map fun _ => ()

/-- The type of a method is read to its end, which is where a name follows behind a blank. -/
theorem prefers_returnType (type : ReturnType) (space : Spacing) (word : Word) :
    Prefers Reader.returnType offset before type.text (space.text ++ (word.text ++ rest)) () := by
  -- The word that follows brings no bracket with which the type could go on.
  have noSign : ∀ {sign}, isBlank sign = false → isNameChar sign = false →
      NotNext sign (space.text ++ (word.text ++ rest)) :=
    fun notBlank notName => notNext_word space.toBlanks word notBlank notName rest
  have ends :
    EndsReference (type.dimensions.flatMap Dimension.text ++ (space.text ++ (word.text ++ rest))) :=
    ⟨head_dimensions type.dimensions (space.head _),
      notNext_dimensions type.dimensions (by decide) (by decide) (noSign (by decide) (by decide))⟩
  exact (prefers_reference type.name type.arguments ends).bind
    (prefers_dimensions type.dimensions (noSign (by decide) (by decide)))

/-- What is read of a signature, with `rest` behind its header. -/
def signatureRead (signature : Signature) (returnType : Excerpt) (rest : List Char) :
    MethodHeader where
  returnType := returnType
  name := ⟨signature.name.text ++ (signature.behindName ++ rest), signature.name.text.length⟩
  parameters :=
    ⟨signature.parameters ++ (')' :: signature.behindParameters ++ rest),
    signature.parameters.length⟩

/-- A signature is read to the first character of its ending. -/
theorem prefers_signature (signature : Signature) (returnType : Excerpt) :
    Prefers (signatureOn returnType) offset before signature.header rest
      (signatureRead signature returnType rest) := by
  -- Each part ends where a character stands that it cannot take.
  have nameEnds := head_behindName signature rest
  have readName : Prefers (stretch anyName) offset before signature.name.text
    (signature.behindName ++ rest) (signatureRead signature returnType rest).name :=
    .stretch (.run1 signature.name.isName.1 signature.name.isName.2 nameEnds)
  have readSpace : ∀ {offset before}, Prefers blanks offset before signature.space.text
      ('(' :: (signature.parameters ++ (')' :: signature.behindParameters)) ++ rest) () :=
    .run signature.space.blank (by rfl)
  have readParameters : ∀ {offset before},
      Prefers (stretch (run fun c => !(c == '(' || c == ')'))) offset before
        signature.parameters (')' :: signature.behindParameters ++ rest)
        (signatureRead signature returnType rest).parameters := by
    refine .stretch (.run (fun c inside => ?_) (by rfl))
    have allowed := signature.plain c inside
    simp only [List.mem_cons, not_or] at allowed
    simp [allowed.1, allowed.2.1]
  have readDimensions : ∀ {offset before}, Prefers dimensions offset before
      (signature.dimensions.flatMap Dimension.text)
      (signature.tail ++ [signature.ending.mark] ++ rest) () :=
    prefers_dimensions signature.dimensions (signature.notNext_tail rest)
  have readEnd : ∀ {offset before},
      Prefers methodEnd offset before (signature.tail ++ [signature.ending.mark]) rest () := by
    intro offset before
    rw [Prefers, List.append_assoc]
    exact head?_methodEnd signature.isTail (by cases signature.ending <;> rfl) offset before rest
  have grouped : signature.header = signature.name.text ++
      (signature.space.text ++ (['('] ++
      (signature.parameters ++ ([')'] ++
      (signature.dimensions.flatMap Dimension.text ++
      (signature.tail ++ [signature.ending.mark])))))) := rfl
  rw [grouped]
  exact readName.bind (readSpace.bind (.bind (.char rfl) (readParameters.bind (.bind (.char rfl)
    (readDimensions.bind (readEnd.map fun _ => signatureRead signature returnType rest))))))

/-- What is read of a type and what has this type, with `rest` behind its header. -/
def typedRead (typed : Typed) (rest : List Char) : MethodHeader :=
  signatureRead typed.signature
    ⟨typed.type.text ++ (typed.space.text ++ typed.signature.header ++ rest),
      typed.type.text.length⟩ rest

/-- A method is read from its type on to the first character of its ending. -/
theorem prefers_typed (typed : Typed) :
    Prefers typedOn offset before typed.text rest (typedRead typed rest) := by
  have readType : Prefers Reader.returnType offset before typed.type.text
      (typed.space.text ++ typed.signature.header ++ rest) () := by
    rw [Signature.header, List.append_assoc, List.append_assoc]
    exact prefers_returnType typed.type typed.space typed.signature.name
  have readSpace : ∀ {offset before},
      Prefers blanks1 offset before typed.space.text (typed.signature.header ++ rest) () := by
    exact .run1 typed.space.nonempty typed.space.blank (typed.signature.notBlank_header rest)
  exact readType.stretch.bind (readSpace.bind (prefers_signature typed.signature _))

/-- A type begins with its first word, which ends there. -/
theorem exists_behindFirst (typed : Typed) (rest : List Char) :
    ∃ more, typed.text ++ rest = typed.type.name.first.text ++ more ∧
      more.head?.any isNameChar = false := by
  refine ⟨typed.type.name.more.flatMap Word.dotted ++ (argumentsText typed.type.arguments ++
    (typed.type.dimensions.flatMap Dimension.text ++
      (typed.space.text ++ (typed.signature.header ++ rest)))),
    ?_, head_dottedWords _ (head_argumentsText _ (head_dimensions _ (typed.space.head _)))⟩
  simp only [Typed.text, ReturnType.text, QualifiedName.text, List.append_assoc]

/-- Type parameters are not read where a word comes next. -/
theorem typeParameters_eq_nil (word : Word) :
    (do arguments; blanks : Text.Reader Unit) ⟨offset, before, word.text ++ rest⟩ = [] := by
  obtain ⟨c, tail, isText⟩ := List.exists_cons_of_ne_nil word.isName.1
  refine (((Begins.char (p := (· == '<')) fun _ same => same).bind _).bind _).eq_nil ?_
  rw [isText]
  exact beq_false_of_ne (ne_of_class (word.isName.2 c (by simp [isText])) (by decide))

/-- A method is read from its type parameters on to the first character of its ending. -/
theorem prefers_unmodified (parameters : Option (Angles × Blanks)) (typed : Typed) :
    Prefers unmodifiedOn offset before (parametersText parameters ++ typed.text) rest
      (typedRead typed rest) := by
  -- Type parameters that are absent cannot be read, since a word stands in their place.
  obtain ⟨more, split, _⟩ := exists_behindFirst typed rest
  have readParameters : Prefers (optional do arguments; blanks) offset before
      (parametersText parameters) (typed.text ++ rest) (parameters.map fun _ => ()) := by
    rw [split]
    cases parameters with
    | none => exact .optional_none (typeParameters_eq_nil _)
    | some given =>
      have readBlanks : ∀ {offset before}, Prefers blanks offset before given.2.text
          (typed.type.name.first.text ++ more) () := .run given.2.blank (Word.notBlank _ _)
      exact .optional_some (.bind (prefers_arguments given.1) readBlanks)
  exact readParameters.bind (prefers_typed typed)

/-- A word that is no modifier is not read as one, even if it begins like one. -/
theorem methodModifier_eq_nil (word : Word) (noKeyword : word.text ∉ notATypeWords)
    (ended : rest.head?.any isNameChar = false) :
    modifier methodModifiers ⟨offset, before, word.text ++ rest⟩ = [] := by
  have noType : ∀ modifier ∈ methodModifiers, modifier ∈ notATypeWords := by decide
  refine List.eq_nil_iff_forall_not_mem.mpr fun result read => ?_
  obtain ⟨modifier, listed, blanks, more, split, nonempty, allBlank, _⟩ := mem_modifier.mp read
  rw [List.append_assoc] at split
  -- Blanks must follow a modifier, so it would be the whole word.
  have same := eq_modifier listed nonempty allBlank word.isName.2 ended split
  exact noKeyword (same ▸ noType modifier listed)

/-- Where type parameters stand, no modifier does. -/
theorem methodModifier_angles_eq_nil (angles : Angles) :
    modifier methodModifiers ⟨offset, before, angles.text ++ rest⟩ = [] :=
  ((Begins.wordOf areModifiers_methodModifiers.begun).bind _).eq_nil (by rfl)

/-- The modifiers of a method are read, and no word behind them is taken for one. -/
theorem prefers_methodModifiers (member : Member) :
    Prefers (modifiers methodModifiers) offset before (member.modifiers.flatMap MethodModifier.text)
      (parametersText member.typeParameters ++ member.typed.text ++ rest)
      (member.modifiers.map (·.word)) := by
  -- Behind the modifiers stands an angle bracket or the first word of the type.
  have unmodified : ∀ {text},
      text = parametersText member.typeParameters ++ member.typed.text ++ rest →
        text.head?.any isBlank = false ∧ ∀ {offset before},
          modifier methodModifiers ⟨offset, before, text⟩ = [] := by
    rintro _ rfl
    cases member.typeParameters with
    | none =>
      obtain ⟨more, split, ended⟩ := exists_behindFirst member.typed rest
      rw [parametersText, Option.elim_none, List.nil_append, split]
      exact ⟨Word.notBlank _ more, methodModifier_eq_nil _ member.noKeyword ended⟩
    | some given =>
      rw [parametersText, Option.elim_some, List.append_assoc, List.append_assoc]
      exact ⟨by rfl, methodModifier_angles_eq_nil given.1⟩
  obtain ⟨notBlank, absent⟩ := unmodified rfl
  exact areModifiers_methodModifiers.prefers_row (fun modifier => modifier.listed) member.modifiers
    notBlank absent

theorem prefers_methodStart (started : MayPrecedeMethod before) :
    Prefers (notAfter fun c => isNameChar c || c == '.') offset before [] rest () :=
  .ensure (by simpa [MayPrecedeMethod] using started)

/-- The header of a method is read to its end. -/
theorem prefers_member (member : Member) (started : MayPrecedeMethod before) :
    Prefers methodHeader offset before member.header rest (typedRead member.typed rest) := by
  rw [methodHeader_eq_unmodifiedOn]
  exact (prefers_methodStart started).bind
    ((prefers_methodModifiers member).bind (prefers_unmodified member.typeParameters member.typed))

end Reading

/-- What is read of a method comes down to its type, its name and its parameters. -/
theorem text_typedRead (typed : Typed) (rest : List Char) :
    (typedRead typed rest).returnType.text = typed.type.text ∧
      (typedRead typed rest).name.text = typed.signature.name.text ∧
      (typedRead typed rest).parameters.text = typed.signature.parameters :=
  ⟨List.take_left, List.take_left, List.take_left⟩

end Reader

/-- A type whose first word is none of a statement is no word of a statement. -/
theorem ReturnType.notMem {type : ReturnType} (noKeyword : type.name.first.text ∉ notATypeWords) :
    type.text ∉ notATypeWords := by
  intro listed
  have named : ∀ word ∈ notATypeWords, ∀ c ∈ word, isNameChar c = true := by decide
  have nothing : ([] : List Char).head?.any isPathChar = false := rfl
  have ended := Reader.head_dottedWords type.name.more
    (Reader.head_argumentsText type.arguments (head_dimensions type.dimensions nothing))
  -- Such a word has no characters but those of names, so it would be the first word of the type.
  have isFirst : type.name.first.text = type.text := by
    refine Reader.eq_of_append_eq type.name.first.isName.2 (named _ listed) ended
      (isNameChar_of_isPathChar nothing) ?_
    simp only [ReturnType.text, QualifiedName.text, List.append_assoc, List.append_nil]
  exact noKeyword (isFirst ▸ listed)

/-- A method is kept when its header is found. -/
theorem keptHeader_typed {typed : Typed} (noKeyword : typed.type.text ∉ notATypeWords)
    (rest : List Char) :
    keptHeader (Reader.typedRead typed rest) = some
      (typed.signature.name.text, typed.signature.parameters) := by
  obtain ⟨returnType, name, parameters⟩ := Reader.text_typedRead typed rest
  simp [keptHeader, returnType, name, parameters, isNoType, noKeyword, typed.signature.noKeyword]

end Lineage.Java
