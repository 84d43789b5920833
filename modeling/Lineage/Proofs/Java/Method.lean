import Lineage.Java.Method
import Lineage.Proofs.Java.Opening
import Lineage.Proofs.Text.Preferred

/-! How the header of a method is read: the parts it falls into, where it may begin and where it
ends. -/

namespace Lineage.Java

open Lineage.Text

namespace Reader

open Lineage.Text.Reader

/-- A name is the longest stretch of characters of names where it stands. -/
theorem takeWhile_name {name rest : List Char} (named : ∀ c ∈ name, isNameChar c = true)
    (ended : rest.head?.any isNameChar = false) : (name ++ rest).takeWhile isNameChar = name := by
  rw [List.takeWhile_append_of_pos named]
  cases rest with
  | nil => simp
  | cons c rest =>
    have outside : ¬ isNameChar c = true := by simpa using ended
    rw [List.takeWhile_cons_of_neg outside, List.append_nil]

/-- A name is all that stands before what does not belong to a name. -/
theorem eq_of_append_eq {one other restOne restOther : List Char}
    (namedOne : ∀ c ∈ one, isNameChar c = true) (namedOther : ∀ c ∈ other, isNameChar c = true)
    (endedOne : restOne.head?.any isNameChar = false)
    (endedOther : restOther.head?.any isNameChar = false)
    (same : one ++ restOne = other ++ restOther) :
    one = other := by
  rw [← takeWhile_name namedOne endedOne, same, takeWhile_name namedOther endedOther]

/-- The modifiers of methods are words of which none begins another. -/
theorem areModifiers_methodModifiers : AreModifiers methodModifiers where
  solid := by decide
  begun := by decide
  apart := by decide

/-- A modifier ends where its blanks begin, and so is the whole word that stands there. -/
theorem eq_modifier {word modifier rest blanks more : List Char}
    (listed : modifier ∈ methodModifiers) (nonempty : blanks ≠ [])
    (allBlank : ∀ c ∈ blanks, isBlank c = true) (named : ∀ c ∈ word, isNameChar c = true)
    (ended : rest.head?.any isNameChar = false)
    (same : word ++ rest = modifier ++ (blanks ++ more)) :
    word = modifier := by
  -- Both words end where a character follows that belongs to no name.
  have modifierNamed : ∀ modifier ∈ methodModifiers, ∀ c ∈ modifier, isNameChar c = true := by
    decide
  have separated : (blanks ++ more).head?.any isNameChar = false := by
    obtain ⟨b, blanks, rfl⟩ := List.exists_cons_of_ne_nil nonempty
    exact isNameChar_of_isBlank (allBlank b List.mem_cons_self)
  exact eq_of_append_eq named (modifierNamed modifier listed) ended separated same

theorem dimensions_takes : Takes dimensions Unbroken :=
  .bind (.many (.bind blanks_takes fun _ =>
    .bind (.char fun _ => unbroken_of_beq (by decide)) fun _ =>
    .bind blanks_takes fun _ => .char fun _ => unbroken_of_beq (by decide))) fun _ => .pure ()

/-- Neither a brace nor a semicolon stands before the parameters of a method. -/
theorem reaches_methodHeader : Reaches methodHeader Unbroken '(' := by
  -- All that is read before the bracket is unbroken.
  have modifier : Takes (modifier methodModifiers) Unbroken :=
    .bind (.wordOf (by decide)) fun _ => .bind blanks1_takes fun _ => .pure _
  have parameters : Takes (do arguments; blanks : Text.Reader Unit) Unbroken :=
    .bind arguments_takes fun _ => blanks_takes
  have type : Takes (stretch do reference; dimensions) Unbroken :=
    .stretch (.bind reference_takes fun _ => dimensions_takes)
  have name : Takes (stretch anyName) Unbroken := .stretch (.run1 fun _ => unbroken_of_isNameChar)
  exact .behind (.ensure _) fun _ => .behind (.many modifier) fun _ =>
    .behind (.optional parameters) fun _ =>
    .behind type fun _ => .behind blanks1_takes fun _ => .behind name fun _ =>
      .behind blanks_takes fun _ => .char _

/-- A pair of square brackets. -/
def dimension : Text.Reader Unit := do
  blanks
  char (· == '[')
  blanks
  char (· == ']')

/-- The return type of a method. -/
def returnType : Text.Reader Unit := do
  reference
  dimensions

/-- The header of a method up to its parameters and the brackets behind them. -/
def methodStart : Text.Reader MethodHeader := do
  notAfter fun c => isNameChar c || c == '.'
  let _ ← modifiers methodModifiers
  let _ ← optional do
    arguments
    blanks
  let returnType ← stretch do
    reference
    dimensions
  blanks1
  let name ← stretch anyName
  blanks
  char (· == '(')
  let parameters ← stretch (run fun c => !(c == '(' || c == ')'))
  char (· == ')')
  dimensions
  return { returnType, name, parameters }

/-- The rest of the header of a method, up to and with the brace or the semicolon. -/
def methodEnd : Text.Reader Unit := do
  blanks
  let _ ← optional throwsClause
  blanks
  char fun c => c == '{' || c == ';'

/-- A method header has a start and an end. -/
theorem methodHeader_eq : methodHeader = (do
    let header ← methodStart
    methodEnd
    return header) := by
  simp only [methodHeader, methodStart, methodEnd, bind_assoc, pure_bind]

/-- A method from its name on, once its type was read. -/
def signatureOn (returnType : Excerpt) : Text.Reader MethodHeader := do
  let name ← stretch anyName
  blanks
  char (· == '(')
  let parameters ← stretch (run fun c => !(c == '(' || c == ')'))
  char (· == ')')
  dimensions
  methodEnd
  return { returnType, name, parameters }

/-- A method from its type on. -/
def typedOn : Text.Reader MethodHeader := do
  let returnType ← stretch returnType
  blanks1
  signatureOn returnType

/-- A method from its type parameters on. -/
def unmodifiedOn : Text.Reader MethodHeader := do
  let _ ← optional do
    arguments
    blanks
  typedOn

/-- A method header is modifiers and what may follow them. -/
theorem methodHeader_eq_unmodifiedOn : methodHeader = (do
    notAfter fun c => isNameChar c || c == '.'
    let _ ← modifiers methodModifiers
    unmodifiedOn) := by
  simp only [methodHeader, unmodifiedOn, typedOn, signatureOn, methodEnd, returnType, bind_assoc]

/-- A type begins with a character of a name. -/
theorem begins_typedOn : Begins typedOn isNameChar :=
  (Begins.stretch ((((Begins.run1 fun _ isName => isName).bind _).bind _).bind _)).bind _

/-- The characters with which a method begins. -/
def beginsMethod (c : Char) : Bool :=
  isNameChar c || c == '<'

theorem beginsMethod_of_isBlank {c : Char} (blank : isBlank c = true) : beginsMethod c = false := by
  have notAngle : c ≠ '<' := ne_of_class blank (by decide)
  simp [beginsMethod, isNameChar_of_isBlank blank, notAngle]

/-- What begins with a character of a name begins as a method may. -/
theorem beginsMethod_of_begins {α : Type} {reader : Text.Reader α}
    (begins : Begins reader isNameChar) :
    Begins reader beginsMethod := by
  -- A character of a name is one of those that a method may begin with.
  intro place result read
  have first := begins place result read
  cases isFirst : place.rest.head? with
  | none => simp [isFirst] at first
  | some c =>
    rw [isFirst, Option.any_some] at first
    simp [beginsMethod, first]

/-- Modifiers and type parameters may be missing, and the type comes behind them. -/
theorem begins_modified :
    Begins (do let _ ← modifiers methodModifiers; unmodifiedOn : Text.Reader MethodHeader)
      beginsMethod := by
  have modifier : Begins (modifier methodModifiers) isNameChar :=
    (Begins.wordOf areModifiers_methodModifiers.begun).bind _
  have angle : Begins (do arguments; blanks : Text.Reader Unit) beginsMethod :=
    ((Begins.char fun c same => by simp [beginsMethod, same]).bind _).bind _
  exact .behind (.many (beginsMethod_of_begins modifier)) fun _ =>
    .behind (.optional angle) fun _ => beginsMethod_of_begins begins_typedOn

/-- A method begins with a name or with the angle bracket of its type parameters. -/
theorem begins_methodHeader : Begins methodHeader beginsMethod := by
  rw [methodHeader_eq_unmodifiedOn]
  exact .behind (.ensure _) fun _ => begins_modified

/-- The start of a header from the parameters on. -/
def parametersOn (returnType name : Excerpt) : Text.Reader MethodHeader := do
  blanks
  char (· == '(')
  let parameters ← stretch (run fun c => !(c == '(' || c == ')'))
  char (· == ')')
  dimensions
  return { returnType, name, parameters }

/-- The start of a header from the return type on. -/
def returnTypeOn : Text.Reader MethodHeader := do
  let returnType ← stretch returnType
  blanks1
  let name ← stretch anyName
  parametersOn returnType name

/-- The start of a method header is modifiers, type parameters and what follows them. -/
theorem methodStart_eq : methodStart = (do
    notAfter fun c => isNameChar c || c == '.'
    let _ ← modifiers methodModifiers
    let _ ← optional do
      arguments
      blanks
    returnTypeOn) :=
  rfl

/-- The characters of a list of exceptions. -/
def isListed (c : Char) : Bool :=
  isNameChar c || c == '.' || c == ',' || isBlank c

/-- The characters that end the header of a method. -/
def endsMethod (c : Char) : Bool :=
  c == '{' || c == ';'

/-- What stands between the parameters of a method and the end of its header: blanks, or a list of
exceptions, which holds something besides the one blank behind its first word. -/
inductive Tail : List Char → Prop where
  | blanks {run : List Char} : (∀ c ∈ run, isBlank c = true) → Tail run
  | throws {run more : List Char} {c : Char} : (∀ d ∈ run, isBlank d = true) → isBlank c = true →
    more ≠ [] → (∀ d ∈ more, isListed d = true) → Tail (run ++ ("throws".toList ++ c :: more))

theorem isListed_of_isBlank {c : Char} (blank : isBlank c = true) : isListed c = true := by
  simp [isListed, blank]

/-- No header ends inside of a list of exceptions. -/
theorem endsMethod_of_isListed {c : Char} (listed : isListed c = true) : endsMethod c = false := by
  have notBrace : c ≠ '{' := ne_of_class listed (by decide)
  have notSemicolon : c ≠ ';' := ne_of_class listed (by decide)
  simp [endsMethod, notBrace, notSemicolon]

/-- A header does not end with a blank. -/
theorem isBlank_of_endsMethod {c : Char} (ends : endsMethod c = true) : isBlank c = false := by
  by_contra blank
  rw [endsMethod_of_isListed (isListed_of_isBlank (by simpa using blank))] at ends
  cases ends

/-- What stands behind the parameters could all stand in a list of exceptions. -/
theorem Tail.listed {tail : List Char} (isTail : Tail tail) : ∀ c ∈ tail, isListed c = true := by
  -- It is blanks, or the word with blanks around it and the list.
  cases isTail with
  | blanks allBlank => exact fun c inside => isListed_of_isBlank (allBlank c inside)
  | throws allBlank blank _ listed =>
    have word : ∀ c ∈ "throws".toList, isListed c = true := by decide
    simp only [List.mem_append, List.mem_cons]
    rintro d (inRun | inWord | rfl | inMore)
    · exact isListed_of_isBlank (allBlank d inRun)
    · exact word d inWord
    · exact isListed_of_isBlank blank
    · exact listed d inMore

/-- The shortest runs of at least one character are all runs of at least one. -/
theorem mem_shortRun1 {p : Char → Bool} {offset : Nat} {before : Option Char} {text : List Char}
    {result : Unit × Cursor} :
    result ∈ shortRun1 p ⟨offset, before, text⟩ ↔
      ∃ taken rest, text = taken ++ rest ∧ taken ≠ [] ∧ (∀ c ∈ taken, p c = true) ∧
        result = ((), .beyond offset before taken rest) := by
  -- A short run has the same readings as a long one, in another order.
  have same : ∀ place (result : Unit × Cursor), result ∈ shortRun p place ↔
      result ∈ run p place := by
    intro place result
    simp [shortRun, run]
  rw [← mem_run1]
  simp only [shortRun1, run1, mem_bind, same]

/-- A clause of exceptions is its word, blanks and a list. -/
theorem mem_throwsClause {offset : Nat} {before : Option Char} {text : List Char}
    {result : Unit × Cursor} :
    result ∈ throwsClause ⟨offset, before, text⟩ ↔
      ∃ blanks list rest, text = "throws".toList ++ (blanks ++ (list ++ rest)) ∧ blanks ≠ [] ∧
        (∀ c ∈ blanks, isBlank c = true) ∧ list ≠ [] ∧ (∀ c ∈ list, isListed c = true) ∧
        result = ((), .beyond offset before ("throws".toList ++ (blanks ++ list)) rest) := by
  -- Part by part, in both directions.
  simp only [throwsClause, mem_bind, mem_literal, blanks1]
  constructor
  · rintro ⟨_, _, ⟨rest, rfl, same⟩, _, _, readBlanks, readList⟩
    cases same
    obtain ⟨run, rest, rfl, someBlanks, allBlank, same⟩ := mem_run1.mp readBlanks
    cases same
    obtain ⟨list, rest, rfl, nonempty, listed, rfl⟩ := mem_shortRun1.mp readList
    exact ⟨run, list, rest, rfl, someBlanks, allBlank, nonempty,
      listed, by simp only [Cursor.beyond_append]⟩
  · rintro ⟨run, list, rest, rfl, someBlanks, allBlank, nonempty, listed, rfl⟩
    refine ⟨(), _, ⟨_, rfl, rfl⟩, (), _, mem_run1.mpr ⟨run, _, rfl, someBlanks, allBlank, rfl⟩, ?_⟩
    exact mem_shortRun1.mpr ⟨list, rest, rfl, nonempty, listed, by simp only [Cursor.beyond_append]⟩

/-- The end of a header is read exactly where such a tail and one of the two marks stand. -/
theorem mem_methodEnd {offset : Nat} {before : Option Char} {text : List Char}
    {result : Unit × Cursor} :
    result ∈ methodEnd ⟨offset, before, text⟩ ↔
      ∃ tail mark rest, text = tail ++ mark :: rest ∧ Tail tail ∧ endsMethod mark = true ∧
        result = ((), .beyond offset before (tail ++ [mark]) rest) := by
  simp only [methodEnd, mem_bind, blanks]
  constructor
  · rintro ⟨_, _, readFront, _, _, readList, _, _, readBack, readMark⟩
    obtain ⟨front, rest, rfl, frontBlank, same⟩ := mem_run.mp readFront
    cases same
    rcases mem_optional.mp readList with ⟨_, _, readThrows, same⟩ | same
    · obtain ⟨run, list, rest, rfl, someBlanks, allBlank, nonempty, listed, isAfter⟩ :=
        mem_throwsClause.mp readThrows
      cases same
      cases isAfter
      obtain ⟨back, rest, rfl, backBlank, same⟩ := mem_run.mp readBack
      cases same
      obtain ⟨mark, rest, rfl, isMark, rfl⟩ := mem_char.mp readMark
      -- The first blank stands alone, and the others belong to the list.
      obtain ⟨c, run, rfl⟩ := List.exists_cons_of_ne_nil someBlanks
      refine ⟨front ++ ("throws".toList ++ c :: (run ++ (list ++ back))), mark, rest, by simp,
        .throws frontBlank (allBlank c List.mem_cons_self) (by simp [nonempty]) ?_, isMark, ?_⟩
      · simp only [List.mem_append]
        rintro d (inRun | inList | inBack)
        · exact isListed_of_isBlank (allBlank d (List.mem_cons_of_mem c inRun))
        · exact listed d inList
        · exact isListed_of_isBlank (backBlank d inBack)
      · simp only [Cursor.beyond_append]
        simp
    · cases same
      obtain ⟨back, rest, rfl, backBlank, same⟩ := mem_run.mp readBack
      cases same
      obtain ⟨mark, rest, rfl, isMark, rfl⟩ := mem_char.mp readMark
      refine ⟨front ++ back, mark, rest, by simp, .blanks ?_, isMark, ?_⟩
      · exact List.forall_mem_append.mpr ⟨frontBlank, backBlank⟩
      · simp only [Cursor.beyond_append]
        simp
  · rintro ⟨tail, mark, rest, rfl, isTail, isMark, rfl⟩
    cases isTail with
    | blanks allBlank =>
      refine ⟨(), _, mem_run.mpr ⟨tail, _, rfl, allBlank, rfl⟩, none, _,
        mem_optional.mpr (Or.inr rfl), (), _, mem_run.mpr ⟨[], _, rfl, by simp, rfl⟩,
        mem_char.mpr ⟨mark, rest, rfl, isMark, ?_⟩⟩
      simp only [Cursor.beyond_append]
      simp
    | @throws run more c allBlank blank nonempty listed =>
      refine ⟨(), _, mem_run.mpr ⟨run, _, List.append_assoc .., allBlank, rfl⟩, some (), _,
        mem_optional.mpr (Or.inl ⟨(), _, mem_throwsClause.mpr
          ⟨[c], more, mark :: rest, by simp, by simp, by simpa using blank, nonempty, listed, rfl⟩,
          rfl⟩), (), _, mem_run.mpr ⟨[], _, rfl, by simp, rfl⟩,
          mem_char.mpr ⟨mark, rest, rfl, isMark, ?_⟩⟩
      simp only [Cursor.beyond_append]
      simp

/-- The characters behind the parameters that could be listed end at the mark. -/
theorem takeWhile_tail {tail rest : List Char} {mark : Char} (isTail : Tail tail)
    (isMark : endsMethod mark = true) :
    (tail ++ mark :: rest).takeWhile isListed = tail := by
  have notListed : ¬ isListed mark = true := fun listed => by
    rw [endsMethod_of_isListed listed] at isMark
    cases isMark
  rw [List.takeWhile_append_of_pos isTail.listed, List.takeWhile_cons_of_neg notListed,
    List.append_nil]

/-- All ways to read the end of a header end at the same place. -/
theorem eq_of_mem_methodEnd {place : Cursor} {one other : Unit × Cursor}
    (readOne : one ∈ methodEnd place) (readOther : other ∈ methodEnd place) : one = other := by
  -- The mark is where the characters end that could be listed, so both readings end behind it.
  obtain ⟨offset, before, text⟩ := place
  obtain ⟨tail, mark, rest, rfl, isTail, isMark, rfl⟩ := mem_methodEnd.mp readOne
  obtain ⟨tail', mark', rest', split, isTail', isMark', rfl⟩ := mem_methodEnd.mp readOther
  have sameTail : tail = tail' := by
    rw [← takeWhile_tail isTail isMark, split, takeWhile_tail isTail' isMark']
  subst sameTail
  cases List.append_cancel_left split
  rfl

/-- The end of a method header is read up to its mark. -/
theorem head?_methodEnd {tail : List Char} {mark : Char} (isTail : Tail tail)
    (isMark : endsMethod mark = true) (offset : Nat) (before : Option Char) (rest : List Char) :
    (methodEnd ⟨offset, before, tail ++ mark :: rest⟩).head? =
      some ((), .beyond offset before (tail ++ [mark]) rest) := by
  -- There is a way to read the end, so the preferred one is this way.
  have member : ((), Cursor.beyond offset before (tail ++ [mark]) rest) ∈
      methodEnd ⟨offset, before, tail ++ mark :: rest⟩ :=
    mem_methodEnd.mpr ⟨tail, mark, rest, rfl, isTail, isMark, rfl⟩
  obtain ⟨first, more, split⟩ := List.exists_cons_of_ne_nil (List.ne_nil_of_mem member)
  rw [split, List.head?_cons, eq_of_mem_methodEnd member (by rw [split]; exact List.mem_cons_self)]

end Reader

/-- The header of a method may follow what could not continue its first word. -/
def MayPrecedeMethod (before : Option Char) : Prop :=
  before.any (fun c => isNameChar c || c == '.') = false

/-- A method may stand behind blanks where it may stand without them. -/
theorem MayPrecedeMethod.append_blanks {before : Option Char} (started : MayPrecedeMethod before)
    {blanks : List Char} (allBlank : ∀ c ∈ blanks, isBlank c = true) :
    MayPrecedeMethod (blanks.getLast?.or before) := by
  -- The last blank stands before it, or what was there before.
  cases last : blanks.getLast? with
  | none => exact started
  | some c =>
    have blank := allBlank c (List.mem_of_getLast? last)
    have noDot : c ≠ '.' := ne_of_class blank (by decide)
    simp [MayPrecedeMethod, isNameChar_of_isBlank blank, noDot]

/-- A search for methods passes over blanks. -/
theorem allFrom_methodHeader_blanks {blanks : List Char} (allBlank : ∀ c ∈ blanks, isBlank c = true)
    (offset : Nat) (before : Option Char) (rest : List Char) :
    Reader.methodHeader.allFrom offset before 0 (blanks ++ rest) =
      Reader.methodHeader.allFrom (offset + blanks.length) (blanks.getLast?.or before) 0 rest :=
  Reader.begins_methodHeader.allFrom_append
    (fun c inside => Reader.beginsMethod_of_isBlank (allBlank c inside)) offset before rest

/-- What is kept of a header that was found. -/
def keptHeader (header : MethodHeader) : Option (List Char × List Char) :=
  if isNoType header.returnType.text || isNoType header.name.text then none
  else some (header.name.text, header.parameters.text)

end Lineage.Java
