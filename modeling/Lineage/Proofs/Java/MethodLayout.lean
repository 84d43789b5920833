import Lineage.Proofs.Java.Body
import Lineage.Proofs.Java.Layout
import Lineage.Proofs.Java.Method

/-! Methods and their layout: how long the blanks in a text are makes no difference to the methods
found in it. -/

namespace Lineage.Java

open Lineage.Text

namespace Reader

open Lineage.Text.Reader

theorem solid_methodStart : Solid fun c => isNameChar c || c == '.' := by
  intro c blank
  have notDot : c ≠ '.' := ne_of_class blank (by decide)
  simp [isNameChar_of_isBlank blank, notDot]

theorem solid_open : Solid (· == '[') :=
  solid_beq (by decide)

theorem solid_close : Solid (· == ']') :=
  solid_beq (by decide)

theorem cleared_open :
    Cleared blanks fun _ => (do char (· == '['); blanks; char (· == ']') : Text.Reader Unit) :=
  cleared_of_begins solid_open _ fun _ => (Begins.char fun _ same => same).bind _

theorem cleared_close : Cleared blanks fun _ => char (· == ']') :=
  cleared_of_begins solid_close _ fun _ => .char fun _ same => same

theorem endsWhole_dimension : EndsWhole dimension :=
  .bind cleared_open fun _ => .bind ((EndsWhole.char solid_open).cleared _) fun _ =>
    .bind cleared_close fun _ => .char solid_close

theorem endsWhole_dimensions : EndsWhole dimensions :=
  .bind (endsWhole_dimension.many.cleared _) fun _ => .pure ()

variable {R : List Char → List Char → Prop}

/-- Pairs of square brackets are read alike in both layouts. -/
theorem parallel_dimensions (relayout : Relayout R) :
    Parallel R (fun _ _ _ _ => True) dimensions dimensions := by
  have one : Parallel R (fun _ taken _ taken' => taken ≠ [] ∧ taken' ≠ []) dimension dimension := by
    refine (parallel_blanks relayout).bind cleared_open cleared_open fun _ _ _ _ _ => ?_
    refine (Parallel.char relayout solid_open).bind ((EndsWhole.char solid_open).cleared _)
      ((EndsWhole.char solid_open).cleared _) ?_
    rintro _ _ _ _ ⟨_, _, rfl, rfl⟩
    refine (parallel_blanks relayout).bind cleared_close cleared_close fun _ _ _ _ _ => ?_
    exact (Parallel.char relayout solid_close).mono fun _ _ _ _ _ => ⟨by simp, by simp⟩
  have cleared : Cleared dimension fun _ => dimension := endsWhole_dimension.cleared _
  refine (one.many cleared cleared fun _ _ _ _ both => both).bind
    (endsWhole_dimension.many.cleared _) (endsWhole_dimension.many.cleared _) fun _ _ _ _ _ => ?_
  exact .pure trivial

theorem begins_returnType : Begins returnType isNameChar :=
  begins_reference.bind _

theorem endsWhole_returnType : EndsWhole returnType :=
  .bind (endsWhole_reference.cleared _) fun _ => endsWhole_dimensions

/-- A type is read alike in both layouts. -/
theorem parallel_returnType (relayout : Relayout R) :
    Parallel R (fun _ _ _ _ => True) returnType returnType :=
  (parallel_reference relayout).bind (endsWhole_reference.cleared _) (endsWhole_reference.cleared _)
    fun _ _ _ _ _ =>
    parallel_dimensions relayout

/-- The type parameters of a method, with blanks behind them. -/
theorem parallel_typeParameters (relayout : Relayout R) :
    Parallel R (fun _ _ _ _ => True) (do arguments; blanks : Text.Reader Unit)
      (do arguments; blanks) :=
  (parallel_arguments relayout).bind (endsWhole_arguments.cleared _) (endsWhole_arguments.cleared _)
    fun _ _ _ _ _ =>
    (parallel_blanks relayout).mono fun _ _ _ _ _ => trivial

end Reader

/-- The headers of methods have the same names, and types and parameters that differ in their blanks
only. -/
structure MethodHeader.Alike (header header' : MethodHeader) : Prop where
  returnType : squeezed header.returnType.text = squeezed header'.returnType.text
  name : header.name.text = header'.name.text
  parameters : squeezed header.parameters.text = squeezed header'.parameters.text

namespace Reader

open Lineage.Text.Reader

theorem solid_leftParenthesis : Solid (· == '(') :=
  solid_beq (by decide)

theorem solid_rightParenthesis : Solid (· == ')') :=
  solid_beq (by decide)

/-- The parameters end with their parenthesis or with square brackets. -/
theorem endsWhole_parametersOn (returnType name : Excerpt) :
    EndsWhole (parametersOn returnType name) :=
  -- All blanks in them stand before a parenthesis or a bracket.
  .bind (cleared_of_begins solid_leftParenthesis _ fun _ =>
      (Begins.char fun _ same => same).bind _) fun _ =>
    .bind ((EndsWhole.char solid_leftParenthesis).cleared _) fun _ =>
      .bind (cleared_of_begins solid_rightParenthesis _ fun _ =>
        (Begins.char fun _ same => same).bind _) fun _ =>
        .bind ((EndsWhole.char solid_rightParenthesis).cleared _) fun _ =>
          .bind (endsWhole_dimensions.cleared _) fun _ => .pure _

theorem endsWhole_returnTypeOn : EndsWhole returnTypeOn :=
  .bind (endsWhole_returnType.stretch.cleared _) fun _ =>
    .bind (cleared_of_begins solid_isNameChar _ fun _ => begins_anyName.stretch.bind _) fun _ =>
      .bind (endsWhole_name.stretch.cleared _) fun _ => endsWhole_parametersOn _ _

theorem begins_returnTypeOn : Begins returnTypeOn isNameChar :=
  begins_returnType.stretch.bind _

theorem solid_beginsMethod : Solid beginsMethod :=
  fun _ => beginsMethod_of_isBlank

/-- Behind the modifiers comes an angle bracket or the return type. -/
theorem begins_typeParametersOn :
    Begins (do let _ ← optional (do arguments; blanks : Text.Reader Unit); returnTypeOn :
      Text.Reader MethodHeader)
      beginsMethod := by
  -- The type parameters may be missing, and then the type comes first.
  have name : Begins (run1 isNameChar) beginsMethod := .run1 fun c isName => by
    simp [beginsMethod, isName]
  have angle : Begins (char (· == '<')) beginsMethod :=
    .char fun c same => by simp [beginsMethod, same]
  have type : Begins returnType beginsMethod := ((name.bind _).bind _).bind _
  exact .behind (.optional ((angle.bind _).bind _)) fun _ => type.stretch.bind _

/-- The start of a method header does not end within blanks. -/
theorem endsWhole_methodStart : EndsWhole methodStart := by
  rw [methodStart_eq]
  exact .bind ((EndsWhole.ensure _).cleared _) fun _ =>
    .bind (cleared_of_begins solid_beginsMethod _ fun _ => begins_typeParametersOn) fun _ =>
      .bind (cleared_of_begins solid_isNameChar _ fun _ => begins_returnTypeOn) fun _ =>
        endsWhole_returnTypeOn

/-- The parameters are read alike in both layouts, behind types and names that are alike. -/
theorem parallel_parametersOn (relayout : Relayout R) {returnType returnType' name name' : Excerpt}
    (sameType : squeezed returnType.text = squeezed returnType'.text)
    (sameName : name.text = name'.text) :
    Parallel R (fun header _ header' _ => header.Alike header') (parametersOn returnType name)
      (parametersOn returnType' name') := by
  have notParenthesis : ∀ c, isBlank c = true → (!(c == '(' || c == ')')) = true := by
    intro c blank
    have notLeft : c ≠ '(' := ne_of_class blank (by decide)
    have notRight : c ≠ ')' := ne_of_class blank (by decide)
    simp [notLeft, notRight]
  refine (parallel_blanks relayout).bind
    (cleared_of_begins solid_leftParenthesis _ fun _ => (Begins.char fun _ same => same).bind _)
    (cleared_of_begins solid_leftParenthesis _ fun _ => (Begins.char fun _ same => same).bind _)
      fun _ _ _ _ _ => ?_
  refine (Parallel.char relayout solid_leftParenthesis).bind
    ((EndsWhole.char solid_leftParenthesis).cleared _)
    ((EndsWhole.char solid_leftParenthesis).cleared _) fun _ _ _ _ _ => ?_
  -- The parameters may hold blanks, of which only the lengths differ.
  refine ((Parallel.spacedRun relayout notParenthesis).squeezed relayout).stretch.bind
    (cleared_of_begins solid_rightParenthesis _ fun _ => (Begins.char fun _ same => same).bind _)
    (cleared_of_begins solid_rightParenthesis _ fun _ => (Begins.char fun _ same => same).bind _) ?_
  rintro parameters _ parameters' _ ⟨rfl, rfl, _, _, _, sameParameters⟩
  refine (Parallel.char relayout solid_rightParenthesis).bind
    ((EndsWhole.char solid_rightParenthesis).cleared _)
    ((EndsWhole.char solid_rightParenthesis).cleared _) fun _ _ _ _ _ => ?_
  refine (parallel_dimensions relayout).bind (endsWhole_dimensions.cleared _)
    (endsWhole_dimensions.cleared _) fun _ _ _ _ _ => ?_
  exact .pure ⟨sameType, sameName, sameParameters⟩

/-- The start of a method header is read alike in both layouts. -/
theorem parallel_methodStart (relayout : Relayout R) :
    Parallel R (fun header _ header' _ => header.Alike header') methodStart methodStart := by
  -- Part by part: modifiers, type parameters, type, name and parameters.
  rw [methodStart_eq]
  refine (Parallel.notAfter solid_methodStart).bind ((EndsWhole.ensure _).cleared _)
    ((EndsWhole.ensure _).cleared _) fun _ _ _ _ _ => ?_
  refine (areModifiers_methodModifiers.parallel relayout).bind
    (cleared_of_begins solid_beginsMethod _ fun _ => begins_typeParametersOn)
    (cleared_of_begins solid_beginsMethod _ fun _ => begins_typeParametersOn) fun _ _ _ _ _ => ?_
  refine (parallel_typeParameters relayout).optional.bind
    (cleared_of_begins solid_isNameChar _ fun _ => begins_returnTypeOn)
    (cleared_of_begins solid_isNameChar _ fun _ => begins_returnTypeOn) fun _ _ _ _ _ => ?_
  refine ((parallel_returnType relayout).squeezed relayout).stretch.bind
    (endsWhole_returnType.stretch.cleared _) (endsWhole_returnType.stretch.cleared _) ?_
  rintro type _ type' _ ⟨rfl, rfl, _, _, _, sameType⟩
  refine (parallel_blanks1 relayout).bind
    (cleared_of_begins solid_isNameChar _ fun _ => begins_anyName.stretch.bind _)
    (cleared_of_begins solid_isNameChar _ fun _ => begins_anyName.stretch.bind _)
    fun _ _ _ _ _ => ?_
  refine (Parallel.run1 relayout solid_isNameChar).stretch.bind (endsWhole_name.stretch.cleared _)
    (endsWhole_name.stretch.cleared _) ?_
  rintro name _ name' _ ⟨isText, isText', _, _, same, _⟩
  exact parallel_parametersOn relayout sameType (by rw [isText, isText', same])

/-- A word that announces exceptions but names none: one blank and then the end of the header. -/
def SoleThrows (text : List Char) : Prop :=
  ∃ c mark rest, text = "throws".toList ++ c :: mark :: rest ∧ isBlank c = true ∧
    endsMethod mark = true

/-- A relation between texts that tells an empty list of exceptions from others. -/
def KeepsThrows (R : List Char → List Char → Prop) : Prop :=
  ∀ text text', R text text' → (SoleThrows text ↔ SoleThrows text')

/-- Where the header of a method may end, it may end in a text that looks alike. -/
theorem Tail.alike (relayout : Relayout R) (keeps : KeepsThrows R) {tail rest text' : List Char}
    {mark : Char} (isTail : Tail tail) (isMark : endsMethod mark = true)
    (alike : R (tail ++ mark :: rest) text') :
    ∃ tail' rest', text' = tail' ++ mark :: rest' ∧ Tail tail' ∧ R rest rest' := by
  have solid := isBlank_of_endsMethod isMark
  cases isTail with
  | blanks allBlank =>
    obtain ⟨run', rest', rfl, allBlank', alikeMark, _⟩ :=
      relayout.upTo (fun _ blank => blank) allBlank solid alike
    obtain ⟨_, same, alikeRest⟩ := relayout.solid solid alikeMark
    cases same
    exact ⟨run', rest', rfl, .blanks allBlank', alikeRest⟩
  | @throws run more c allBlank blank nonempty listed =>
    -- The blanks before the word, the word, and the list behind it have their counterparts.
    have grouped : run ++ ("throws".toList ++ c :: more) ++ mark :: rest =
        run ++ 't' :: ("hrows".toList ++ ((c :: more) ++ mark :: rest)) := by simp
    rw [grouped] at alike
    obtain ⟨run', behind, rfl, allBlank', alikeWord, _⟩ :=
      relayout.upTo (fun _ blank => blank) allBlank (by decide) alike
    have isWord : ∀ c ∈ "throws".toList, isBlank c = false := by decide
    obtain ⟨behindWord, same, alikeList⟩ :=
      @Relayout.word R relayout "throws".toList ((c :: more) ++ mark :: rest) ('t' :: behind)
        isWord alikeWord
    have allListed : ∀ d ∈ c :: more, isListed d = true := by
      simpa [isListed_of_isBlank blank] using listed
    obtain ⟨list, rest', rfl, listed', alikeMark, sameHead⟩ :=
      relayout.upTo (fun _ => isListed_of_isBlank) allListed solid alikeList
    obtain ⟨_, sameMark, alikeRest⟩ := relayout.solid solid alikeMark
    cases sameMark
    obtain ⟨d, more', rfl, blank'⟩ : ∃ d more', list = d :: more' ∧ isBlank d = true := by
      cases list with
      | nil => simp [blank] at sameHead
      | cons d more' => exact ⟨d, more', rfl, by simpa [blank] using sameHead.symm⟩
    -- If nothing but one blank stood there, the same would be true of the first text.
    have nonempty' : more' ≠ [] := by
      rintro rfl
      have sole : SoleThrows ('t' :: behind) := ⟨d, mark, rest', by rw [same]; rfl, blank', isMark⟩
      obtain ⟨e, other, further, split, _, ends⟩ := (keeps _ _ alikeWord).mpr sole
      obtain ⟨first, more, rfl⟩ := List.exists_cons_of_ne_nil nonempty
      have isFirst : first = other := by
        have inside : (c :: first :: more) ++ mark :: rest = e :: other :: further :=
          @List.append_cancel_left _ "throws".toList _ _ split
        simp only [List.cons_append, List.cons.injEq] at inside
        exact inside.2.1
      rw [← isFirst, endsMethod_of_isListed (listed first List.mem_cons_self)] at ends
      cases ends
    refine ⟨run' ++ ("throws".toList ++ d :: more'), rest', ?_,
      .throws allBlank' blank' nonempty' ?_, alikeRest⟩
    · rw [same]
      simp
    · exact fun e inside => listed' e (List.mem_cons_of_mem d inside)

/-- The ends of headers are read alike. -/
theorem headAlike_methodEnd (relayout : Relayout R) (keeps : KeepsThrows R) :
    HeadAlike R (fun _ taken _ taken' => taken ≠ [] ∧ taken' ≠ []) methodEnd methodEnd := by
  rintro ⟨offset, before, text⟩ ⟨offset', before', text'⟩ level
  cases found : (methodEnd ⟨offset, before, text⟩).head? with
  | some read =>
    obtain ⟨tail, mark, rest, rfl, isTail, isMark, rfl⟩ :=
      mem_methodEnd.mp (List.mem_of_head? found)
    obtain ⟨tail', rest', rfl, isTail', alikeRest⟩ := isTail.alike relayout keeps isMark level.rest
    rw [head?_methodEnd isTail' isMark]
    refine .some ⟨tail ++ [mark], tail' ++ [mark], ⟨by simp, rfl⟩, ⟨by simp, rfl⟩,
      ?_, by simp, by simp⟩
    -- Both end behind the mark.
    simpa [Cursor.beyond] using abreast_of_solid (isBlank_of_endsMethod isMark) alikeRest
  | none =>
    cases found' : (methodEnd ⟨offset', before', text'⟩).head? with
    | none => exact .none
    | some read' =>
      -- What can be read in the second text can be read in the first.
      obtain ⟨tail', mark, rest', rfl, isTail', isMark, rfl⟩ :=
        mem_methodEnd.mp (List.mem_of_head? found')
      obtain ⟨tail, rest, rfl, isTail, _⟩ := isTail'.alike relayout.symm
        (fun one other alike => (keeps other one alike).symm) isMark level.rest
      rw [head?_methodEnd isTail isMark] at found
      cases found

/-- The preferred ways to read a method in texts that look alike are alike. -/
theorem headAlike_methodHeader (relayout : Relayout R) (keeps : KeepsThrows R) :
    HeadAlike R (fun header taken header' taken' => header.Alike header' ∧ taken ≠ [] ∧ taken' ≠ [])
      methodHeader methodHeader := by
  -- The start is read alike as a whole, and of the end only the first reading counts.
  rw [methodHeader_eq]
  refine .bind (parallel_methodStart relayout) endsWhole_methodStart endsWhole_methodStart ?_
  intro header taken header' taken' alike
  exact (headAlike_methodEnd relayout keeps).map fun _ _ _ _ both =>
    ⟨alike, by simp [both.1], by simp [both.2]⟩

end Reader

/-- A word without blanks is told from all other texts whatever blanks these have. -/
theorem eq_of_squeezed {word text : List Char} (solid : ∀ c ∈ word, isBlank c = false)
    (same : squeezed word = squeezed text) : word = text := by
  obtain ⟨rest, rfl, sameRest⟩ :=
    @Relayout.word _ relayout_squeezed word [] text solid (by simpa using same)
  rw [relayout_squeezed.nil sameRest, List.append_nil]

/-- The layout of a type does not decide whether it is one. -/
theorem isNoType_of_squeezed {text text' : List Char} (same : squeezed text = squeezed text') :
    isNoType text = isNoType text' := by
  -- The words that are no types have no blanks in them.
  have solid : ∀ word ∈ notATypeWords, ∀ c ∈ word, isBlank c = false := by decide
  have either : ∀ {text text' : List Char}, squeezed text = squeezed text' → text ∈ notATypeWords →
      text' ∈ notATypeWords := by
    intro text text' same listed
    rwa [← eq_of_squeezed (solid text listed) same]
  rw [Bool.eq_iff_iff, isNoType, isNoType, List.contains_iff_mem, List.contains_iff_mem]
  exact ⟨either same, either same.symm⟩

variable {R : List Char → List Char → Prop}

/-- A name and parameters whose blanks do not count. -/
def loose (signature : List Char × List Char) : List Char × List Char :=
  (signature.1, squeezed signature.2)

/-- Method headers that are alike are kept or dropped together. -/
theorem MethodHeader.Alike.keptHeader_eq {header header' : MethodHeader}
    (alike : header.Alike header') :
    (keptHeader header).map loose = (keptHeader header').map loose := by
  rw [keptHeader, keptHeader, isNoType_of_squeezed alike.returnType, alike.name]
  split
  · rfl
  · simp [loose, alike.parameters]

/-- Texts that differ in their blanks only have the same methods, up to the blanks among their
parameters. -/
theorem methodHeaders_of_relayout (relayout : Relayout R) (keeps : Reader.KeepsThrows R)
    {text text' : List Char} (alike : R text text') :
    (methodHeaders text).map loose = (methodHeaders text').map loose := by
  -- The matches in both texts pair up, and each pair is kept or dropped together.
  have found := ((Reader.headAlike_methodHeader relayout keeps).squeezed relayout).all relayout
    (fun _ _ _ _ both => ⟨both.1.2.1, both.1.2.2, both.2⟩) Reader.solid_beginsMethod
      Reader.begins_methodHeader
    Reader.begins_methodHeader alike
  have kept : ∀ text, methodHeaders text =
      (Reader.methodHeader.all text).filterMap fun found => keptHeader found.value := fun _ => rfl
  rw [kept, kept]
  generalize Reader.methodHeader.all text = all at found ⊢
  generalize Reader.methodHeader.all text' = all' at found ⊢
  rw [List.map_filterMap, List.map_filterMap]
  induction found with
  | nil => rfl
  | cons first _ ih =>
    obtain ⟨_, _, _, _, _, ⟨alikeHeaders, _⟩, _⟩ := first
    rw [List.filterMap_cons, List.filterMap_cons, alikeHeaders.keptHeader_eq, ih]

end Lineage.Java
