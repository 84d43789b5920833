import Lineage.Proofs.Java.Inserted
import Lineage.Proofs.Java.MethodLayout
import Lineage.Proofs.Java.Outline

/-! Comments are transparent: one before a blank of the code leaves the declarations and their
methods as they are. -/

namespace Lineage.Java

open Lineage.Text

/-- A word that announces exceptions stands before a text, and the end of a header at the front of
another. -/
def EndsThrows (left right : List Char) : Prop :=
  "throws".toList <:+ left ∧ right.head?.any Reader.endsMethod = true

instance decidableEndsThrows (left right : List Char) : Decidable (EndsThrows left right) :=
  inferInstanceAs (Decidable (_ ∧ _))

/-- More text around does not hide the word and the end of the header. -/
theorem EndsThrows.around {left left' right right' : List Char} (ends : EndsThrows left right)
    (before : left <:+ left') (behind : right <+: right') : EndsThrows left' right' := by
  -- The word is still at the end, and the mark is still the first character.
  refine ⟨ends.1.trans before, ?_⟩
  obtain ⟨mark, isHead, isMark⟩ := (Option.any_eq_true _ _).mp ends.2
  obtain ⟨rest, rfl⟩ := behind
  rw [List.head?_append, isHead]
  exact isMark

/-- The word and the end of the header stand in the source, if they do so once its literals are
blanked. -/
theorem endsThrows_of_blanked {source more : List Char} {row back : List Piece}
    (lexed : Lexed source (row ++ back))
    (noLine : ∀ text, row.getLast? ≠ some (.literal .lineComment text))
    (ends : EndsThrows (row.flatMap Piece.blanked) (blanked more)) :
    EndsThrows (sourceOf row) more := by
  obtain ⟨⟨rest, isSuffix⟩, isEnd⟩ := ends
  refine ⟨suffix_of_blanked (by decide) lexed noLine isSuffix.symm, ?_⟩
  obtain ⟨mark, isHead, isMark⟩ := (Option.any_eq_true _ _).mp isEnd
  -- Neither a brace nor a semicolon stands for a literal.
  have noLiteral : mark ≠ '"' ∧ mark ≠ '\'' ∧ mark ≠ ' ' ∧ mark ≠ '\n' := by
    rcases Bool.or_eq_true_iff.mp isMark with isBrace | isSemicolon
    · rw [beq_iff_eq.mp isBrace]
      decide
    · rw [beq_iff_eq.mp isSemicolon]
      decide
  rw [head?_of_blanked isHead noLiteral]
  exact isMark

/-- A text, and the same text or one with a space put before one of the blanks. The blank is not the
only thing between a word that announces exceptions and the end of the header. -/
inductive Widened : List Char → List Char → Prop where
  | same {text : List Char} : Widened text text
  | wider {left right : List Char} {c : Char} : isBlank c = true →
    ¬ EndsThrows left right → Widened (left ++ c :: right) (left ++ ' ' :: c :: right)

/-- A text and its wider form look alike. -/
theorem relayout_widened : Relayout Widened where
  nil := by
    intro text widened
    generalize isNil : [] = empty at widened
    cases widened with
    | same => rfl
    | wider => simp at isNil
  solid := by
    intro d rest text solid widened
    generalize isText : d :: rest = first at widened
    cases widened with
    | same => exact ⟨rest, isText.symm, .same⟩
    | @wider left right c blank notSole =>
      -- The text does not begin with the blank, so the space comes later.
      cases left with
      | nil =>
        obtain ⟨rfl, _⟩ := List.cons.inj isText
        rw [blank] at solid
        cases solid
      | cons e left =>
        obtain ⟨rfl, rfl⟩ := List.cons.inj isText
        exact ⟨_, rfl, .wider blank fun sole =>
          notSole (sole.around (List.suffix_cons d left) List.prefix_rfl)⟩
  blank := by
    intro d rest text blankFirst widened
    generalize isText : d :: rest = first at widened
    cases widened with
    | same => exact ⟨d, rest, isText.symm, blankFirst, .same⟩
    | @wider left right c blank notSole =>
      cases left with
      | nil =>
        -- The space and the blank are passed together.
        obtain ⟨rfl, rfl⟩ := List.cons.inj isText
        have passed : trimStart (d :: rest) = trimStart rest := List.dropWhile_cons_of_pos blank
        exact ⟨' ', d :: rest, rfl, by decide, by rw [passed]; exact .same⟩
      | cons e left =>
        rw [List.cons_append] at isText
        obtain ⟨rfl, rfl⟩ := List.cons.inj isText
        refine ⟨d, left ++ ' ' :: c :: right, rfl, blankFirst, ?_⟩
        by_cases nothing : trimStart left = []
        · -- Nothing but blanks stands before the place, so all of it is passed in both texts.
          obtain ⟨run, split, allBlank⟩ := exists_trimStart left
          rw [nothing, List.append_nil] at split
          have passed : ∀ {text : List Char}, trimStart (left ++ text) = trimStart text := by
            intro text
            rw [split]
            exact List.dropWhile_append_of_pos allBlank
          have space : trimStart (' ' :: c :: right) = trimStart (c :: right) :=
            List.dropWhile_cons_of_pos (by decide)
          rw [passed, passed, space]
          exact .same
        · rw [trimStart_append_of_ne_nil nothing, trimStart_append_of_ne_nil nothing]
          refine .wider blank fun sole => notSole (sole.around ?_ List.prefix_rfl)
          exact (List.dropWhile_suffix isBlank : trimStart left <:+ left).trans
            (List.suffix_cons d left)

/-- Of a text and its wider form both announce exceptions and name none, or neither does. -/
theorem keepsThrows_widened : Reader.KeepsThrows Widened := by
  have noBlank : ∀ {d : Char}, isBlank d = true → d ∉ "throws".toList := by
    intro d blank inside
    have letters : ∀ e ∈ "throws".toList, isBlank e = false := by decide
    rw [letters d inside] at blank
    cases blank
  -- A blank at another place than behind the word stands behind the mark.
  have located : ∀ {left right rest : List Char} {d b mark : Char}, isBlank d = true →
      Reader.endsMethod mark = true → left ++ d :: right = "throws".toList ++ b :: mark :: rest →
      left = "throws".toList ∧ right = mark :: rest ∨ ∃ more, left = "throws".toList ++ b :: mark ::
        more := by
    intro left right rest d b mark blank isMark split
    rcases append_cons_cases split with ⟨more, inside, _⟩ | ⟨isWord, _, isRight⟩
      | ⟨more, isLeft, behind⟩
    · exact absurd (by rw [inside]; simp) (noBlank blank)
    · exact Or.inl ⟨isWord, isRight⟩
    · cases more with
      | nil =>
        obtain ⟨rfl, _⟩ := List.cons.inj behind
        rw [Reader.isBlank_of_endsMethod isMark] at blank
        cases blank
      | cons e more =>
        obtain ⟨rfl, _⟩ := List.cons.inj behind
        exact Or.inr ⟨more, isLeft⟩
  intro text text' widened
  cases widened with
  | same => rfl
  | @wider left right c blank notSole =>
    constructor
    · rintro ⟨b, mark, rest, split, isBlank, isMark⟩
      rcases located blank isMark split with ⟨rfl, rfl⟩ | ⟨more, rfl⟩
      · exact absurd ⟨List.suffix_rfl, isMark⟩ notSole
      · exact ⟨b, mark, more ++ ' ' :: c :: right, by simp, isBlank, isMark⟩
    · -- The space is not the only blank behind the word, since another blank follows it.
      rintro ⟨b, mark, rest, split, blankBehind, isMark⟩
      rcases located (by decide) isMark split with ⟨rfl, behind⟩ | ⟨more, rfl⟩
      · obtain ⟨rfl, _⟩ := List.cons.inj behind
        rw [Reader.isBlank_of_endsMethod isMark] at blank
        cases blank
      · exact ⟨b, mark, more ++ c :: right, by simp, blankBehind, isMark⟩

section Inserted

variable {left right : List Char} {c : Char} {front front' back : List Piece}

/-- A body with a comment in it looks as it did before once its literals are blanked, unless the
comment comes between a word that announces exceptions and the end of a header. -/
theorem Inserted.widened (inserted : Inserted left c right front front' back)
    {lead inner more : List Char} (isLead : left = lead ++ '{' :: inner) (isPart : more <+: right)
    (code : CodeAt (left ++ c :: right) lead.length) (notSole : ¬ EndsThrows left right) :
    Widened (blanked (inner ++ c :: more)) (blanked (inner ++ (comment ++ c :: more))) := by
  have blank := inserted.blank
  obtain ⟨outer, row, isFront, rfl⟩ := inserted.exists_inner isLead code
  have isCode : pieces (c :: more) = .code c :: pieces more := by
    rw [pieces, literalAt_of_not_opener (isOpener_of_isWordy (isWordy_of_isBlank blank))]
  -- The pieces of the body are those of the source up to the blank, and the comment is put among
  -- them.
  have lexed : Lexed (sourceOf row ++ c :: more) (row ++ .code c :: pieces more) := by
    have whole := lexed_pieces (left ++ c :: right)
    rw [inserted.whole, isFront, List.append_assoc] at whole
    rw [← isCode]
    exact whole.drop.keep (by simpa [Piece.source, inserted.isRight] using isPart)
  have noSlash : row.getLast? ≠ some (.code '/') := by
    intro isLast
    refine inserted.noSlash ?_
    rw [isFront, List.getLast?_append, isLast]
    rfl
  obtain ⟨row', commented, lexed'⟩ := lexed.insert blank noSlash
  rw [sourceOf_pieces] at lexed'
  rw [blanked, blanked, lexed.eq_pieces, lexed'.eq_pieces, List.flatMap_append, List.flatMap_append,
    List.flatMap_cons]
  rcases commented.blanked_eq with ⟨noLine, spaced⟩ | same
  · rw [spaced, List.append_assoc]
    refine .wider blank fun sole => notSole ?_
    exact (endsThrows_of_blanked lexed noLine sole).around ⟨lead ++ ['{'], by simp [isLead]⟩ isPart
  · rw [same]
    exact .same

/-- Once its literals are blanked, the source looks as it did before. -/
theorem Inserted.squeezed_blanked (inserted : Inserted left c right front front' back) :
    squeezed (blanked (left ++ c :: right)) = squeezed
      (blanked (left ++ (comment ++ c :: right))) := by
  rw [blanked, blanked, inserted.whole, inserted.whole', List.flatMap_append, List.flatMap_append,
    List.flatMap_cons]
  rcases inserted.commented.blanked_eq with ⟨_, spaced⟩ | same
  · -- The comment is blanked to a space before the blank.
    rw [spaced, List.append_assoc]
    exact (squeezed_space inserted.blank _ _).symm
  · rw [same]

end Inserted

/-- The name of each method and its parameters, in which the lengths and the kinds of blanks do not
count. -/
def loosely (methods : List Method) : List (String × String) :=
  methods.map fun method => (method.name, String.ofList (squeezed method.parameters.toList))

/-- Only the name and the parameters of a header count for a method, apart from its
documentation. -/
theorem loosely_methodsIn (body typeName : List Char) (docs : List (List Char × List Char)) :
    loosely (methodsIn body typeName docs) =
      (((methodHeaders (blanked body)).map loose).filter (·.1 != typeName)).map
      fun signature => (String.ofList signature.1, String.ofList signature.2) := by
  simp only [loosely, methodsIn, List.filter_map, List.map_map]
  refine List.map_congr_left fun signature _ => ?_
  simp [loose]

/-- A comment at a place does not come between the word for the kind of a type and its name. If it
comes into the body, this body opens in code, and the comment does not follow a word that announces
exceptions but names none. -/
structure Undisturbed (source : List Char) (place : Nat) (kind : Kind) (name : String) : Prop where
  heading : ¬ Splits kind name.toList (source.take place) (source.drop place)
  body : ∀ body ∈ body? source kind name.toList, body.start ≤ place → place < body.stop →
    inSpan (literalSpans source) (body.start - 1) = false ∧
      ¬ EndsThrows (source.take place) (source.drop (place + 1))

section Inserted

variable {left right : List Char} {c : Char} {front front' back : List Piece}

/-- An undisturbed type keeps its methods. -/
theorem Inserted.loosely_methodsOf (inserted : Inserted left c right front front' back)
    (scope : DocScope) {kind : Kind} {name : String} (nonempty : name.toList ≠ [])
    (named : ∀ d ∈ name.toList, isNameChar d = true)
    (undisturbed : Undisturbed (left ++ c :: right) left.length kind name) :
    loosely (methodsOf (left ++ c :: right) scope kind name).value =
      loosely (methodsOf (left ++ (comment ++ c :: right)) scope kind name).value := by
  -- The place is given by what stands before it.
  obtain ⟨heading, inBody⟩ := undisturbed
  have behind : (left ++ c :: right).drop (left.length + 1) = right := by simp [List.drop_append]
  rw [List.take_left, List.drop_left] at heading
  rw [List.take_left, behind] at inBody
  unfold methodsOf
  rcases rel_cases (inserted.body?_carried nonempty named heading) with ⟨nothing, nothing'⟩ |
    ⟨body, body', found, found', carried⟩
  · rw [nothing, nothing']
  have kept := inBody body found
  rw [found, found']
  simp only [Logged.value_pure, loosely_methodsIn]
  unfold Body.stop at kept
  generalize body.start = start at kept carried
  generalize body.text = text at kept carried ⊢
  generalize body'.text = text' at carried ⊢
  cases carried with
  | same => rfl
  | @within lead inner more isLead isStart isPart =>
    -- Only where the comment comes into the body do its methods depend on it.
    have inside : start ≤ left.length ∧ left.length < start + (inner ++ c :: more).length := by
      simp only [isLead, isStart, List.length_append, List.length_cons]
      omega
    obtain ⟨uncovered, notSole⟩ := kept inside.1 inside.2
    have code : CodeAt (left ++ c :: right) lead.length := by
      rw [codeAt_iff (by simp [isLead]), show lead.length = start - 1 by omega]
      exact uncovered
    have widened := inserted.widened isLead isPart code notSole
    rw [methodHeaders_of_relayout relayout_widened keepsThrows_widened widened]

end Inserted

/-- A comment put before a blank of the code, and not right behind a slash of the code, leaves the
declarations as they are. Those that it does not disturb keep their methods, too. -/
theorem declarationsOf_insertComment {source : List Char} {place : Nat} {c : Char}
    (here : source[place]? = some c)
    (blank : isBlank c = true) (code : inSpan (literalSpans source) place = false)
    (noSlash : ∀ before, place = before + 1 → source[before]? = some '/' →
      inSpan (literalSpans source) before = true)
    (scope : DocScope) :
    List.Forall₂ (fun one other => heading one = heading other ∧
        (Undisturbed source place one.kind one.name → loosely one.methods = loosely other.methods))
      (declarationsOf source scope).value
      (declarationsOf (insertComment place source) scope).value := by
  obtain ⟨left, right, front, front', back, rfl, rfl, inserted⟩ :=
    exists_inserted here blank code noSlash
  have isInserted : insertComment left.length (left ++ c :: right) = left ++
      (comment ++ c :: right) := by
    rw [insertComment, List.take_left, List.drop_left]
  -- Headers are read from the blanked sources, which look alike; only the search for bodies sees
  -- the comment.
  have sameText := declarationsIn_of_relayout relayout_squeezed inserted.squeezed_blanked
  rw [isInserted, value_declarationsOf, value_declarationsOf, ← sameText, List.forall₂_map_left_iff,
    List.forall₂_map_right_iff, List.forall₂_same]
  intro declaration member
  refine ⟨rfl, fun undisturbed => ?_⟩
  obtain ⟨nonempty, named⟩ := named_of_mem_declarationsIn member
  exact inserted.loosely_methodsOf scope nonempty named undisturbed

/-- A source without interfaces declares its classes. -/
theorem value_declarationsOf_classes {source : List Char}
    (noInterface : (interfacesIn (blanked source)).isEmpty = true) (scope : DocScope) :
    (declarationsOf source scope).value = (classesIn (blanked source)).map fun placed =>
      { placed.declaration with
        methods :=
          (methodsOf source scope placed.declaration.kind placed.declaration.name).value } := by
  rw [value_declarationsOf, declarationsIn, List.isEmpty_iff.mp noInterface, List.merge_right,
    List.map_map]
  rfl

/-- The name of each declaration and its methods. -/
def outlined (source : List Char) : List (String × List (String × String)) :=
  (declarationsOf source .declaration).value.map fun declaration =>
    (declaration.name, loosely declaration.methods)

/-- The name of each class and its methods. Unlike those of all declarations, these can be
evaluated: a merge is stuck unless one side is known to be empty. -/
def classesOutlined (source : List Char) : List (String × List (String × String)) :=
  (classesIn (blanked source)).map fun placed => (placed.declaration.name,
    loosely (methodsOf source .declaration placed.declaration.kind placed.declaration.name).value)

/-- With no interface the outline is that of the classes. -/
theorem outlined_eq_classesOutlined {source : List Char}
    (noInterface : (interfacesIn (blanked source)).isEmpty = true) :
    outlined source = classesOutlined source := by
  rw [outlined, value_declarationsOf_classes noInterface, List.map_map]
  rfl

/-- A comment among the parameters of a method counts as a blank. -/
theorem declarationsOf_insertComment_parameters :
    let source := "class A \x7b int f(int x); \x7d".toList
    insertComment 19 source = "class A \x7b int f(int/* x */ x); \x7d".toList ∧
      Undisturbed source 19 .plainClass "A" ∧ outlined source = [("A", [("f", "int x")])] ∧
      outlined (insertComment 19 source) = [("A", [("f", "int x")])] := by
  intro source
  have undisturbed : Undisturbed source 19 .plainClass "A" := ⟨by decide +kernel, by decide +kernel⟩
  have found : (declarationsOf source .declaration).value =
      [{ name := "A", kind := .plainClass,
         methods := [{ name := "f", parameters := "int x" }] }] := by
    rw [value_declarationsOf_classes (by decide +kernel)]
    decide +kernel
  have related :=
    @declarationsOf_insertComment source 19 ' ' (by decide +kernel) (by decide +kernel)
    (by decide +kernel) (by intro before next; cases next; decide +kernel) .declaration
  refine ⟨by decide +kernel, undisturbed, by rw [outlined, found]; decide +kernel, ?_⟩
  -- There is one declaration, and the other source has its counterpart.
  rw [outlined]
  rw [found] at related
  generalize (declarationsOf (insertComment 19 source) .declaration).value =
    declarations at related ⊢
  cases related with
  | @cons _ other _ _ first rest =>
    cases rest
    obtain ⟨sameHeading, sameMethods⟩ := first
    have sameName : "A" = other.name := congrArg Prod.fst sameHeading
    rw [List.map_cons, List.map_nil, ← sameMethods undisturbed, ← sameName]
    decide +kernel

/-- A comment at a place that is a blank of the code changes the outline of the source. -/
def Disturbs (place : Nat) (source : List Char) : Prop :=
  source[place]?.any isBlank = true ∧ inSpan (literalSpans source) place = false ∧
    outlined (insertComment place source) ≠ outlined source

/-- A comment disturbs if it changes the outline of the classes, where there are no interfaces. -/
theorem disturbs_of_classes {place : Nat} {source : List Char}
    (inCode : source[place]?.any isBlank = true ∧ inSpan (literalSpans source) place = false)
    (noInterface : (interfacesIn (blanked source)).isEmpty = true ∧
      (interfacesIn (blanked (insertComment place source))).isEmpty = true)
    (differ : classesOutlined (insertComment place source) ≠ classesOutlined source) :
      Disturbs place source :=
  ⟨inCode.1, inCode.2, by
    rwa [outlined_eq_classesOutlined noInterface.1, outlined_eq_classesOutlined noInterface.2]⟩

/-- A comment behind a slash hides all that follows on the line, methods as well as types, and one
between the word for a kind and a name hides the methods of the type. One behind a word that
announces no exceptions, or behind a literal with the brace that is taken for the start of the body,
brings a method in. -/
theorem comment_disturbs :
    Disturbs 21 "class A \x7b int x = 6 / 2; int f(); \x7d".toList ∧
      Disturbs 1 "/ class A \x7b \x7d".toList ∧
      Disturbs 5 "class A \x7b int f(); \x7d".toList ∧
      Disturbs 24 "class A \x7b int f() throws \x7b \x7d \x7d".toList ∧
      Disturbs 14 "class A \"\x7b /*\" int g(); */ int f(); \x7d".toList := by
  -- Each example is evaluated: a slash before the comment, a split header, an unfinished list, a
  -- body that begins in a string.
  refine ⟨?_, ?_, ?_, ?_, ?_⟩
  · exact disturbs_of_classes (by decide +kernel) (by decide +kernel) (by decide +kernel)
  · exact disturbs_of_classes (by decide +kernel) (by decide +kernel) (by decide +kernel)
  · exact disturbs_of_classes (by decide +kernel) (by decide +kernel) (by decide +kernel)
  · exact disturbs_of_classes (by decide +kernel) (by decide +kernel) (by decide +kernel)
  · exact disturbs_of_classes (by decide +kernel) (by decide +kernel) (by decide +kernel)

end Lineage.Java
