import Lineage.Java.Source
import Lineage.Proofs.Java.Body
import Lineage.Proofs.Java.Words
import Mathlib.Data.List.Infix
import Mathlib.Tactic.MkIffOfInductiveProp

/-! Types and methods as they are written down, and the pieces into which the text falls. -/

namespace Lineage.Java

open Lineage.Text

/-- A method to be written down. A method without documentation has no lines of it. -/
structure MethodText where
  returnType : List Char
  name : List Char
  parameters : List Char
  documentation : List (List Char) := []
  deriving DecidableEq, Repr

/-- A class or an interface to be written down. -/
structure TypeText where
  name : List Char
  kind : Kind
  superclass : Option (List Char) := none
  interfaces : List (List Char) := []
  methods : List MethodText := []
  /-- Only a class extends a class. -/
  superless : kind = .interface → superclass = none := by simp
  deriving DecidableEq, Repr

/-- A doc comment, with one line of text for each line of documentation. -/
def commentText (lines : List (List Char)) : List Char :=
  "/**\n".toList ++ lines.flatMap (fun line => " * ".toList ++ line ++ ['\n']) ++ " */".toList

/-- The header of a method that has no body. -/
def MethodText.header (method : MethodText) : List Char :=
  method.returnType ++ ' ' :: (method.name ++ '(' :: (method.parameters ++ [')', ';']))

/-- The doc comment of a method, if it has one, and its header, each on lines of its own. -/
def MethodText.print (method : MethodText) : List Char :=
  (if method.documentation.isEmpty then [] else commentText method.documentation ++ ['\n']) ++
    method.header ++ ['\n']

/-- A word and the names that it introduces, or nothing if there are none. -/
def clauseText (word : List Char) (names : List (List Char)) : List Char :=
  if names.isEmpty then [] else ' ' :: word ++ ' ' :: [',', ' '].intercalate names

/-- The words before the name of a type. -/
def introduction : Kind → List Char
  | .plainClass => "class ".toList
  | .abstractClass => "abstract class ".toList
  | .interface => "interface ".toList

/-- The names behind the word `extends`: the superclass of a class, and the interfaces of an
interface. -/
def TypeText.extended (type : TypeText) : List (List Char) :=
  match type.kind with
  | .interface => type.interfaces
  | .plainClass | .abstractClass => type.superclass.toList

/-- The names behind the word `implements`. -/
def TypeText.implemented (type : TypeText) : List (List Char) :=
  match type.kind with
  | .interface => []
  | .plainClass | .abstractClass => type.interfaces

/-- What follows the name of a type in its header. -/
def TypeText.clauses (type : TypeText) : List Char :=
  clauseText "extends".toList type.extended ++ clauseText "implements".toList type.implemented

/-- The header of a type. -/
def TypeText.header (type : TypeText) : List Char :=
  introduction type.kind ++ type.name ++ type.clauses

/-- The header of a type and its methods between braces. A margin of blanks may follow the opening
brace. -/
def TypeText.print (margin : List Char) (type : TypeText) : List Char :=
  type.header ++ " \x7b".toList ++ margin ++ type.methods.flatMap MethodText.print ++
    "\x7d\n".toList

/-- The documentation of a name among the methods of a type is that of the first method of this name
that has any. -/
def TypeText.documentationOf (type : TypeText) (name : List Char) : List Char :=
  match type.methods.find? fun method => method.name == name && !method.documentation.isEmpty with
  | some method => ['\n'].intercalate method.documentation
  | none => []

/-- What a type that is written down declares. -/
def TypeText.declaration (type : TypeText) : Declaration where
  name := String.ofList type.name
  kind := type.kind
  superclass := type.superclass.map String.ofList
  interfaces := type.interfaces.map String.ofList
  methods := type.methods.map fun method =>
    { name := String.ofList method.name
      parameters := String.ofList method.parameters
      documentation := String.ofList (type.documentationOf method.name) }
  superless isInterface := by rw [type.superless isInterface]; rfl

/-- What the header of a type declares. -/
def TypeText.methodless (type : TypeText) : Declaration :=
  { type.declaration with methods := [] }

/-- A name that can stand for a type or a method. The words that are never a type hold all the words
of headers. -/
@[mk_iff] structure Identifier (word : List Char) : Prop where
  nonempty : word ≠ []
  named : ∀ c ∈ word, isNameChar c = true
  noKeyword : word ∉ notATypeWords

/-- A line of documentation that a doc comment can hold. -/
@[mk_iff] structure DocLine (line : List Char) : Prop where
  endless : ¬ ['*', '/'] <:+: line
  braceless : '{' ∉ line ∧ '}' ∉ line
  oneLine : ∀ c ∈ line, isLineEnd c = false
  trimmed : line.getLast?.any isBlank = false

/-- Documentation that a doc comment can hold. -/
@[mk_iff] structure DocText (texts : List (List Char)) : Prop where
  lines : ∀ line ∈ texts, DocLine line
  first : ∀ line ∈ texts.head?, line ≠ [] ∧ line.head?.any isBlank = false
  last : texts.getLast? ≠ some []

/-- A method of the type of the given name that can be written down and read again. -/
@[mk_iff] structure MethodText.Fits (typeName : List Char) (method : MethodText) : Prop where
  returnType : Identifier method.returnType
  name : Identifier method.name
  noConstructor : method.name ≠ typeName
  parameters : ∀ c ∈ method.parameters, c ∉ ['(', ')', '{', '}', '"', '\'', '/']
  noType : ∀ kind, keywordOf kind ∉ words method.parameters
  documentation : DocText method.documentation

/-- A type that can be written down and read again. -/
@[mk_iff] structure TypeText.Fits (type : TypeText) : Prop where
  name : Identifier type.name
  superclass : ∀ superclass ∈ type.superclass, Identifier superclass
  interfaces : ∀ interface ∈ type.interfaces, Identifier interface
  methods : ∀ method ∈ type.methods, method.Fits type.name

instance (word : List Char) : Decidable (Identifier word) :=
  decidable_of_iff _ (identifier_iff word).symm

instance (line : List Char) : Decidable (DocLine line) :=
  decidable_of_iff _ (docLine_iff line).symm

instance (texts : List (List Char)) : Decidable (DocText texts) :=
  decidable_of_iff _ (docText_iff texts).symm

/-- What holds of each of the three kinds holds of every kind. -/
instance {p : Kind → Prop} [DecidablePred p] : Decidable (∀ kind, p kind) :=
  decidable_of_iff (p .plainClass ∧ p .abstractClass ∧ p .interface)
    ⟨fun ⟨onPlain, onAbstract, onInterface⟩ kind => by cases kind <;> assumption,
      fun all => ⟨all _, all _, all _⟩⟩

instance (typeName : List Char) (method : MethodText) : Decidable (method.Fits typeName) :=
  decidable_of_iff _ (MethodText.fits_iff typeName method).symm

instance (type : TypeText) : Decidable type.Fits :=
  decidable_of_iff _ (TypeText.fits_iff type).symm

variable {c : Char} {typeName margin : List Char} {method : MethodText} {type : TypeText}

/-- A character in front that belongs to no end of a comment makes no end of a comment. -/
theorem endless_append_cons {one other : List Char} (noStar : c ≠ '*') (noSlash : c ≠ '/')
    (endlessOne : ¬ ['*', '/'] <:+: one) (endlessOther : ¬ ['*', '/'] <:+: other) :
    ¬ ['*', '/'] <:+: one ++ c :: other := by
  induction one with
  | nil =>
    -- An end of a comment at the front would begin with the separating character.
    rw [List.nil_append, List.infix_cons_iff, not_or]
    refine ⟨fun isPart => noStar ?_, endlessOther⟩
    exact (List.cons_prefix_cons.mp isPart).1.symm
  | cons d one ih =>
    rw [List.infix_cons_iff, not_or] at endlessOne
    rw [List.cons_append, List.infix_cons_iff, not_or]
    refine ⟨fun isPart => ?_, ih endlessOne.2⟩
    -- The slash that would end the comment is the separating character or stood behind the star
    -- before.
    obtain ⟨isStar, behind⟩ := List.cons_prefix_cons.mp isPart
    cases one with
    | nil => exact noSlash (List.cons_prefix_cons.mp behind).1.symm
    | cons e one =>
      refine endlessOne.1 (List.cons_prefix_cons.mpr
        ⟨isStar, List.cons_prefix_cons.mpr ⟨?_, List.nil_prefix⟩⟩)
      exact (List.cons_prefix_cons.mp behind).1

/-- What a doc comment holds between its opening and its end. -/
def commentContents (lines : List (List Char)) : List Char :=
  '\n' :: (lines.flatMap (fun line => " * ".toList ++ line ++ ['\n']) ++ [' '])

theorem commentText_eq (lines : List (List Char)) :
    commentText lines = '/' :: '*' :: '*' :: (commentContents lines ++ ['*', '/']) := by
  simp [commentText, commentContents]

/-- A doc comment holds no end of a comment before its own. -/
theorem commentContents_endless {lines : List (List Char)}
    (fit : ∀ line ∈ lines, ¬ ['*', '/'] <:+: line) :
    ¬ ['*', '/'] <:+: commentContents lines := by
  have empty : ¬ ['*', '/'] <:+: ([] : List Char) := by decide
  -- Each line is cut off from its decoration and from the next line by blanks.
  have body : ∀ lines : List (List Char), (∀ line ∈ lines, ¬ ['*', '/'] <:+: line) →
      ¬ ['*', '/'] <:+: lines.flatMap (fun line => " * ".toList ++ line ++ ['\n']) ++ [' '] := by
    intro lines
    induction lines with
    | nil => intro _; decide
    | cons line lines ih =>
      intro fit
      have here := fit line List.mem_cons_self
      have later := ih fun other member => fit other (List.mem_cons_of_mem line member)
      have split : (line :: lines).flatMap (fun line => " * ".toList ++ line ++ ['\n']) ++ [' '] =
          [] ++ ' ' :: (['*'] ++ ' ' :: (line ++ '\n' ::
            (lines.flatMap (fun line => " * ".toList ++ line ++ ['\n']) ++ [' ']))) := by simp
      rw [split]
      refine endless_append_cons (by decide) (by decide) empty ?_
      refine endless_append_cons (by decide) (by decide) (by decide) ?_
      exact endless_append_cons (by decide) (by decide) here later
  exact endless_append_cons (by decide) (by decide) empty (body lines fit)

/-- A doc comment is one piece. -/
theorem pieces_comment {lines : List (List Char)} (fit : ∀ line ∈ lines, ¬ ['*', '/'] <:+: line)
    (rest : List Char) :
    pieces (commentText lines ++ rest) = .literal .blockComment
      (commentText lines) :: pieces rest := by
  refine (Lexed.literal ?_ (lexed_pieces rest)).eq_pieces
  -- The second star of the opening stands before a line feed, and so ends nothing.
  have endless : ¬ ['*', '/'] <:+: '*' :: commentContents lines := by
    rw [List.infix_cons_iff, not_or]
    refine ⟨fun isPart => ?_, commentContents_endless fit⟩
    exact absurd (List.cons_prefix_cons.mp (List.cons_prefix_cons.mp isPart).2).1 (by decide)
  have found : blockComment? (commentText lines ++ rest) = some (commentText lines).length := by
    refine blockComment?_eq_some.mpr ⟨'*' :: commentContents lines ++ '*' :: '/' :: rest, ?_, ?_⟩
    · simp [commentText_eq]
    · rw [closeComment_endless endless]
      simp [commentText_eq]
  -- The readers of other literals come first, and each of them asks for a quote.
  have noBlock : textBlock? (commentText lines ++ rest) = none := by rw [commentText_eq]; rfl
  have noString : string? (commentText lines ++ rest) = none := by rw [commentText_eq]; rfl
  have noCharacter : character? (commentText lines ++ rest) = none := by rw [commentText_eq]; rfl
  simp [literalAt, noBlock, noString, noCharacter, found]

/-- Characters that begin no literal and are no braces. -/
def Plain (c : Char) : Prop :=
  isOpener c = false ∧ c ≠ '{' ∧ c ≠ '}'

theorem plain_of_isWordy (fits : isWordy c = true) : Plain c :=
  ⟨isOpener_of_isWordy fits, ne_of_class fits (by decide), ne_of_class fits (by decide)⟩

theorem Identifier.plain {word : List Char} (identifier : Identifier word) : ∀ c ∈ word, Plain c :=
  fun c inside => plain_of_isWordy (isWordy_of_isNameChar (identifier.named c inside))

/-- The parameters of a method that fits are plain. -/
theorem MethodText.Fits.plainParameters (fits : method.Fits typeName) :
    ∀ c ∈ method.parameters, Plain c := by
  intro c inside
  have allowed := fits.parameters c inside
  simp only [List.mem_cons, List.not_mem_nil, or_false, not_or] at allowed
  obtain ⟨_, _, notOpen, notClose, notQuote, notTick, notSlash⟩ := allowed
  exact ⟨by simp [isOpener, notQuote, notTick, notSlash], notOpen, notClose⟩

/-- The header of a method and the end of its line are plain code. -/
theorem MethodText.Fits.plain (fits : method.Fits typeName) :
    ∀ c ∈ method.header ++ ['\n'], Plain c := by
  have signs : ∀ c ∈ [' ', '(', ')', ';', '\n'], Plain c := by unfold Plain; decide
  intro c inside
  simp only [MethodText.header, List.mem_append, List.mem_cons, List.not_mem_nil, or_false]
    at inside
  rcases inside with (inType | rfl | inName | rfl | inParameters | rfl | rfl) | rfl
  · exact fits.returnType.plain c inType
  · exact signs _ (by decide)
  · exact fits.name.plain c inName
  · exact signs _ (by decide)
  · exact fits.plainParameters c inParameters
  all_goals exact signs _ (by decide)

/-- The pieces of a method. -/
def MethodText.row (method : MethodText) : List Piece :=
  (if method.documentation.isEmpty then []
    else [.literal .blockComment (commentText method.documentation), .code '\n']) ++
    (method.header ++ ['\n']).map .code

/-- A method that is written down is cut into its pieces. -/
theorem MethodText.Fits.pieces_print (fits : method.Fits typeName) (rest : List Char) :
    pieces (method.print ++ rest) = method.row ++ pieces rest := by
  have code := pieces_append_plain (fun c inside => (fits.plain c inside).1) rest
  unfold MethodText.print MethodText.row
  cases method.documentation.isEmpty with
  | true => simpa using code
  | false =>
    -- The comment is one piece, the line feed behind it is code, and the header follows.
    have feed : pieces (['\n'] ++ (method.header ++ ['\n'] ++ rest)) =
        ['\n'].map .code ++ pieces (method.header ++ ['\n'] ++ rest) :=
          pieces_append_plain (by decide) _
    have comment :=
      pieces_comment (fun line member => (fits.documentation.lines line member).endless)
      (['\n'] ++ (method.header ++ ['\n'] ++ rest))
    rw [feed, code] at comment
    simpa using comment

/-- The characters of names in a row, with commas and blanks between them. -/
theorem mem_intercalate {names : List (List Char)} (inside : c ∈ [',', ' '].intercalate names) :
    (∃ name ∈ names, c ∈ name) ∨ c = ',' ∨ c = ' ' := by
  -- It belongs to the first name, to what stands behind it, or to one of the others.
  induction names with
  | nil => cases inside
  | cons name names ih =>
    cases names with
    | nil => exact Or.inl ⟨name, List.mem_cons_self, by simpa using inside⟩
    | cons other names =>
      rw [List.intercalate_cons_cons, List.append_assoc, List.mem_append, List.mem_append] at inside
      rcases inside with inName | inComma | inRest
      · exact Or.inl ⟨name, List.mem_cons_self, inName⟩
      · exact Or.inr (by simpa using inComma)
      · exact (ih inRest).imp_left fun ⟨found, member, inFound⟩ =>
          ⟨found, List.mem_cons_of_mem name member, inFound⟩

/-- What holds of the characters of a word and of names, and of the signs between them, holds of a
clause. -/
theorem forall_clauseText {p : Char → Prop} {word : List Char} {names : List (List Char)}
    (onWord : ∀ c ∈ word, p c) (onNames : ∀ name ∈ names, ∀ c ∈ name, p c) (onBlank : p ' ')
    (onComma : p ',') :
    ∀ c ∈ clauseText word names, p c := by
  -- The character belongs to the word, to a name or to what stands between them.
  intro c inside
  unfold clauseText at inside
  split at inside
  · cases inside
  · simp only [List.mem_append, List.mem_cons] at inside
    rcases inside with (rfl | inWord) | rfl | inNames
    · exact onBlank
    · exact onWord c inWord
    · exact onBlank
    · rcases mem_intercalate inNames with ⟨name, member, inName⟩ | rfl | rfl
      · exact onNames name member c inName
      · exact onComma
      · exact onBlank

/-- The signs that occur in headers next to the characters of names. -/
def InClause (c : Char) : Prop :=
  isNameChar c = true ∨ c = ' ' ∨ c = ','

/-- What a type extends are identifiers. -/
theorem TypeText.Fits.extended (fits : type.Fits) : ∀ name ∈ type.extended, Identifier name := by
  intro name member
  unfold TypeText.extended at member
  split at member
  · exact fits.interfaces name member
  all_goals exact fits.superclass name (Option.mem_toList.mp member)

/-- What a type implements are identifiers. -/
theorem TypeText.Fits.implemented (fits : type.Fits) :
    ∀ name ∈ type.implemented, Identifier name := by
  intro name member
  unfold TypeText.implemented at member
  split at member
  · cases member
  all_goals exact fits.interfaces name member

/-- What follows the name of a type consists of names, blanks and commas. -/
theorem TypeText.Fits.inClause (fits : type.Fits) : ∀ c ∈ type.clauses, InClause c := by
  have onExtends : ∀ c ∈ "extends".toList, InClause c := by unfold InClause; decide
  have onImplements : ∀ c ∈ "implements".toList, InClause c := by unfold InClause; decide
  have onNames : ∀ {names : List (List Char)}, (∀ name ∈ names, Identifier name) →
      ∀ name ∈ names, ∀ c ∈ name, InClause c :=
    fun fit name member c inside => Or.inl ((fit name member).named c inside)
  have onBlank : InClause ' ' := Or.inr (Or.inl rfl)
  have onComma : InClause ',' := Or.inr (Or.inr rfl)
  intro c inside
  rcases List.mem_append.mp inside with first | second
  · exact forall_clauseText onExtends (onNames fits.extended) onBlank onComma c first
  · exact forall_clauseText onImplements (onNames fits.implemented) onBlank onComma c second

/-- What can stand in a clause is plain. -/
theorem plain_of_inClause (inside : InClause c) : Plain c := by
  rcases inside with isName | rfl | rfl
  · exact plain_of_isWordy (isWordy_of_isNameChar isName)
  · unfold Plain; decide
  · unfold Plain; decide

/-- The header of a type is plain code. -/
theorem TypeText.Fits.plain (fits : type.Fits) : ∀ c ∈ type.header, Plain c := by
  intro c inside
  simp only [TypeText.header, List.mem_append] at inside
  rcases inside with (inIntroduction | inName) | inClauses
  · have wordy : ∀ c ∈ introduction type.kind, isWordy c = true := by cases type.kind <;> decide
    exact plain_of_isWordy (wordy c inIntroduction)
  · exact fits.name.plain c inName
  · exact plain_of_inClause (fits.inClause c inClauses)

/-- The pieces of the methods of a type. -/
theorem pieces_methods {methods : List MethodText} (fit : ∀ method ∈ methods, method.Fits typeName)
    (rest : List Char) :
    pieces (methods.flatMap MethodText.print ++ rest) = methods.flatMap MethodText.row ++
      pieces rest := by
  induction methods with
  | nil => rfl
  | cons method methods ih =>
    have here := fit method List.mem_cons_self
    rw [List.flatMap_cons, List.append_assoc, here.pieces_print,
      ih fun other member => fit other (List.mem_cons_of_mem method member), List.flatMap_cons,
        List.append_assoc]

/-- The pieces of a type. -/
def TypeText.row (margin : List Char) (type : TypeText) : List Piece :=
  (type.header ++ " \x7b".toList ++ margin).map .code ++ type.methods.flatMap MethodText.row ++
    "\x7d\n".toList.map .code

/-- A type that is written down is cut into its pieces. -/
theorem TypeText.Fits.pieces_print (blank : ∀ c ∈ margin, isBlank c = true) (fits : type.Fits)
    (rest : List Char) : pieces (type.print margin ++ rest) = type.row margin ++ pieces rest := by
  -- All that stands before the methods is code, and so is all that follows them.
  have opening : ∀ c ∈ type.header ++ " \x7b".toList ++ margin, isOpener c = false := by
    have signs : ∀ c ∈ " \x7b".toList, isOpener c = false := by decide
    intro c inside
    rw [List.mem_append, List.mem_append] at inside
    rcases inside with (inHeader | inSigns) | inMargin
    · exact (fits.plain c inHeader).1
    · exact signs c inSigns
    · exact isOpener_of_isWordy (isWordy_of_isBlank (blank c inMargin))
  have closing : ∀ c ∈ "\x7d\n".toList, isOpener c = false := by decide
  unfold TypeText.print TypeText.row
  rw [List.append_assoc, List.append_assoc, pieces_append_plain opening,
    pieces_methods fits.methods, pieces_append_plain closing]
  simp only [List.append_assoc]

/-- The pieces of types written one behind the other. -/
theorem pieces_types (blank : ∀ c ∈ margin, isBlank c = true) {types : List TypeText}
    (fit : ∀ type ∈ types, type.Fits) :
    pieces (types.flatMap (TypeText.print margin)) = types.flatMap (TypeText.row margin) := by
  induction types with
  | nil => simp [pieces]
  | cons type types ih =>
    have here := fit type List.mem_cons_self
    rw [List.flatMap_cons, here.pieces_print blank, ih fun other member =>
      fit other (List.mem_cons_of_mem type member), List.flatMap_cons]

/-- The blanks that stand before the header of a method once its doc comment is gone. -/
def MethodText.gap (method : MethodText) : List Char :=
  if method.documentation.isEmpty then
    [] else ' ' :: lineFeeds (commentText method.documentation) ++ ['\n']

/-- What a documentation leaves before its method is blank. -/
theorem MethodText.isBlank_gap (method : MethodText) : ∀ c ∈ method.gap, isBlank c = true := by
  intro c inside
  unfold MethodText.gap at inside
  split at inside
  · cases inside
  · -- A comment leaves a blank and its line feeds behind.
    simp only [lineFeeds, List.mem_append, List.mem_cons, List.mem_filter, beq_iff_eq,
      List.not_mem_nil, or_false] at inside
    rcases inside with (rfl | ⟨_, rfl⟩) | rfl <;> decide

/-- A text of code is its own blanked form. -/
theorem flatMap_blanked_code (text : List Char) :
    (text.map Piece.code).flatMap Piece.blanked = text := by
  induction text with
  | nil => rfl
  | cons c text ih => rw [List.map_cons, List.flatMap_cons, ih]; rfl

/-- A method whose doc comment is blanked. -/
def MethodText.bare (method : MethodText) : List Char :=
  method.gap ++ method.header ++ ['\n']

/-- Of a method its header is left, behind the gap of its documentation. -/
theorem MethodText.blanked_row (method : MethodText) :
    method.row.flatMap Piece.blanked = method.bare := by
  unfold MethodText.row MethodText.bare MethodText.gap
  rw [List.flatMap_append, flatMap_blanked_code]
  split <;> simp [Piece.blanked]

/-- A type whose doc comments are blanked. -/
def TypeText.bare (margin : List Char) (type : TypeText) : List Char :=
  type.header ++ " \x7b".toList ++ margin ++ type.methods.flatMap MethodText.bare ++ "\x7d\n".toList

theorem blanked_methods (methods : List MethodText) :
    (methods.flatMap MethodText.row).flatMap Piece.blanked = methods.flatMap MethodText.bare := by
  rw [List.flatMap_assoc]
  exact congrArg (List.flatMap · methods) (funext MethodText.blanked_row)

/-- Of a type its header and those of its methods are left. -/
theorem TypeText.blanked_row (margin : List Char) (type : TypeText) :
    (type.row margin).flatMap Piece.blanked = type.bare margin := by
  unfold TypeText.row TypeText.bare
  rw [List.flatMap_append, List.flatMap_append, flatMap_blanked_code, flatMap_blanked_code,
    blanked_methods]

/-- What is left of written types once their comments are gone. -/
theorem blanked_types (blank : ∀ c ∈ margin, isBlank c = true) {types : List TypeText}
    (fit : ∀ type ∈ types, type.Fits) :
    blanked (types.flatMap (TypeText.print margin)) = types.flatMap (TypeText.bare margin) := by
  rw [blanked, pieces_types blank fit, List.flatMap_assoc]
  exact congrArg (List.flatMap · types) (funext (TypeText.blanked_row margin))

end Lineage.Java
