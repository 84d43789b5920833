import Lineage.Proofs.Java.CodeSearch
import Lineage.Proofs.Java.Printed.Scan

/-! The body of each written type is found among all that is written. -/

namespace Lineage.Java

open Lineage.Text

/-- A row of pieces is barren of a type when nothing in it announces the type: its literals cannot,
and between them stand closed stretches of code in whose words the name never follows the word for
the kind. -/
inductive Barren (kind : Kind) (name : List Char) : List Piece → Prop
  | nil : Barren kind name []
  | literal (sort : LiteralKind) (text : List Char) {row : List Piece} :
    Barren kind name row → Barren kind name (.literal sort text :: row)
  | code {text : List Char} {row : List Piece} (closed : Closed text)
    (absent : ∀ early late, words text ≠ early ++ keywordOf kind :: name :: late) :
    Barren kind name row → Barren kind name (text.map .code ++ row)

namespace Barren

variable {kind : Kind} {name : List Char}

/-- Two barren rows are one barren row. -/
theorem append {one other : List Piece} (first : Barren kind name one)
    (second : Barren kind name other) :
    Barren kind name (one ++ other) := by
  induction first with
  | nil => exact second
  | literal sort text _ ih => exact .literal sort text ih
  | code closed absent _ ih =>
    rw [List.append_assoc]
    exact .code closed absent ih

/-- Closed code without the word for the kind is barren. -/
theorem of_notMem {text : List Char} (closed : Closed text) (absent : keywordOf kind ∉ words text) :
    Barren kind name (text.map .code) := by
  rw [← List.append_nil (text.map _)]
  refine .code closed (fun early late found => absent ?_) .nil
  simp [found]

/-- Barren rows are one barren row. -/
theorem flatMap {α : Type} {items : List α} {row : α → List Piece}
    (each : ∀ item ∈ items, Barren kind name (row item)) :
    Barren kind name (items.flatMap row) := by
  induction items with
  | nil => exact .nil
  | cons item items ih =>
    rw [List.flatMap_cons]
    exact (each item List.mem_cons_self).append
      (ih fun other member => each other (List.mem_cons_of_mem item member))

end Barren

/-- What the search in code finds announces the type. -/
theorem Reader.announces_openingInCode (spans : List (Nat × Nat)) (kind : Kind) (name : List Char) :
    Reader.Announces (Reader.openingInCode spans kind name) kind (· = name) := by
  intro offset before text result read
  obtain ⟨spelled, gap, rest, isText, announced, _⟩ :=
    Reader.mem_opening.mp (List.mem_of_mem_filter read)
  exact ⟨name, spelled, _, rfl, isText, announced⟩

/-- The search for the opening of a type passes over what is barren of it. -/
theorem firstFrom_barren {source : List Char} {kind : Kind} {name : List Char}
    (isName : Reader.IsName name) {front row back : List Piece} (barren : Barren kind name row)
    (whole : pieces source = front ++ (row ++ back)) (before : Option Char) (rest : List Char) :
    (Reader.openingInCode (literalSpans source) kind name).firstFrom (sourceOf front).length before
        (sourceOf row ++ rest) =
      (Reader.openingInCode (literalSpans source) kind name).firstFrom
        ((sourceOf front).length + (sourceOf row).length)
          ((sourceOf row).getLast?.or before) rest := by
  -- Along the stretches of the row; what was passed joins the front.
  induction barren generalizing front before with
  | nil => rfl
  | @literal sort text row _ ih =>
    have onward :=
      @ih (front ++ [.literal sort text]) (by simpa using whole) (text.getLast?.or before)
    rw [sourceOf_append, sourceOf_cons, sourceOf_nil, Piece.source, List.append_nil,
      List.length_append] at onward
    rw [sourceOf_cons, Piece.source, List.append_assoc, firstFrom_literal whole, onward,
      List.length_append, Nat.add_assoc, List.getLast?_append, Option.or_assoc]
  | @code text row closed absent _ ih =>
    -- What would open in the code is announced there, and the words of the code hold no
    -- announcement.
    have announces := Reader.announces_openingInCode (literalSpans source) kind name
    have passed : (Reader.openingInCode (literalSpans source) kind name).firstFrom
        (sourceOf front).length before (text ++ (sourceOf row ++ rest)) =
        (Reader.openingInCode (literalSpans source) kind name).firstFrom
        ((sourceOf front).length + text.length)
          (text.getLast?.or before) (sourceOf row ++ rest) := by
      refine Text.Reader.firstFrom_append fun early c late split => ?_
      refine announces.eq_nil (by rintro _ rfl; exact isName) (split ▸ closed) ?_ _ _
      rintro _ early late rfl
      rw [← split]
      exact absent early late
    have onward := @ih (front ++ text.map .code) (by simpa using whole) (text.getLast?.or before)
    rw [sourceOf_append, sourceOf_map_code, List.length_append] at onward
    rw [sourceOf_append, sourceOf_map_code, List.append_assoc, passed, onward, List.length_append,
      Nat.add_assoc, List.getLast?_append, Option.or_assoc]

/-- A method ends with a semicolon and a line feed. -/
theorem MethodText.closed_header (method : MethodText) : Closed (method.header ++ ['\n']) := by
  refine ⟨method.returnType ++ ' ' :: (method.name ++ '(' :: (method.parameters ++ [')'])), ';',
    ['\n'], ?_, by decide, by decide⟩
  simp [MethodText.header]

/-- A method that fits is barren, whatever type is looked for. -/
theorem MethodText.Fits.barren {typeName : List Char} {method : MethodText}
    (fits : method.Fits typeName) (kind : Kind) (name : List Char) :
    Barren kind name method.row := by
  have absent := fits.keywordOf_notMem kind
  unfold MethodText.row
  cases method.documentation.isEmpty with
  | true => exact .of_notMem method.closed_header absent
  | false =>
    -- The line feed behind the comment joins the code of the header.
    refine .literal _ _ ?_
    have joined : Barren kind name ((['\n'] ++ (method.header ++ ['\n'])).map .code) :=
      .of_notMem (method.closed_header.append ['\n'])
        (by rwa [List.singleton_append, words_cons (by decide)])
    simpa using joined

variable {margin : List Char} {type : TypeText}

/-- A type is barren of types with other names. -/
theorem TypeText.Fits.barren (blank : ∀ c ∈ margin, isBlank c = true) (fits : type.Fits)
    (kind : Kind) {name : List Char} (different : name ≠ type.name) :
    Barren kind name (type.row margin) := by
  have separate : ∀ c ∈ margin, isNameChar c = false :=
    fun c inside => isNameChar_of_isBlank (blank c inside)
  -- The only name that follows the word for a kind is the type's own.
  have opening : Barren kind name ((type.header ++ " \x7b".toList ++ margin).map .code) := by
    rw [← List.append_nil (List.map _ _)]
    refine .code ⟨type.header ++ [' '], '{', margin, by simp, by decide, separate⟩
      (fun early late found => ?_) .nil
    have marginless : words (" \x7b".toList ++ margin) = [] := by
      show words (' ' :: '{' :: margin) = []
      rw [words_cons (by decide), words_cons (by decide), ← List.append_nil margin,
        words_append_of_separators separate, words_nil]
    rw [List.append_assoc] at found
    exact different (fits.name_of_words (by rfl) (by rw [marginless]; exact List.not_mem_nil)
      found).2
  have closing : Barren kind name ("\x7d\n".toList.map .code) := by
    refine .of_notMem ⟨[], '}', ['\n'], rfl, by decide, by decide⟩ ?_
    have wordless : words "\x7d\n".toList = [] := by decide
    rw [wordless]
    exact List.not_mem_nil
  exact (opening.append (.flatMap fun method member =>
    (fits.methods method member).barren kind name)).append closing

theorem sourceOf_types (blank : ∀ c ∈ margin, isBlank c = true) {types : List TypeText}
    (fit : ∀ type ∈ types, type.Fits) :
    sourceOf (types.flatMap (TypeText.row margin)) = types.flatMap (TypeText.print margin) := by
  rw [← pieces_types blank fit, sourceOf_pieces]

/-- The words before the name of a type and the name announce the type. -/
theorem announcement_introduction (kind : Kind) (name : List Char) :
    ∃ values, Announcement kind values name (introduction kind ++ name) := by
  refine ⟨(introducedBy kind).map (·.word), (introducedBy kind).flatMap Modifier.text, [' '], ?_,
    ?_, by simp, by decide⟩
  · rw [introduction_eq]
    simp
  · -- Only an abstract class has a modifier.
    cases kind with
    | plainClass | interface => exact .none
    | abstractClass =>
      have one : ModifierText (modifiersOf .abstractClass) ["abstract".toList]
        ("abstract".toList ++ [' '] ++ []) :=
        .more (by decide) (by simp) (by decide) .none
      rwa [List.append_nil] at one

/-- Neither a method nor its documentation holds a brace. -/
theorem MethodText.Fits.braceless {typeName : List Char} {method : MethodText}
    (fits : method.Fits typeName) :
    ∀ c ∈ method.print, c ≠ '{' ∧ c ≠ '}' := by
  -- Neither the comment nor the header has a brace in it.
  have signs : ∀ text ∈ ["/**\n".toList, " * ".toList, ['\n'], " */".toList],
      ∀ c ∈ text, c ≠ '{' ∧ c ≠ '}' := by
    decide
  have onComment : ∀ c ∈ commentText method.documentation, c ≠ '{' ∧ c ≠ '}' := by
    intro c inside
    simp only [commentText, List.mem_append, List.mem_flatMap] at inside
    rcases inside with (inOpening | ⟨line, member, (inMark | inLine) | inFeed⟩) | inEnd
    · exact signs _ (by simp) c inOpening
    · exact signs _ (by simp) c inMark
    · obtain ⟨noOpen, noClose⟩ := (fits.documentation.lines line member).braceless
      exact ⟨fun same => noOpen (same ▸ inLine), fun same => noClose (same ▸ inLine)⟩
    · exact signs _ (by simp) c inFeed
    · exact signs _ (by simp) c inEnd
  intro c inside
  rw [MethodText.print, List.append_assoc, List.mem_append] at inside
  rcases inside with inComment | inHeader
  · split at inComment
    · cases inComment
    · rcases List.mem_append.mp inComment with inText | inFeed
      · exact onComment c inText
      · exact signs _ (by simp) c inFeed
  · exact (fits.plain c inHeader).2

/-- The text between the braces of a type. -/
def TypeText.inside (margin : List Char) (type : TypeText) : List Char :=
  margin ++ type.methods.flatMap MethodText.print

/-- A type is printed as its introduction, its name, its clauses and its body. -/
theorem TypeText.print_eq (margin : List Char) (type : TypeText) :
    type.print margin = introduction type.kind ++ type.name ++
      (type.clauses ++ [' '] ++ '{' :: (type.inside margin ++ ['}', '\n'])) := by
  simp [TypeText.print, TypeText.header, TypeText.inside]

/-- Nothing between the braces of a type closes its body early. -/
theorem TypeText.Fits.bodyLength?_inside (blank : ∀ c ∈ margin, isBlank c = true) (fits : type.Fits)
    (rest : List Char) :
    bodyLength? 0 (type.inside margin ++ '}' :: rest) = some (type.inside margin).length := by
  -- Nothing in the body opens or closes a brace.
  have braceless : ∀ c ∈ type.inside margin, c ≠ '{' ∧ c ≠ '}' := by
    intro c inside
    rcases List.mem_append.mp inside with inMargin | inMethods
    · exact (plain_of_isWordy (isWordy_of_isBlank (blank c inMargin))).2
    · obtain ⟨method, member, inMethod⟩ := List.mem_flatMap.mp inMethods
      exact (fits.methods method member).braceless c inMethod
  rw [bodyLength?_append (depthAfter_of_braceless braceless 0)]
  simp [bodyLength?]

/-- A header may follow written types, for they end with a line feed. -/
theorem mayPrecede_types (margin : List Char) (types : List TypeText) :
    MayPrecede ((types.flatMap (TypeText.print margin)).getLast?.or none) := by
  rcases List.eq_nil_or_concat types with rfl | ⟨others, type, rfl⟩
  · rfl
  · have last : (type.print margin).getLast? = some '\n' := by
      have ending : "\x7d\n".toList.getLast? = some '\n' := by decide
      rw [TypeText.print, List.getLast?_append, ending, Option.some_or]
    rw [List.concat_eq_append, List.flatMap_append, List.flatMap_singleton, List.getLast?_append,
      last]
    rfl

/-- What can stand in a clause can stand in a header. -/
theorem inHeader_of_inClause {c : Char} (inside : InClause c) : Reader.InHeader c := by
  rcases inside with isName | rfl | rfl
  · exact Reader.inHeader_of_isNameChar isName
  · unfold Reader.InHeader; decide
  · unfold Reader.InHeader; decide

/-- The first opening of a type among written types stands in its own header. -/
theorem first_openingInCode_types (blank : ∀ c ∈ margin, isBlank c = true)
    {front back : List TypeText} (fit : ∀ other ∈ front ++ type :: back, other.Fits)
    (different : ∀ other ∈ front, type.name ≠ other.name) :
    let source := (front ++ type :: back).flatMap (TypeText.print margin)
    ∃ found,
      (Reader.openingInCode (literalSpans source) type.kind type.name).first source = some found ∧
      found.after.rest = type.inside margin ++ '}' :: '\n' :: back.flatMap
        (TypeText.print margin) := by
  intro source
  have fitFront : ∀ other ∈ front, other.Fits := fun other member => fit other (by simp [member])
  have fits : type.Fits := fit type (by simp)
  have rows : pieces source =
      [] ++ (front.flatMap (TypeText.row margin) ++
        (type :: back).flatMap (TypeText.row margin)) := by
    rw [List.nil_append, ← List.flatMap_append]
    exact pieces_types blank fit
  -- The types before it are barren of it, and the search passes over them.
  have barren : Barren type.kind type.name (front.flatMap (TypeText.row margin)) :=
    .flatMap fun other member =>
      (fitFront other member).barren blank type.kind (different other member)
  have passed := firstFrom_barren ⟨fits.name.nonempty, fits.name.named⟩ barren rows none
    ((type :: back).flatMap (TypeText.print margin))
  rw [sourceOf_types blank fitFront, sourceOf_nil, List.length_nil, Nat.zero_add,
    ← List.flatMap_append] at passed
  -- The header of the type is code, and what stands before it does not continue its first word.
  have uncovered : inSpan (literalSpans source) (front.flatMap (TypeText.print margin)).length =
      false := by
    have headed : type.header ≠ [] := by simp [TypeText.header, fits.name.nonempty]
    obtain ⟨c, tail, begins⟩ := List.exists_cons_of_ne_nil headed
    rw [← sourceOf_types blank fitFront, literalSpans, rows, List.nil_append, List.flatMap_cons,
      TypeText.row, begins]
    exact inSpan_code _ _ c
  have announced : Announced type.kind type.name
    ((front.flatMap (TypeText.print margin)).getLast?.or none)
      (introduction type.kind ++ type.name) (type.clauses ++ [' '] ++ '{' :: (type.inside margin ++
        '}' :: '\n' :: back.flatMap (TypeText.print margin))) :=
    ⟨mayPrecede_types margin front, announcement_introduction type.kind type.name, by
      rw [List.append_assoc]
      exact TypeText.head_clauses (by rfl)⟩
  -- Between the name and the brace there is neither a brace nor a semicolon.
  have inHeader : ∀ c ∈ type.clauses ++ [' '], Reader.InHeader c := by
    intro c inside
    rcases List.mem_append.mp inside with inClauses | inBlank
    · exact inHeader_of_inClause (fits.inClause c inClauses)
    · exact inHeader_of_inClause (Or.inr (Or.inl (List.mem_singleton.mp inBlank)))
  have found := Reader.foundAt_openingInCode fits.name.named uncovered announced inHeader
  -- So the opening is found there, and the whole search ends with it.
  have written : (type :: back).flatMap (TypeText.print margin) = introduction type.kind ++
      type.name ++ (type.clauses ++ [' '] ++ '{' :: (type.inside margin ++
        '}' :: '\n' :: back.flatMap (TypeText.print margin))) := by
    rw [List.flatMap_cons, type.print_eq]
    simp
  have searched := Text.Reader.firstFrom_of_foundAt found
  rw [← written, ← passed] at searched
  exact ⟨_, searched, Cursor.rest_beyond ..⟩

/-- The body of a written type is what was written between its braces. -/
theorem body?_types (blank : ∀ c ∈ margin, isBlank c = true) {front back : List TypeText}
    (fit : ∀ other ∈ front ++ type :: back, other.Fits)
    (different : ∀ other ∈ front, type.name ≠ other.name) :
    ∃ start, body? ((front ++ type :: back).flatMap (TypeText.print margin)) type.kind type.name =
      some ⟨start, type.inside margin⟩ := by
  -- The opening is found, and the body behind it has the length of what is inside.
  obtain ⟨found, first, rest⟩ := first_openingInCode_types blank fit different
  have length :=
    (fit type (by simp)).bodyLength?_inside blank ('\n' :: back.flatMap (TypeText.print margin))
  refine ⟨found.after.offset, ?_⟩
  rw [body?_eq, first]
  simp [rest, length]

end Lineage.Java
