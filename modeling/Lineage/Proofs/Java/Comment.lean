import Lineage.Proofs.Java.Literal
import Lineage.Proofs.Java.Opening
import Mathlib.Data.List.Induction

/-! A comment put before a blank of a source: all other pieces of the source stay as they are. -/

namespace Lineage.Java

open Lineage.Text

/-- A comment that says little. -/
def comment : List Char :=
  "/* x */".toList

/-- No character of the comment means anything within a literal. -/
theorem comment_plain : ∀ c ∈ comment, c ≠ '\\' ∧ c ≠ '"' ∧ c ≠ '\'' ∧ c ≠ '\n' := by
  decide

variable {text rest source : List Char} {d : Char} {front front' row back : List Piece}
  {piece : Piece} {position : Nat}

/-- Characters without a meaning of their own are passed over on the way to the closing quote. -/
theorem closeQuote_append {quote : Char} (plain : ∀ c ∈ text, c ≠ '\\' ∧ c ≠ quote ∧ c ≠ '\n')
    (rest : List Char) :
    closeQuote quote (text ++ rest) = (closeQuote quote rest).map (· + text.length) := by
  induction text with
  | nil => simp
  | cons c text ih =>
    obtain ⟨notBackslash, notQuote, notFeed⟩ := plain c List.mem_cons_self
    rw [List.cons_append, closeQuote_plain notBackslash, if_neg notQuote, if_neg notFeed,
      ih fun d inside => plain d (List.mem_cons_of_mem c inside), Option.map_map]
    rfl

/-- Plain characters in front only shift the place where a text block closes. -/
theorem closeTextBlock_append (plain : ∀ c ∈ text, c ≠ '\\' ∧ c ≠ '"') (rest : List Char) :
    closeTextBlock (text ++ rest) = (closeTextBlock rest).map (· + text.length) := by
  induction text with
  | nil => simp
  | cons c text ih =>
    obtain ⟨notBackslash, notQuote⟩ := plain c List.mem_cons_self
    rw [List.cons_append, closeTextBlock_plain notBackslash fun _ same => absurd same notQuote,
      ih fun d inside => plain d (List.mem_cons_of_mem c inside), Option.map_map]
    rfl

section Unclosed

variable {c : Char} {more : List Char}

/-- A quote that nothing closes stays so when a comment is put before a blank behind it. -/
theorem closeQuote_comment {quote : Char} (isQuote : quote = '"' ∨ quote = '\'')
    (blank : isBlank c = true) (unclosed : closeQuote quote (text ++ c :: more) = none) :
    closeQuote quote (text ++ (comment ++ c :: more)) = none := by
  have notBackslash : c ≠ '\\' := ne_of_class blank (by decide)
  have notQuote : c ≠ quote := by
    rcases isQuote with rfl | rfl
    · exact ne_of_class blank (by decide)
    · exact ne_of_class blank (by decide)
  have plain : ∀ d ∈ comment, d ≠ '\\' ∧ d ≠ quote ∧ d ≠ '\n' := by
    intro d inside
    obtain ⟨first, second, third, last⟩ := comment_plain d inside
    rcases isQuote with rfl | rfl
    · exact ⟨first, second, last⟩
    · exact ⟨first, third, last⟩
  -- What comes behind the comment is looked at as before.
  have passed : closeQuote quote more = none → closeQuote quote (c :: more) = none := by
    intro unclosedMore
    rw [closeQuote_plain notBackslash, if_neg notQuote, unclosedMore]
    simp
  induction text using closeQuote.induct quote with
  | case1 =>
    rw [List.nil_append] at unclosed ⊢
    rw [closeQuote_append plain, unclosed, Option.map_none]
  | case2 escaped rest ih =>
    rw [List.cons_append, List.cons_append, closeQuote_escape, Option.map_eq_none_iff] at unclosed ⊢
    exact ih unclosed
  | case3 d rest alone closes =>
    -- A quote would have closed the literal already.
    have same : d = quote := by simpa using closes
    have plainQuote : d ≠ '\\' := by rcases isQuote with rfl | rfl <;> rw [same] <;> decide
    rw [List.cons_append, closeQuote_plain plainQuote, if_pos same] at unclosed
    cases unclosed
  | case4 d rest alone differs breaks =>
    have different : d ≠ quote := by simpa using differs
    by_cases backslash : d = '\\'
    · -- A backslash at the end takes the slash of the comment with it, in place of the blank.
      subst backslash
      cases rest with
      | cons escaped rest => exact absurd rfl (alone escaped rest rfl)
      | nil =>
        rw [List.singleton_append, closeQuote_escape, Option.map_eq_none_iff] at unclosed
        have split : ['\\'] ++ (comment ++ c :: more) = '\\' :: '/' ::
          (comment.tail ++ c :: more) := rfl
        rw [split, closeQuote_escape,
          closeQuote_append (fun e inside => plain e (List.mem_of_mem_tail inside)),
          passed unclosed]
        rfl
    · have lineFeed : d = '\n' := by simpa [backslash] using breaks
      rw [List.cons_append, closeQuote_plain backslash, if_neg different, if_pos lineFeed]
  | case5 d rest alone differs goesOn ih =>
    have different : d ≠ quote := by simpa using differs
    obtain ⟨notFeed, plainHere⟩ : d ≠ '\n' ∧ d ≠ '\\' := by simpa using goesOn
    rw [List.cons_append, closeQuote_plain plainHere, if_neg different, if_neg notFeed,
      Option.map_eq_none_iff]
      at unclosed ⊢
    exact ih unclosed

/-- What begins with another character than a slash begins before the comment. -/
theorem cons_of_comment (notSlash : d ≠ '/') (split : text ++ (comment ++ c :: more) = d :: rest) :
    ∃ tail, text = d :: tail ∧ rest = tail ++ (comment ++ c :: more) := by
  -- With no text before the comment the first character would be its slash.
  cases text with
  | nil => exact absurd (List.cons.inj split).1.symm notSlash
  | cons e text =>
    obtain ⟨rfl, rfl⟩ := List.cons.inj split
    exact ⟨text, rfl, rfl⟩

/-- A comment before a blank does not close a text block that stays open without it. -/
theorem closeTextBlock_comment (blank : isBlank c = true)
    (unclosed : closeTextBlock (text ++ c :: more) = none) :
    closeTextBlock (text ++ (comment ++ c :: more)) = none := by
  have notBackslash : c ≠ '\\' := ne_of_class blank (by decide)
  have notQuote : c ≠ '"' := ne_of_class blank (by decide)
  have plain : ∀ d ∈ comment, d ≠ '\\' ∧ d ≠ '"' := fun d inside =>
    ⟨(comment_plain d inside).1, (comment_plain d inside).2.1⟩
  induction text using closeTextBlock.induct with
  | case1 =>
    rw [List.nil_append] at unclosed ⊢
    rw [closeTextBlock_append plain, unclosed, Option.map_none]
  | case2 rest =>
    rw [List.cons_append, List.cons_append, List.cons_append, closeTextBlock] at unclosed
    cases unclosed
  | case3 escaped rest ih =>
    rw [List.cons_append, List.cons_append, closeTextBlock_escape, Option.map_eq_none_iff]
      at unclosed ⊢
    exact ih unclosed
  | case4 d rest _ alone backslash =>
    have isBackslash : d = '\\' := by simpa using backslash
    subst isBackslash
    cases rest with
    | cons escaped rest => exact absurd rfl (alone escaped rest rfl)
    | nil =>
      -- The backslash takes the slash of the comment with it, in place of the blank.
      rw [List.singleton_append, closeTextBlock_escape, Option.map_eq_none_iff] at unclosed
      have split : ['\\'] ++ (comment ++ c :: more) = '\\' :: '/' :: (comment.tail ++ c :: more) :=
        rfl
      rw [split, closeTextBlock_escape,
        closeTextBlock_append (fun e inside => plain e (List.mem_of_mem_tail inside)),
        closeTextBlock_plain notBackslash fun _ same => absurd same notQuote, unclosed]
      rfl
  | case5 d rest goesOn alone plainHere ih =>
    have notEscape : d ≠ '\\' := by simpa using plainHere
    have further : ∀ tail, d = '"' → rest ++ (comment ++ c :: more) ≠ '"' :: '"' :: tail := by
      intro tail isQuote split
      obtain ⟨rest, rfl, behind⟩ := cons_of_comment (by decide) split
      obtain ⟨rest, rfl, _⟩ := cons_of_comment (by decide) behind.symm
      exact goesOn rest isQuote rfl
    -- Three quotes would have closed the text block already.
    have furtherHere : ∀ tail, d = '"' → rest ++ c :: more ≠ '"' :: '"' :: tail := by
      rintro tail rfl split
      have closes : closeTextBlock ('"' :: rest ++ c :: more) = some 3 := by
        rw [List.cons_append, split, closeTextBlock]
      rw [closes] at unclosed
      cases unclosed
    rw [List.cons_append, closeTextBlock_plain notEscape furtherHere, Option.map_eq_none_iff]
      at unclosed
    rw [List.cons_append, closeTextBlock_plain notEscape further, ih unclosed]
    rfl

/-- A comment before a blank makes no text block begin. -/
theorem textBlock?_comment (blank : isBlank c = true)
    (nothing : textBlock? (text ++ c :: more) = none) :
    textBlock? (text ++ (comment ++ c :: more)) = none := by
  by_contra something
  obtain ⟨length, found⟩ := Option.ne_none_iff_exists'.mp something
  obtain ⟨rest, inner, split, closed, _⟩ := textBlock?_eq_some.mp found
  -- The three quotes stand before the comment.
  obtain ⟨one, rfl, behindOne⟩ := cons_of_comment (by decide) split
  obtain ⟨two, rfl, behindTwo⟩ := cons_of_comment (by decide) behindOne.symm
  obtain ⟨three, rfl, rfl⟩ := cons_of_comment (by decide) behindTwo.symm
  have unclosed : closeTextBlock (three ++ c :: more) = none := by simpa [textBlock?] using nothing
  rw [closeTextBlock_comment blank unclosed] at closed
  cases closed

/-- A comment before a blank makes no string begin. -/
theorem string?_comment (blank : isBlank c = true) (nothing : string? (text ++ c :: more) = none) :
    string? (text ++ (comment ++ c :: more)) = none := by
  -- A string would begin before the comment, and its end would be found without the comment too.
  by_contra something
  obtain ⟨length, found⟩ := Option.ne_none_iff_exists'.mp something
  obtain ⟨rest, inner, split, closed, _⟩ := string?_eq_some.mp found
  obtain ⟨tail, rfl, rfl⟩ := cons_of_comment (by decide) split
  have unclosed : closeQuote '"' (tail ++ c :: more) = none := by simpa [string?] using nothing
  rw [closeQuote_comment (Or.inl rfl) blank unclosed] at closed
  cases closed

/-- A comment before a blank makes no character literal begin. -/
theorem character?_comment (blank : isBlank c = true)
    (nothing : character? (text ++ c :: more) = none) :
    character? (text ++ (comment ++ c :: more)) = none := by
  by_contra something
  obtain ⟨length, found⟩ := Option.ne_none_iff_exists'.mp something
  obtain ⟨rest, inner, split, notEmpty, closed, _⟩ := character?_eq_some.mp found
  obtain ⟨tail, rfl, rfl⟩ := cons_of_comment (by decide) split
  -- The two quotes of an empty literal would stand before the comment as well.
  have stillNotEmpty : (tail ++ c :: more).head? ≠ some '\'' := by
    cases tail with
    | nil => simpa using (ne_of_class blank (by decide) : c ≠ '\'')
    | cons d tail => exact notEmpty
  have unclosed : closeQuote '\'' (tail ++ c :: more) = none := by
    by_contra closes
    obtain ⟨inner, closedHere⟩ := Option.ne_none_iff_exists'.mp closes
    have here : character? ('\'' :: tail ++ c :: more) = some (inner + 1) :=
      character?_eq_some.mpr ⟨_, inner, rfl, stillNotEmpty, closedHere, rfl⟩
    rw [here] at nothing
    cases nothing
  rw [closeQuote_comment (Or.inr rfl) blank unclosed] at closed
  cases closed

/-- A comment inserted behind some text makes no block comment begin at that text. -/
theorem blockComment?_comment (nonempty : text ≠ [])
    (nothing : blockComment? (text ++ c :: more) = none) :
    blockComment? (text ++ (comment ++ c :: more)) = none := by
  -- Its first two characters would both stand before the inserted comment.
  by_contra something
  obtain ⟨length, found⟩ := Option.ne_none_iff_exists'.mp something
  obtain ⟨rest, split, _⟩ := blockComment?_eq_some.mp found
  obtain ⟨d, text, rfl⟩ := List.exists_cons_of_ne_nil nonempty
  obtain ⟨rfl, behind⟩ := List.cons.inj split
  obtain ⟨tail, rfl, _⟩ := cons_of_comment (by decide) behind
  cases nothing

/-- A comment inserted behind some text makes no line comment begin at that text, unless the text is
a slash. -/
theorem lineComment?_comment (nonempty : text ≠ []) (notSlash : text ≠ ['/'])
    (nothing : lineComment? (text ++ c :: more) = none) :
    lineComment? (text ++ (comment ++ c :: more)) = none := by
  by_contra something
  obtain ⟨length, found⟩ := Option.ne_none_iff_exists'.mp something
  obtain ⟨rest, split, _⟩ := lineComment?_eq_some.mp found
  obtain ⟨d, text, rfl⟩ := List.exists_cons_of_ne_nil nonempty
  obtain ⟨rfl, behind⟩ := List.cons.inj split
  -- The second slash would be that of the comment, or has been there before.
  cases text with
  | nil => exact notSlash rfl
  | cons e text =>
    obtain ⟨rfl, _⟩ := List.cons.inj behind
    cases nothing

/-- Where nothing of a kind begins, nothing of it begins when a comment is put before a blank
further on, unless a slash stands right before it. -/
theorem LiteralKind.find_comment {kind : LiteralKind} (blank : isBlank c = true)
    (nonempty : text ≠ []) (notSlash : kind = .lineComment → text ≠ ['/'])
    (nothing : kind.find (text ++ c :: more) = none) :
    kind.find (text ++ (comment ++ c :: more)) = none := by
  cases kind with
  | textBlock => exact textBlock?_comment blank nothing
  | string => exact string?_comment blank nothing
  | character => exact character?_comment blank nothing
  | blockComment => exact blockComment?_comment nonempty nothing
  | lineComment => exact lineComment?_comment nonempty (notSlash rfl) nothing

/-- No literal begins there either. -/
theorem literalAt_comment (blank : isBlank c = true) (nonempty : text ≠ [])
    (notSlash : text ≠ ['/']) (nothing : literalAt (text ++ c :: more) = none) :
    literalAt (text ++ (comment ++ c :: more)) = none :=
  literalAt_eq_none.mpr fun kind =>
    kind.find_comment blank nonempty (fun _ => notSlash) (literalAt_eq_none.mp nothing kind)

end Unclosed

/-- A literal that is closed before a comment put in further on stays as it is. A line comment
reaches up to the next line feed, so something has to stand between. -/
theorem literalAt_before_comment {c : Char} (blank : isBlank c = true) {inner more : List Char}
    {kind : LiteralKind}
    (found : literalAt (text ++ (inner ++ c :: more)) = some (kind, text.length))
    (between : kind = .lineComment → inner ≠ []) :
    literalAt (text ++ (inner ++ (comment ++ c :: more))) = some (kind, text.length) := by
  obtain ⟨positive, _⟩ := literalAt_length found
  have nonempty : text ++ inner ≠ [] := by
    intro empty
    rw [(List.append_eq_nil_iff.mp empty).1] at positive
    simp at positive
  obtain ⟨here, nothing⟩ := literalAt_eq_some.mp found
  refine literalAt_eq_some.mpr ⟨?_, fun earlier before => ?_⟩
  · by_cases line : kind = .lineComment
    · subst line
      obtain ⟨inside, rfl, oneLine, ended⟩ := lineComment?_eq_length_iff.mp here
      obtain ⟨d, inner, rfl⟩ := List.exists_cons_of_ne_nil (between rfl)
      rw [LiteralKind.find, lineComment?_eq_length_iff]
      exact ⟨inside, rfl, oneLine, ended⟩
    · -- Something stands behind the literal, the blank if nothing else.
      obtain ⟨d, rest, isRest⟩ : ∃ d rest, inner ++ c :: more = d :: rest := by
        cases inner with
        | nil => exact ⟨c, more, rfl⟩
        | cons d inner => exact ⟨d, _, rfl⟩
      rw [isRest] at here
      exact kind.find_other here line _
  · -- Kinds that were not there before are not there now; line comments are tried last.
    have notLast : earlier ≠ .lineComment := by
      rintro rfl
      cases kind <;> simp [LiteralKind.turn] at before
    have nowhere := nothing earlier before
    rw [← List.append_assoc] at nowhere ⊢
    exact earlier.find_comment blank nonempty (fun last => absurd last notLast) nowhere

/-- The pieces before a blank and what becomes of them when a comment is put before the blank: it is
one more piece, or is swallowed by a line comment that stands there. -/
inductive Commented : List Piece → List Piece → Prop where
  | apart {front : List Piece} : (∀ text, front.getLast? ≠ some (.literal .lineComment text)) →
    Commented front (front ++ [.literal .blockComment comment])
  | swallowed {front : List Piece} {text : List Char} :
    Commented (front ++ [.literal .lineComment text])
      (front ++ [.literal .lineComment (text ++ comment)])

/-- An item is not the last one of a list if it is neither the only one nor the last one behind the
first. -/
theorem getLast?_cons_ne {α : Type} {first last : α} {list : List α}
    (notFirst : list = [] → first ≠ last) (notLast : list.getLast? ≠ some last) :
    (first :: list).getLast? ≠ some last := by
  cases list with
  | nil => simpa using notFirst rfl
  | cons second list => rwa [List.getLast?_cons_cons]

/-- A piece before both rows keeps them a row and its commented copy. -/
theorem Commented.cons (commented : Commented front front')
    (notLast : front = [] → ∀ text, piece ≠ .literal .lineComment text) :
    Commented (piece :: front) (piece :: front') := by
  cases commented with
  | apart noLine =>
    exact .apart fun text => getLast?_cons_ne (fun empty => notLast empty text) (noLine text)
  | @swallowed front text => exact @Commented.swallowed (piece :: front) text

/-- Every piece takes something of the source. -/
theorem Lexed.source_ne_nil (lexed : Lexed source (piece :: row)) : piece.source ≠ [] := by
  cases piece with
  | code c => simp [Piece.source]
  | literal kind text =>
    obtain ⟨_, _, found, _⟩ := lexed.of_literal
    obtain ⟨positive, _⟩ := literalAt_length found
    exact List.ne_nil_of_length_pos (show 0 < text.length by omega)

/-- The literal at the front of a text is a line comment just where a line comment begins. -/
theorem literalAt_lineComment_iff {length : Nat} :
    literalAt text = some (.lineComment, length) ↔ lineComment? text = some length := by
  refine literalAt_eq_some.trans ⟨And.left, fun line => ⟨line, fun earlier before => ?_⟩⟩
  obtain ⟨rest, rfl, _⟩ := lineComment?_eq_some.mp line
  cases earlier <;> first | rfl | simp [LiteralKind.turn] at before

/-- A comment put before a blank that is code leaves the other pieces as they are, unless a slash of
code stands right before it. -/
theorem Lexed.insert {c : Char} (blank : isBlank c = true)
    (lexed : Lexed source (front ++ .code c :: back))
    (noSlash : front.getLast? ≠ some (.code '/')) :
    ∃ front', Commented front front' ∧
      Lexed (sourceOf front ++ (comment ++ c :: sourceOf back)) (front' ++ .code c :: back) := by
  induction front generalizing source with
  | nil =>
    -- The comment stands at the front, and is a piece of its own.
    have found : literalAt (comment ++ c :: sourceOf back) = some (.blockComment, comment.length) :=
      rfl
    exact ⟨_, .apart (by simp), .literal found lexed.drop⟩
  | cons piece front ih =>
    rw [List.cons_append] at lexed
    have noSlashBehind : front.getLast? ≠ some (.code '/') := by
      cases front with
      | nil => simp
      | cons second front => rwa [List.getLast?_cons_cons] at noSlash
    -- What stands behind the piece and before the blank is empty only if there are no pieces.
    have someSource : ∀ {rest : List Char}, Lexed rest (front ++ .code c :: back) → front ≠ [] →
        sourceOf front ≠ [] := by
      intro rest further someFront
      obtain ⟨second, front, rfl⟩ := List.exists_cons_of_ne_nil someFront
      simp [further.source_ne_nil]
    cases piece with
    | code d =>
      -- A character of code stays one, since no literal begins there with the comment further on.
      obtain ⟨rest, rfl, nothing, further⟩ := lexed.of_code
      obtain ⟨front', commented, lexed'⟩ := ih further noSlashBehind
      refine ⟨.code d :: front', commented.cons (by simp), .code ?_ lexed'⟩
      have isRest : d :: rest = d :: sourceOf front ++ c :: sourceOf back := by
        rw [← further.sourceOf_eq]
        simp [Piece.source]
      rw [isRest] at nothing
      refine literalAt_comment blank (by simp) (fun slash => ?_) nothing
      obtain ⟨rfl, nothingBehind⟩ := List.cons.inj slash
      cases front with
      | nil => exact noSlash rfl
      | cons second front => exact someSource further (by simp) nothingBehind
    | literal kind text =>
      obtain ⟨rest, rfl, found, further⟩ := lexed.of_literal
      have isRest : rest = sourceOf front ++ c :: sourceOf back := by
        rw [← further.sourceOf_eq]
        simp [Piece.source]
      rw [isRest] at found
      by_cases last : front = [] ∧ kind = .lineComment
      · -- A line comment goes on through the new comment, up to the same line feed.
        obtain ⟨rfl, rfl⟩ := last
        refine ⟨_, @Commented.swallowed [] text, ?_⟩
        obtain ⟨inner, rfl, oneLine, ended⟩ :=
          lineComment?_eq_length_iff.mp (literalAt_lineComment_iff.mp found)
        have longer : lineComment? (('/' :: '/' :: inner ++ comment) ++ c :: sourceOf back) =
            some ('/' :: '/' :: inner ++ comment).length :=
          lineComment?_eq_length_iff.mpr ⟨inner ++ comment, rfl, List.forall_mem_append.mpr
            ⟨oneLine, fun e inside => (comment_plain e inside).2.2.2⟩, ended⟩
        have lexed' := Lexed.literal (literalAt_lineComment_iff.mpr longer) further.drop
        simpa [Piece.source] using lexed'
      · -- Any other literal ends before the comment as it did before the blank.
        obtain ⟨front', commented, lexed'⟩ := ih further noSlashBehind
        have between : kind = .lineComment → sourceOf front ≠ [] := fun isLine =>
          someSource further fun empty => last ⟨empty, isLine⟩
        refine ⟨.literal kind text :: front', commented.cons ?_, ?_⟩
        · rintro empty _ same
          cases same
          exact last ⟨empty, rfl⟩
        · have lexedHere := Lexed.literal (literalAt_before_comment blank found between) lexed'
          simpa [Piece.source] using lexedHere

/-- A position of a source that holds code. -/
def CodeAt (source : List Char) (position : Nat) : Prop :=
  ∃ front c back, pieces source = front ++ .code c :: back ∧ (sourceOf front).length = position

/-- Every position in the text of a row lies in one of its pieces. -/
theorem exists_piece (within : position < (sourceOf row).length) :
    ∃ front piece back inside, row = front ++ piece :: back ∧ inside < piece.source.length ∧
      (sourceOf front).length + inside = position := by
  induction row generalizing position with
  | nil => simp at within
  | cons piece row ih =>
    by_cases here : position < piece.source.length
    · exact ⟨[], piece, row, position, rfl, here, by simp⟩
    · obtain ⟨front, other, back, inside, rfl, isInside, sized⟩ :=
        @ih (position - piece.source.length)
          (by rw [sourceOf_cons, List.length_append] at within; omega)
      exact ⟨piece :: front, other, back, inside, rfl,
        isInside, by rw [sourceOf_cons, List.length_append]; omega⟩

/-- Code is what lies in no span. -/
theorem codeAt_iff (within : position < source.length) :
    CodeAt source position ↔ inSpan (literalSpans source) position = false := by
  -- A position lies in one piece only, and this piece is code or it is covered by a span.
  constructor
  · rintro ⟨front, c, back, whole, rfl⟩
    rw [literalSpans, whole]
    exact inSpan_code front back c
  · intro uncovered
    rw [← sourceOf_pieces source] at within
    obtain ⟨front, piece, back, inside, whole, isInside, rfl⟩ := exists_piece within
    cases piece with
    | code c =>
      obtain rfl : inside = 0 := by simpa [Piece.source] using isInside
      exact ⟨front, c, back, whole, rfl⟩
    | literal kind text =>
      have covered := inSpan_literal front back kind (show inside < text.length from isInside)
      rw [literalSpans, whole, covered] at uncovered
      cases uncovered

/-- Code before a character of code, this character, and code behind it. -/
theorem codeAt_cases {c : Char} (whole : pieces source = front ++ .code c :: back) :
    CodeAt source position ↔ (∃ one d more, front = one ++ .code d :: more ∧
      (sourceOf one).length = position) ∨
      (sourceOf front).length = position ∨
        ∃ one d more, back = one ++ .code d :: more ∧
          (sourceOf front).length + 1 + (sourceOf one).length = position := by
  -- A piece of code lies before the marked one, is the marked one, or lies behind it.
  unfold CodeAt
  rw [whole]
  constructor
  · rintro ⟨one, d, other, split, rfl⟩
    rcases append_cons_cases split with ⟨more, rfl, rfl⟩ | ⟨rfl, _, _⟩ | ⟨more, rfl, rfl⟩
    · refine Or.inr (Or.inr ⟨more, d, other, rfl, ?_⟩)
      simp only [sourceOf_append, sourceOf_cons, Piece.source, List.length_append,
        List.length_singleton]
      omega
    · exact Or.inr (Or.inl rfl)
    · exact Or.inl ⟨one, d, more, rfl, rfl⟩
  · rintro (⟨one, d, more, rfl, rfl⟩ | rfl | ⟨one, d, more, rfl, rfl⟩)
    · exact ⟨one, d, more ++ .code c :: back, by simp, rfl⟩
    · exact ⟨front, c, back, rfl, rfl⟩
    · refine ⟨front ++ .code c :: one, d, more, by simp, ?_⟩
      simp only [sourceOf_append, sourceOf_cons, Piece.source, List.length_append,
        List.length_singleton]
      omega

/-- A comment is put among the pieces without a change to the code among them. -/
theorem Commented.code_iff (commented : Commented front front') (one : List Piece) (d : Char) :
    (∃ more, front = one ++ .code d :: more) ↔ ∃ more, front' = one ++ .code d :: more := by
  -- A character of code is not the literal at the end.
  have inner : ∀ {init more : List Piece} {kind : LiteralKind} {text : List Char},
      init ++ [.literal kind text] = one ++ .code d :: more →
        ∃ more, init = one ++ .code d :: more := by
    intro init more kind text split
    rcases append_cons_cases split with ⟨more, rfl, behind⟩ | ⟨_, same, _⟩ | ⟨more, rfl, _⟩
    · simp at behind
    · cases same
    · exact ⟨more, rfl⟩
  cases commented with
  | apart =>
    constructor
    · rintro ⟨more, rfl⟩
      exact ⟨more ++ [.literal .blockComment comment], by simp⟩
    · rintro ⟨more, split⟩
      exact inner split
  | swallowed =>
    constructor
    · rintro ⟨more, split⟩
      obtain ⟨more, rfl⟩ := inner split
      exact ⟨more ++ _, by rw [List.append_assoc]; rfl⟩
    · rintro ⟨more, split⟩
      obtain ⟨more, rfl⟩ := inner split
      exact ⟨more ++ _, by rw [List.append_assoc]; rfl⟩

/-- The commented row is longer by the comment. -/
theorem Commented.length_eq (commented : Commented front front') :
    (sourceOf front').length = (sourceOf front).length + comment.length := by
  cases commented with
  | apart => simp [Piece.source]
  | swallowed => simp [Piece.source, Nat.add_assoc]

/-- The comment leaves a space, or nothing if it is swallowed. -/
theorem Commented.blanked_eq (commented : Commented front front') :
    ((∀ text, front.getLast? ≠ some (.literal .lineComment text)) ∧
        front'.flatMap Piece.blanked = front.flatMap Piece.blanked ++ [' ']) ∨
      front'.flatMap Piece.blanked = front.flatMap Piece.blanked := by
  cases commented with
  | apart noLine =>
    refine Or.inl ⟨noLine, ?_⟩
    rw [List.flatMap_append]
    rfl
  | swallowed => exact Or.inr (by simp [Piece.blanked])

/-- The code before the blank stays where it is, the blank and all behind it move by the length of
the comment, and no other code comes in. -/
theorem codeAt_comment {source' : List Char} {c : Char}
    (whole : pieces source = front ++ .code c :: back)
    (whole' : pieces source' = front' ++ .code c :: back) (commented : Commented front front') :
    CodeAt source' position ↔ position < (sourceOf front).length ∧ CodeAt source position ∨
      ∃ earlier, (sourceOf front).length ≤ earlier ∧ position = earlier + comment.length ∧
        CodeAt source earlier := by
  -- The pieces before the comment stay where they are, and those behind it are shifted by its
  -- length.
  have shorter : ∀ {one more : List Piece} {d : Char}, front = one ++ .code d :: more →
      (sourceOf one).length < (sourceOf front).length := by
    rintro one more d rfl
    simp only [sourceOf_append, sourceOf_cons, Piece.source, List.length_append,
      List.length_singleton]
    omega
  simp only [codeAt_cases whole', codeAt_cases whole, commented.length_eq]
  constructor
  · rintro (⟨one, d, more, inFront, rfl⟩ | rfl | ⟨one, d, more, inBack, rfl⟩)
    · obtain ⟨more, inFront⟩ := (commented.code_iff one d).mpr ⟨more, inFront⟩
      exact Or.inl ⟨shorter inFront, Or.inl ⟨one, d, more, inFront, rfl⟩⟩
    · exact Or.inr ⟨_, Nat.le_refl _, rfl, Or.inr (Or.inl rfl)⟩
    · exact Or.inr ⟨(sourceOf front).length + 1 + (sourceOf one).length, by omega, by omega,
        Or.inr (Or.inr ⟨one, d, more, inBack, rfl⟩)⟩
  · rintro (⟨before, ⟨one, d, more, inFront, rfl⟩ | rfl | ⟨one, d, more, inBack, rfl⟩⟩ |
      ⟨earlier, behind, rfl, ⟨one, d, more, inFront, rfl⟩ | rfl | ⟨one, d, more, inBack, rfl⟩⟩)
    · obtain ⟨more, inFront⟩ := (commented.code_iff one d).mp ⟨more, inFront⟩
      exact Or.inl ⟨one, d, more, inFront, rfl⟩
    · omega
    · omega
    · have := shorter inFront
      omega
    · exact Or.inr (Or.inl rfl)
    · exact Or.inr (Or.inr ⟨one, d, more, inBack, by omega⟩)

/-- What stands for a piece other than a line comment ends with a letter only if the piece is this
letter. -/
theorem Piece.eq_code_of_last {c : Char} (last : piece.blanked.getLast? = some c)
    (isName : isNameChar c = true) : piece = .code c := by
  -- A literal is blanked to line feeds and marks, and none of these is part of a name.
  have notMark : ∀ {text : List Char}, text.getLast? = some c → (∀ d ∈ text, isNameChar d = false) →
      False := by
    intro text isLast outside
    rw [outside c (List.mem_of_getLast? isLast)] at isName
    cases isName
  have feeds : ∀ text, ∀ d ∈ lineFeeds text, isNameChar d = false := by
    intro text d inside
    rw [lineFeeds, List.mem_filter, beq_iff_eq] at inside
    rw [inside.2]
    decide
  cases piece with
  | code d => simpa [Piece.blanked] using last
  | literal kind text =>
    exfalso
    cases kind with
    | textBlock => exact notMark last (by simpa [Piece.blanked] using ⟨by decide, feeds text⟩)
    | string => exact notMark last (show ∀ d ∈ ['"', '"'], isNameChar d = false by decide)
    | character => exact notMark last (show ∀ d ∈ ['\'', ' ', '\''], isNameChar d = false by decide)
    | blockComment => exact notMark last (by simpa [Piece.blanked] using ⟨by decide, feeds text⟩)
    | lineComment => cases last

/-- A line comment is followed by a line feed. -/
theorem Lexed.feed_behind (lexed : Lexed source (.literal .lineComment text :: .code d :: row)) :
    d = '\n' := by
  obtain ⟨rest, rfl, found, further⟩ := lexed.of_literal
  obtain ⟨rest, rfl, _⟩ := further.of_code
  obtain ⟨_, _, _, ended⟩ := lineComment?_eq_length_iff.mp (literalAt_lineComment_iff.mp found)
  simpa using ended

/-- A word at the end of a blanked text stands at the end of the source, unless a line comment
stands there. -/
theorem suffix_of_blanked {word : List Char} (letters : ∀ c ∈ word, isNameChar c = true)
    (lexed : Lexed source (row ++ back))
    (noLine : ∀ text, row.getLast? ≠ some (.literal .lineComment text))
    (ends : row.flatMap Piece.blanked = rest ++ word) : word <:+ sourceOf row := by
  -- The last letter is the last piece, and the letters before it come before that piece.
  induction word using List.reverseRecOn generalizing row back with
  | nil => exact List.nil_suffix
  | append_singleton word c ih =>
    rcases List.eq_nil_or_concat row with rfl | ⟨init, piece, rfl⟩
    · simp at ends
    · rw [List.concat_eq_append] at ends noLine lexed ⊢
      have isName : isNameChar c = true := letters c (by simp)
      have isLast : piece.blanked.getLast? = some c := by
        have lasts := congrArg List.getLast? ends
        have something : piece.blanked ≠ [] := by
          intro empty
          cases piece with
          | code d => cases empty
          | literal kind text =>
            cases kind with
            | lineComment => exact noLine text (by simp)
            | textBlock | string | character | blockComment => cases empty
        rw [List.flatMap_append, List.flatMap_singleton, List.getLast?_append, ← List.append_assoc,
          List.getLast?_concat] at lasts
        cases found : piece.blanked.getLast? with
        | none => exact absurd (List.getLast?_eq_none_iff.mp found) something
        | some d =>
          rw [found] at lasts
          simpa using lasts
      obtain rfl := Piece.eq_code_of_last isLast isName
      have shorter : init.flatMap Piece.blanked = rest ++ word := by
        rw [List.flatMap_append, ← List.append_assoc] at ends
        exact (List.append_inj' ends rfl).1
      rw [List.append_assoc] at lexed
      have noLineBefore : ∀ text, init.getLast? ≠ some (.literal .lineComment text) := by
        intro text isLine
        obtain ⟨front, rfl⟩ := List.getLast?_eq_some_iff.mp isLine
        rw [List.append_assoc] at lexed
        rw [(show Lexed _ (.literal .lineComment text :: .code c ::
          back) from lexed.drop).feed_behind] at isName
        cases isName
      have lettersBefore : ∀ d ∈ word, isNameChar d = true :=
        fun d inside => letters d (List.mem_append_left _ inside)
      obtain ⟨before, isSource⟩ := ih lettersBefore lexed noLineBefore shorter
      exact ⟨before, by simp [← isSource, Piece.source]⟩

/-- A character that stands for no literal is at the front of a source if it is at the front of the
blanked text. -/
theorem head?_of_blanked {c : Char} (first : (blanked source).head? = some c)
    (isMark : c ≠ '"' ∧ c ≠ '\'' ∧ c ≠ ' ' ∧ c ≠ '\n') : source.head? = some c := by
  have lexed := lexed_pieces source
  rw [blanked] at first
  generalize pieces source = row at lexed first
  cases lexed with
  | done => cases first
  | code _ _ => simpa [Piece.blanked] using first
  | @literal kind text rest row found further =>
    exfalso
    cases kind with
    | textBlock | string =>
      simp only [List.flatMap_cons, Piece.blanked, List.cons_append, List.head?_cons,
        Option.some.injEq] at first
      exact isMark.1 first.symm
    | character =>
      simp only [List.flatMap_cons, Piece.blanked, List.cons_append, List.head?_cons,
        Option.some.injEq] at first
      exact isMark.2.1 first.symm
    | blockComment =>
      simp only [List.flatMap_cons, Piece.blanked, List.cons_append, List.head?_cons,
        Option.some.injEq] at first
      exact isMark.2.2.1 first.symm
    | lineComment =>
      -- Behind a line comment comes a line feed, if anything.
      obtain ⟨_, _, _, ended⟩ := lineComment?_eq_length_iff.mp (literalAt_lineComment_iff.mp found)
      cases further with
      | done => cases first
      | @code d rest row _ _ =>
        obtain rfl : d = '\n' := by simpa using ended
        simp only [List.flatMap_cons, Piece.blanked, List.nil_append, List.cons_append,
          List.head?_cons, Option.some.injEq] at first
        exact isMark.2.2.2 first.symm
      | @literal kind' text' rest row found' further' =>
        obtain ⟨d, more, rfl, opens⟩ := (Lexed.literal found' further').opener
        obtain rfl : d = '\n' := by simpa using ended
        cases opens

end Lineage.Java
