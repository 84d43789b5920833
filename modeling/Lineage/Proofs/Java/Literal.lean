import Lineage.Java.Body
import Mathlib.Data.List.TakeWhile

/-! A source is the concatenation of its pieces, and pieces do not depend on what lies beyond
them. -/

namespace Lineage.Java

/-- The characters of the source that a piece takes. -/
def Piece.source : Piece → List Char
  | .code c => [c]
  | .literal _ text => text

/-- The text that pieces in a row take. -/
def sourceOf (row : List Piece) : List Char :=
  row.flatMap Piece.source

@[simp] theorem sourceOf_nil : sourceOf [] = [] :=
  rfl

@[simp] theorem sourceOf_cons (piece : Piece) (row : List Piece) :
    sourceOf (piece :: row) = piece.source ++ sourceOf row :=
  List.flatMap_cons

@[simp] theorem sourceOf_append (one other : List Piece) :
    sourceOf (one ++ other) = sourceOf one ++ sourceOf other :=
  List.flatMap_append

@[simp] theorem sourceOf_map_code (text : List Char) : sourceOf (text.map .code) = text := by
  induction text with
  | nil => rfl
  | cons c text ih => simp [Piece.source, ih]

/-- Quotes and slashes are the characters with which literals and comments begin. -/
def isOpener (c : Char) : Bool :=
  c == '"' || c == '\'' || c == '/'

/-- A backslash takes the next character with it. -/
theorem closeQuote_escape (quote escaped : Char) (rest : List Char) :
    closeQuote quote ('\\' :: escaped :: rest) = (closeQuote quote rest).map (· + 2) := by
  rw [closeQuote]

variable {c quote : Char} {text rest more kept part source : List Char} {length : Nat}
  {kind : LiteralKind} {row : List Piece}

/-- Any other character closes the literal, breaks it off, or belongs to it. -/
theorem closeQuote_plain (plain : c ≠ '\\') (quote : Char) (rest : List Char) :
    closeQuote quote (c :: rest) =
      if c = quote then some 1 else if c = '\n' then
        none else (closeQuote quote rest).map (· + 1) := by
  rw [closeQuote]
  · simp [plain]
  · intro _ _ same
    exact absurd same plain

/-- A closing quote takes at least its own place. -/
theorem closeQuote_pos (closed : closeQuote quote text = some length) : 0 < length := by
  fun_induction closeQuote quote text generalizing length with
  | case1 => cases closed
  | case2 escaped rest ih =>
    obtain ⟨inner, _, rfl⟩ := Option.map_eq_some_iff.mp closed
    omega
  | case3 => cases closed; omega
  | case4 => cases closed
  | case5 c rest _ _ _ ih =>
    obtain ⟨inner, _, rfl⟩ := Option.map_eq_some_iff.mp closed
    omega

/-- What is found within the same reach is found there also some characters further on. -/
theorem map_add_eq_some_iff {one other : Option Nat} {reach : Nat}
    (same : ∀ length, one = some length ↔ other = some length ∧ length ≤ reach)
    (step length : Nat) :
    one.map (· + step) = some length ↔ other.map (· + step) = some length ∧
      length ≤ reach + step := by
  -- The step is added on both sides, and the bound grows with it.
  simp only [Option.map_eq_some_iff]
  constructor
  · rintro ⟨inner, found, rfl⟩
    obtain ⟨further, short⟩ := (same inner).mp found
    exact ⟨⟨inner, further, rfl⟩, by omega⟩
  · rintro ⟨⟨inner, further, rfl⟩, short⟩
    exact ⟨inner, (same inner).mpr ⟨further, by omega⟩, rfl⟩

/-- A text closes a literal exactly where every longer text closes it within the same reach. -/
theorem closeQuote_eq_some_iff (isQuote : quote ≠ '\\') (text more : List Char) (length : Nat) :
    closeQuote quote text = some length ↔
      closeQuote quote (text ++ more) = some length ∧ length ≤ text.length := by
  fun_induction closeQuote quote text generalizing length with
  | case1 =>
    -- Nothing is closed by no text at all.
    refine ⟨nofun, fun ⟨closed, short⟩ => ?_⟩
    have := closeQuote_pos closed
    simp only [List.length_nil] at short
    omega
  | case2 escaped rest ih =>
    -- Two characters are passed over in either text.
    rw [List.cons_append, List.cons_append, closeQuote_escape]
    exact map_add_eq_some_iff ih 2 length
  | case3 c rest alone closes =>
    have same : c = quote := by simpa using closes
    have plain : c ≠ '\\' := same ▸ isQuote
    simp only [List.cons_append, closeQuote_plain plain, if_pos same, List.length_cons,
      Option.some.injEq]
    omega
  | case4 c rest alone differs breaks =>
    -- A line feed or a backslash at the end leaves the literal open.
    have different : c ≠ quote := by simpa using differs
    refine ⟨nofun, fun ⟨closed, short⟩ => ?_⟩
    by_cases backslash : c = '\\'
    · -- A backslash at the end may take a character of the longer text with it, but then reaches
      -- beyond.
      subst backslash
      cases rest with
      | cons escaped rest => exact absurd rfl (alone escaped rest rfl)
      | nil =>
        cases more with
        | nil => simp [closeQuote, different] at closed
        | cons escaped more =>
          rw [List.singleton_append, closeQuote_escape] at closed
          obtain ⟨inner, found, rfl⟩ := Option.map_eq_some_iff.mp closed
          simp only [List.length_singleton] at short
          omega
    · have lineFeed : c = '\n' := by simpa [backslash] using breaks
      rw [List.cons_append, closeQuote_plain backslash, if_neg different, if_pos lineFeed] at closed
      cases closed
  | case5 c rest alone differs goesOn ih =>
    have different : c ≠ quote := by simpa using differs
    obtain ⟨notFeed, plain⟩ : c ≠ '\n' ∧ c ≠ '\\' := by simpa using goesOn
    rw [List.cons_append, closeQuote_plain plain, if_neg different, if_neg notFeed]
    exact map_add_eq_some_iff ih 1 length

/-- A backslash takes the next character of a text block with it. -/
theorem closeTextBlock_escape (escaped : Char) (rest : List Char) :
    closeTextBlock ('\\' :: escaped :: rest) = (closeTextBlock rest).map (· + 2) := by
  rw [closeTextBlock]

/-- Any other character that does not begin the closing quotes belongs to the text block. -/
theorem closeTextBlock_plain (plain : c ≠ '\\')
    (goesOn : ∀ more, c = '"' → rest ≠ '"' :: '"' :: more) :
    closeTextBlock (c :: rest) = (closeTextBlock rest).map (· + 1) := by
  rw [closeTextBlock]
  · simp [plain]
  · exact fun more isQuote twice => goesOn more isQuote twice
  · intro _ _ same
    exact absurd same plain

/-- The end of a text block takes at least three places. -/
theorem closeTextBlock_pos (closed : closeTextBlock text = some length) : 3 ≤ length := by
  -- The end itself has three characters.
  fun_induction closeTextBlock text generalizing length with
  | case1 => cases closed
  | case2 => cases closed; omega
  | case3 escaped rest ih =>
    obtain ⟨inner, found, rfl⟩ := Option.map_eq_some_iff.mp closed
    have := ih found
    omega
  | case4 => cases closed
  | case5 c rest _ _ _ ih =>
    obtain ⟨inner, found, rfl⟩ := Option.map_eq_some_iff.mp closed
    have := ih found
    omega

/-- A text closes a text block exactly where every longer text closes it within the same reach. -/
theorem closeTextBlock_eq_some_iff (text more : List Char) (length : Nat) :
    closeTextBlock text = some length ↔
      closeTextBlock (text ++ more) = some length ∧ length ≤ text.length := by
  fun_induction closeTextBlock text generalizing length with
  | case1 =>
    -- Nothing is closed by no text at all.
    refine ⟨nofun, fun ⟨closed, short⟩ => ?_⟩
    have := closeTextBlock_pos closed
    simp only [List.length_nil] at short
    omega
  | case2 rest =>
    have closes : closeTextBlock ('"' :: '"' :: '"' :: rest ++ more) = some 3 := by
      simp only [List.cons_append]
      rw [closeTextBlock]
    rw [closes]
    simp only [Option.some.injEq, List.length_cons]
    omega
  | case3 escaped rest ih =>
    rw [List.cons_append, List.cons_append, closeTextBlock_escape]
    exact map_add_eq_some_iff ih 2 length
  | case4 c rest _ alone backslash =>
    -- With one character left there is no room for the closing quotes.
    refine ⟨nofun, fun ⟨closed, short⟩ => ?_⟩
    have isBackslash : c = '\\' := by simpa using backslash
    subst isBackslash
    cases rest with
    | cons escaped rest => exact absurd rfl (alone escaped rest rfl)
    | nil =>
      have := closeTextBlock_pos closed
      simp only [List.length_singleton] at short
      omega
  | case5 c rest unclosed alone plain ih =>
    have notBackslash : c ≠ '\\' := by simpa using plain
    by_cases closes : ∃ tail, c = '"' ∧ rest ++ more = '"' :: '"' :: tail
    · -- Quotes of the longer text may complete the three, but then the end lies beyond the text.
      obtain ⟨tail, rfl, split⟩ := closes
      have short : rest.length < 2 := by
        by_contra long
        obtain ⟨one, other, rest, rfl⟩ : ∃ one other tail, rest = one :: other :: tail := by
          match rest, long with
          | one :: other :: tail, _ => exact ⟨one, other, tail, rfl⟩
          | [_], long => simp at long
          | [], long => simp at long
        simp only [List.cons_append, List.cons.injEq] at split
        obtain ⟨rfl, rfl, _⟩ := split
        exact unclosed rest rfl rfl
      constructor
      · intro closed
        obtain ⟨inner, found, rfl⟩ := Option.map_eq_some_iff.mp closed
        have := closeTextBlock_pos found
        have := ((ih inner).mp found).2
        omega
      · rintro ⟨closed, within⟩
        have := closeTextBlock_pos closed
        simp only [List.length_cons] at within
        omega
    · have goesOn : ∀ tail, c = '"' → rest ++ more ≠ '"' :: '"' :: tail :=
        fun tail isQuote split => closes ⟨tail, isQuote, split⟩
      rw [List.cons_append, closeTextBlock_plain notBackslash goesOn]
      exact map_add_eq_some_iff ih 1 length

/-- The first character of a longer text is that of the text. -/
theorem cons_of_append_eq (split : text ++ more = c :: rest) (nonempty : 0 < text.length) :
    ∃ text', text = c :: text' ∧ text' ++ more = rest := by
  cases text with
  | nil => simp at nonempty
  | cons d text =>
    obtain ⟨rfl, rfl⟩ := List.cons.inj split
    exact ⟨text, rfl, rfl⟩

/-- A text block begins with three quotes and goes on to the next three. -/
theorem textBlock?_eq_some :
    textBlock? text = some length ↔
      ∃ rest inner, text = '"' :: '"' :: '"' :: rest ∧ closeTextBlock rest = some inner ∧
        length = inner + 3 := by
  constructor
  · intro found
    unfold textBlock? at found
    split at found
    · obtain ⟨inner, closed, rfl⟩ := Option.map_eq_some_iff.mp found
      exact ⟨_, inner, rfl, closed, rfl⟩
    · cases found
  · rintro ⟨rest, inner, rfl, closed, rfl⟩
    simp [textBlock?, closed]

/-- A string begins with a quote and goes on to the next. -/
theorem string?_eq_some :
    string? text = some length ↔
      ∃ rest inner, text = '"' :: rest ∧ closeQuote '"' rest = some inner ∧ length = inner + 1 := by
  constructor
  · intro found
    unfold string? at found
    split at found
    · obtain ⟨inner, closed, rfl⟩ := Option.map_eq_some_iff.mp found
      exact ⟨_, inner, rfl, closed, rfl⟩
    · cases found
  · rintro ⟨rest, inner, rfl, closed, rfl⟩
    simp [string?, closed]

/-- A character literal begins with a quote that is not closed at once and goes on to the next. -/
theorem character?_eq_some :
    character? text = some length ↔
      ∃ rest inner, text = '\'' :: rest ∧ rest.head? ≠ some '\'' ∧
        closeQuote '\'' rest = some inner ∧
        length = inner + 1 := by
  -- Two quotes in a row are no character, and any other front is none either.
  constructor
  · intro found
    unfold character? at found
    split at found
    · cases found
    · rename_i rest something
      obtain ⟨inner, closed, rfl⟩ := Option.map_eq_some_iff.mp found
      refine ⟨rest, inner, rfl, fun empty => ?_, closed, rfl⟩
      obtain ⟨more, rfl⟩ := List.head?_eq_some_iff.mp empty
      exact something more rfl
    · cases found
  · rintro ⟨rest, inner, rfl, something, closed, rfl⟩
    cases rest with
    | nil => cases closed
    | cons c rest =>
      have different : c ≠ '\'' := by simpa using something
      simp [character?, different, closed]

/-- A text block that ends within a text is there whatever follows the text. -/
theorem textBlock?_eq_some_iff (text more : List Char) (length : Nat) :
    textBlock? text = some length ↔ textBlock? (text ++ more) = some length ∧
      length ≤ text.length := by
  simp only [textBlock?_eq_some]
  constructor
  · rintro ⟨rest, inner, rfl, closed, rfl⟩
    obtain ⟨further, short⟩ := (closeTextBlock_eq_some_iff rest more inner).mp closed
    exact ⟨⟨rest ++ more, inner, rfl, further, rfl⟩, by simp only [List.length_cons]; omega⟩
  · rintro ⟨⟨rest, inner, split, closed, rfl⟩, short⟩
    -- The whole block lies within the text, its opening quotes to begin with.
    have positive := closeTextBlock_pos closed
    obtain ⟨text, rfl, afterOne⟩ := cons_of_append_eq split (by omega)
    simp only [List.length_cons] at short
    obtain ⟨text, rfl, afterTwo⟩ := cons_of_append_eq afterOne (by omega)
    simp only [List.length_cons] at short
    obtain ⟨text, rfl, rfl⟩ := cons_of_append_eq afterTwo (by omega)
    simp only [List.length_cons] at short
    exact ⟨text, inner, rfl, (closeTextBlock_eq_some_iff text more inner).mpr ⟨closed, by omega⟩,
      rfl⟩

/-- A string that ends within a text is there whatever follows the text. -/
theorem string?_eq_some_iff (text more : List Char) (length : Nat) :
    string? text = some length ↔ string? (text ++ more) = some length ∧ length ≤ text.length := by
  -- The end of the string is found in the text itself, so what is appended does not matter.
  simp only [string?_eq_some]
  constructor
  · rintro ⟨rest, inner, rfl, closed, rfl⟩
    obtain ⟨further, short⟩ := (closeQuote_eq_some_iff (by decide) rest more inner).mp closed
    exact ⟨⟨rest ++ more, inner, rfl, further, rfl⟩, by simp only [List.length_cons]; omega⟩
  · rintro ⟨⟨rest, inner, split, closed, rfl⟩, short⟩
    obtain ⟨text, rfl, rfl⟩ := cons_of_append_eq split (by omega)
    simp only [List.length_cons] at short
    exact ⟨text, inner, rfl, (closeQuote_eq_some_iff (by decide) text more inner).mpr
      ⟨closed, by omega⟩, rfl⟩

/-- A character literal that ends within a text is there whatever follows the text. -/
theorem character?_eq_some_iff (text more : List Char) (length : Nat) :
    character? text = some length ↔ character? (text ++ more) = some length ∧
      length ≤ text.length := by
  simp only [character?_eq_some]
  constructor
  · rintro ⟨rest, inner, rfl, something, closed, rfl⟩
    obtain ⟨further, short⟩ := (closeQuote_eq_some_iff (by decide) rest more inner).mp closed
    have positive := closeQuote_pos closed
    refine ⟨⟨rest ++ more, inner, rfl, ?_, further, rfl⟩, by simp only [List.length_cons]; omega⟩
    -- The character that must not be a quote belongs to the text already.
    obtain ⟨c, rest, rfl⟩ := List.exists_cons_of_length_pos (show 0 < rest.length by omega)
    exact something
  · rintro ⟨⟨rest, inner, split, something, closed, rfl⟩, short⟩
    have positive := closeQuote_pos closed
    obtain ⟨text, rfl, rfl⟩ := cons_of_append_eq split (by omega)
    simp only [List.length_cons] at short
    refine ⟨text, inner, rfl, ?_,
      (closeQuote_eq_some_iff (by decide) text more inner).mpr ⟨closed, by omega⟩, rfl⟩
    obtain ⟨c, text, rfl⟩ := List.exists_cons_of_length_pos (show 0 < text.length by omega)
    exact something

/-- A comment takes no more than there is. -/
theorem closeComment_le (text : List Char) : closeComment text ≤ text.length := by
  fun_induction closeComment text with
  | case1 => exact Nat.le_refl 0
  | case2 => simp
  | case3 c rest _ ih => simpa using ih

/-- A comment takes something unless there is nothing. -/
theorem closeComment_eq_zero (nothing : closeComment text = 0) : text = [] := by
  cases text with
  | nil => rfl
  | cons c rest =>
    unfold closeComment at nothing
    split at nothing
    · rename_i same
      cases same
    · cases nothing
    · cases nothing

/-- The first character of a text without the end of a comment does not begin one, whatever end
follows. -/
theorem ne_slash_of_endless (endless : ¬ ['*', '/'] <:+: c :: text) (isStar : c = '*')
    (rest more : List Char) : text ++ '*' :: '/' :: rest ≠ '/' :: more := by
  -- A slash behind the star would be the end that the text does not have.
  rintro split
  rw [List.infix_cons_iff, not_or] at endless
  cases text with
  | nil => cases split
  | cons d text =>
    refine endless.1 (List.cons_prefix_cons.mpr
      ⟨isStar.symm, List.cons_prefix_cons.mpr ⟨?_, List.nil_prefix⟩⟩)
    exact (List.cons.inj split).1.symm

/-- A comment without an early end is closed where its end stands. -/
theorem closeComment_endless (endless : ¬ ['*', '/'] <:+: text) (rest : List Char) :
    closeComment (text ++ '*' :: '/' :: rest) = text.length + 2 := by
  -- No character of the text begins the end, so all of them are passed.
  induction text with
  | nil => simp [closeComment]
  | cons c text ih =>
    have later : ¬ ['*', '/'] <:+: text :=
      fun isPart => endless (isPart.trans (List.suffix_cons c text).isInfix)
    rw [List.cons_append, closeComment, ih later, List.length_cons, Nat.add_right_comm]
    exact fun more isStar split => ne_slash_of_endless endless isStar rest more split

/-- A character that does not close a block comment belongs to it. -/
theorem closeComment_cons (goesOn : ∀ tail, c = '*' → rest ≠ '/' :: tail) :
    closeComment (c :: rest) = closeComment rest + 1 := by
  rw [closeComment]
  exact fun tail star split => goesOn tail star split

/-- A block comment that is closed before the end of a text is closed there whatever comes
behind. -/
theorem closeComment_other {inner : List Char} {d : Char}
    (closed : closeComment (inner ++ d :: rest) = inner.length) (other : List Char) :
    closeComment (inner ++ other) = inner.length := by
  induction inner with
  | nil => cases closeComment_eq_zero closed
  | cons c inner ih =>
    by_cases ends : ∃ tail, c = '*' ∧ inner ++ d :: rest = '/' :: tail
    · -- The star and the slash are all there is.
      obtain ⟨tail, rfl, split⟩ := ends
      have two : closeComment ('*' :: '/' :: tail) = 2 := by rw [closeComment]
      rw [List.cons_append, split, two, List.length_cons] at closed
      obtain ⟨inner, rfl, _⟩ := cons_of_append_eq split (by omega)
      have short : inner = [] :=
        List.length_eq_zero_iff.mp (by simp only [List.length_cons] at closed; omega)
      subst short
      simp [closeComment]
    · have goesOn : ∀ tail, c = '*' → inner ++ d :: rest ≠ '/' :: tail := by
        intro tail star split
        exact ends ⟨tail, star, split⟩
      rw [List.cons_append, closeComment_cons goesOn, List.length_cons, Nat.add_right_cancel_iff]
        at closed
      have further := ih closed
      cases inner with
      | nil => cases closeComment_eq_zero closed
      | cons e inner =>
        -- The next character is the same whatever comes behind.
        have goesOnOther : ∀ tail, c = '*' → e :: inner ++ other ≠ '/' :: tail := by
          intro tail star split
          exact goesOn (inner ++ d :: rest) star (by rw [List.cons_append, (List.cons.inj split).1])
        rw [List.cons_append, closeComment_cons goesOnOther, further]
        rfl

/-- A block comment begins with its mark and goes on to its end. -/
theorem blockComment?_eq_some :
    blockComment? text = some length ↔ ∃ rest, text = '/' :: '*' :: rest ∧
      length = closeComment rest + 2 := by
  constructor
  · intro found
    unfold blockComment? at found
    split at found
    · exact ⟨_, rfl, (Option.some.inj found).symm⟩
    · cases found
  · rintro ⟨rest, rfl, rfl⟩
    rfl

/-- A line comment begins with its mark and goes on to the line feed. -/
theorem lineComment?_eq_some :
    lineComment? text = some length ↔
      ∃ rest, text = '/' :: '/' :: rest ∧ length = (rest.takeWhile (· != '\n')).length + 2 := by
  constructor
  · intro found
    unfold lineComment? at found
    split at found
    · exact ⟨_, rfl, (Option.some.inj found).symm⟩
    · cases found
  · rintro ⟨rest, rfl, rfl⟩
    rfl

/-- The order in which the kinds are tried. -/
def LiteralKind.turn : LiteralKind → Nat
  | .textBlock => 0
  | .string => 1
  | .character => 2
  | .blockComment => 3
  | .lineComment => 4

/-- The length of what is of a kind at the front of a text. -/
def LiteralKind.find : LiteralKind → List Char → Option Nat
  | .textBlock => textBlock?
  | .string => string?
  | .character => character?
  | .blockComment => blockComment?
  | .lineComment => lineComment?

/-- There is no literal at the front of a text that has one of no kind. -/
theorem literalAt_eq_none :
    literalAt source = none ↔ ∀ kind : LiteralKind, kind.find source = none := by
  simp only [literalAt, Option.or_eq_none_iff, Option.map_eq_none_iff]
  constructor
  · rintro ⟨noBlock, noString, noCharacter, noComment, noLine⟩ kind
    cases kind <;> assumption
  · intro nothing
    exact ⟨nothing .textBlock, nothing .string, nothing .character, nothing .blockComment,
      nothing .lineComment⟩

/-- The literal at the front of a text is of the first kind of which there is one. -/
theorem literalAt_eq_some :
    literalAt source = some (kind, length) ↔
      kind.find source = some length ∧ ∀ earlier : LiteralKind, earlier.turn < kind.turn →
        earlier.find source = none := by
  simp only [literalAt, Option.or_eq_some_iff, Option.map_eq_some_iff, Option.map_eq_none_iff,
    Prod.mk.injEq]
  constructor
  · -- Each alternative says which kinds were tried in vain before it.
    rintro (⟨_, found, rfl, rfl⟩
      | ⟨noBlock, ⟨_, found, rfl, rfl⟩
      | ⟨noString, ⟨_, found, rfl, rfl⟩
      | ⟨noCharacter, ⟨_, found, rfl, rfl⟩ | ⟨noComment, _, found, rfl, rfl⟩⟩⟩⟩)
    all_goals
      refine ⟨found, fun earlier before => ?_⟩
      cases earlier <;> first | assumption | simp [LiteralKind.turn] at before
  · rintro ⟨found, nothing⟩
    cases kind with
    | textBlock => exact Or.inl ⟨_, found, rfl, rfl⟩
    | string => exact Or.inr ⟨nothing .textBlock (by decide), Or.inl ⟨_, found, rfl, rfl⟩⟩
    | character =>
      exact Or.inr ⟨nothing .textBlock (by decide),
        Or.inr ⟨nothing .string (by decide), Or.inl ⟨_, found, rfl, rfl⟩⟩⟩
    | blockComment =>
      exact Or.inr ⟨nothing .textBlock (by decide), Or.inr ⟨nothing .string (by decide),
        Or.inr ⟨nothing .character (by decide), Or.inl ⟨_, found, rfl, rfl⟩⟩⟩⟩
    | lineComment =>
      exact Or.inr ⟨nothing .textBlock (by decide), Or.inr ⟨nothing .string (by decide),
        Or.inr ⟨nothing .character (by decide),
          Or.inr ⟨nothing .blockComment (by decide), _, found, rfl, rfl⟩⟩⟩⟩

/-- A literal or comment begins with a quote or a slash. -/
theorem LiteralKind.opener_of_find (found : kind.find text = some length) :
    ∃ c rest, text = c :: rest ∧ isOpener c = true := by
  cases kind with
  | textBlock =>
    obtain ⟨_, _, rfl, _⟩ := textBlock?_eq_some.mp found
    exact ⟨_, _, rfl, rfl⟩
  | string =>
    obtain ⟨_, _, rfl, _⟩ := string?_eq_some.mp found
    exact ⟨_, _, rfl, rfl⟩
  | character =>
    obtain ⟨_, _, rfl, _⟩ := character?_eq_some.mp found
    exact ⟨_, _, rfl, rfl⟩
  | blockComment =>
    obtain ⟨_, rfl, _⟩ := blockComment?_eq_some.mp found
    exact ⟨_, _, rfl, rfl⟩
  | lineComment =>
    obtain ⟨_, rfl, _⟩ := lineComment?_eq_some.mp found
    exact ⟨_, _, rfl, rfl⟩

/-- No literal begins with any other character. -/
theorem literalAt_of_not_opener (plain : isOpener c = false) (rest : List Char) :
    literalAt (c :: rest) = none := by
  refine literalAt_eq_none.mpr fun kind => Option.eq_none_iff_forall_ne_some.mpr fun _ found => ?_
  obtain ⟨_, _, split, opens⟩ := kind.opener_of_find found
  obtain ⟨rfl, _⟩ := List.cons.inj split
  rw [plain] at opens
  cases opens

/-- A block comment that ends inside of a text is the same whatever follows the text. -/
theorem blockComment?_other {d : Char}
    (found : blockComment? (text ++ d :: rest) = some text.length)
    (other : List Char) : blockComment? (text ++ other) = some text.length := by
  obtain ⟨behind, split, sized⟩ := blockComment?_eq_some.mp found
  -- The comment has the two characters that open it, and it is closed before the end of the text.
  obtain ⟨text, rfl, afterSlash⟩ := cons_of_append_eq split (by omega)
  simp only [List.length_cons] at sized
  obtain ⟨inner, rfl, rfl⟩ := cons_of_append_eq afterSlash (by omega)
  simp only [List.length_cons] at sized
  have closed : closeComment (inner ++ d :: rest) = inner.length := by omega
  refine blockComment?_eq_some.mpr ⟨inner ++ other, rfl, ?_⟩
  rw [closeComment_other closed]
  rfl

/-- A line comment goes on to the next line feed or to the end of the text. -/
theorem lineComment?_eq_length_iff :
    lineComment? (text ++ rest) = some text.length ↔
      ∃ inner, text = '/' :: '/' :: inner ∧
        (∀ c ∈ inner, c ≠ '\n') ∧ rest.head?.all (· == '\n') = true := by
  constructor
  · intro found
    obtain ⟨behind, split, sized⟩ := lineComment?_eq_some.mp found
    obtain ⟨text, rfl, afterSlash⟩ := cons_of_append_eq split (by omega)
    simp only [List.length_cons] at sized
    obtain ⟨inner, rfl, rfl⟩ := cons_of_append_eq afterSlash (by omega)
    simp only [List.length_cons] at sized
    -- What is taken up to the line feed is just what belongs to the comment.
    have taken : (inner ++ rest).takeWhile (· != '\n') = inner := by
      have begins := @List.takeWhile_prefix _ (inner ++ rest) (· != '\n')
      exact List.IsPrefix.eq_of_length
        (List.prefix_of_prefix_length_le begins (List.prefix_append inner rest) (by omega))
          (by omega)
    have inside : ∀ c ∈ inner, (c != '\n') = true := by
      intro c member
      rw [← taken] at member
      exact @List.mem_takeWhile_imp _ (· != '\n') _ _ member
    refine ⟨inner, rfl, by simpa using inside, ?_⟩
    rw [List.takeWhile_append_of_pos inside, List.append_right_eq_self] at taken
    cases rest with
    | nil => rfl
    | cons c rest =>
      by_contra goesOn
      have notFeed : c ≠ '\n' := by simpa using goesOn
      simp [notFeed] at taken
  · rintro ⟨inner, rfl, inside, ended⟩
    refine lineComment?_eq_some.mpr ⟨inner ++ rest, rfl, ?_⟩
    have stops : rest.takeWhile (· != '\n') = [] := by
      cases rest with
      | nil => rfl
      | cons c rest => simpa using ended
    rw [List.takeWhile_append_of_pos (by simpa using inside), stops]
    simp

/-- A line comment that ends with a text ends there whatever part of the rest is kept. -/
theorem lineComment?_keep (found : lineComment? (text ++ more) = some text.length)
    (isPart : kept <+: more) : lineComment? (text ++ kept) = some text.length := by
  obtain ⟨inner, isText, oneLine, ended⟩ := lineComment?_eq_length_iff.mp found
  refine lineComment?_eq_length_iff.mpr ⟨inner, isText, oneLine, ?_⟩
  -- A part of the rest begins as the rest does.
  obtain ⟨dropped, rfl⟩ := isPart
  cases kept with
  | nil => rfl
  | cons c kept => exact ended

/-- What a text has of a kind at its front a longer text has there in some form as well. -/
theorem LiteralKind.find_append (found : kind.find text = some length) (more : List Char) :
    ∃ longer, kind.find (text ++ more) = some longer := by
  -- Only a comment that the text does not end can become longer.
  cases kind with
  | textBlock => exact ⟨length, ((textBlock?_eq_some_iff text more length).mp found).1⟩
  | string => exact ⟨length, ((string?_eq_some_iff text more length).mp found).1⟩
  | character => exact ⟨length, ((character?_eq_some_iff text more length).mp found).1⟩
  | blockComment =>
    obtain ⟨rest, rfl, _⟩ := blockComment?_eq_some.mp found
    exact ⟨_, rfl⟩
  | lineComment =>
    obtain ⟨rest, rfl, _⟩ := lineComment?_eq_some.mp found
    exact ⟨_, rfl⟩

/-- Where a text has nothing of a kind at its front, no part of it has something there. -/
theorem LiteralKind.find_part (nothing : kind.find text = none) (isPart : part <+: text) :
    kind.find part = none := by
  obtain ⟨more, rfl⟩ := isPart
  refine Option.eq_none_iff_forall_ne_some.mpr fun length found => ?_
  obtain ⟨longer, grown⟩ := kind.find_append found more
  rw [grown] at nothing
  cases nothing

/-- Where a text has no literal at its front, no part of it has one there. -/
theorem literalAt_part (nothing : literalAt text = none) (isPart : part <+: text) :
    literalAt part = none :=
  literalAt_eq_none.mpr fun kind => kind.find_part (literalAt_eq_none.mp nothing kind) isPart

/-- What ends before the end of a text ends there whatever follows, unless it goes on to the end of
a line. -/
theorem LiteralKind.find_other {d : Char} (found : kind.find (text ++ d :: rest) = some text.length)
    (notLine : kind ≠ .lineComment) (other : List Char) :
    kind.find (text ++ other) = some text.length := by
  cases kind with
  | textBlock =>
    have within := (textBlock?_eq_some_iff text _ _).mpr ⟨found, Nat.le_refl _⟩
    exact ((textBlock?_eq_some_iff text other _).mp within).1
  | string =>
    have within := (string?_eq_some_iff text _ _).mpr ⟨found, Nat.le_refl _⟩
    exact ((string?_eq_some_iff text other _).mp within).1
  | character =>
    have within := (character?_eq_some_iff text _ _).mpr ⟨found, Nat.le_refl _⟩
    exact ((character?_eq_some_iff text other _).mp within).1
  | blockComment => exact blockComment?_other found other
  | lineComment => exact absurd rfl notLine

/-- What is of a kind at the front of a text ends where it does when only a part of what follows it
is kept. -/
theorem LiteralKind.find_keep (found : kind.find (text ++ more) = some text.length)
    (isPart : kept <+: more) : kind.find (text ++ kept) = some text.length := by
  cases more with
  | nil => rwa [List.prefix_nil.mp isPart]
  | cons d more =>
    by_cases line : kind = .lineComment
    · subst line
      exact lineComment?_keep found isPart
    · exact kind.find_other found line kept

/-- What is at the front of a text stays at the front when only a part of what follows it is
kept. -/
theorem literalAt_keep (found : literalAt (text ++ more) = some (kind, text.length))
    (isPart : kept <+: more) : literalAt (text ++ kept) = some (kind, text.length) := by
  have shorter : text ++ kept <+: text ++ more := (List.prefix_append_right_inj text).mpr isPart
  -- The kinds tried before fail on the shorter text too, and the one that is there ends where it
  -- did.
  obtain ⟨here, nothing⟩ := literalAt_eq_some.mp found
  exact literalAt_eq_some.mpr ⟨kind.find_keep here isPart,
    fun earlier before => earlier.find_part (nothing earlier before) shorter⟩

/-- A literal takes at least two characters, and no more than there are. -/
theorem literalAt_length (found : literalAt text = some (kind, length)) :
    2 ≤ length ∧ length ≤ text.length := by
  have here := (literalAt_eq_some.mp found).1
  -- Every kind has two characters at least, and its own lemma bounds it by the text.
  cases kind with
  | textBlock =>
    have within := ((textBlock?_eq_some_iff text [] length).mp here).2
    obtain ⟨rest, inner, rfl, closed, rfl⟩ := textBlock?_eq_some.mp here
    exact ⟨by omega, within⟩
  | string =>
    have within := ((string?_eq_some_iff text [] length).mp here).2
    obtain ⟨rest, inner, rfl, closed, rfl⟩ := string?_eq_some.mp here
    have := closeQuote_pos closed
    exact ⟨by omega, within⟩
  | character =>
    have within := ((character?_eq_some_iff text [] length).mp here).2
    obtain ⟨rest, inner, rfl, _, closed, rfl⟩ := character?_eq_some.mp here
    have := closeQuote_pos closed
    exact ⟨by omega, within⟩
  | blockComment =>
    obtain ⟨rest, rfl, rfl⟩ := blockComment?_eq_some.mp here
    have := closeComment_le rest
    simp only [List.length_cons]
    omega
  | lineComment =>
    obtain ⟨rest, rfl, rfl⟩ := lineComment?_eq_some.mp here
    have := (List.takeWhile_sublist (l := rest) (· != '\n')).length_le
    simp only [List.length_cons]
    omega

/-- A source falls into a row of pieces: where a literal begins it is taken whole, and any other
character is code. -/
inductive Lexed : List Char → List Piece → Prop where
  | done : Lexed [] []
  | code {c : Char} {rest : List Char} {row : List Piece} :
    literalAt (c :: rest) = none → Lexed rest row → Lexed (c :: rest) (.code c :: row)
  | literal {kind : LiteralKind} {text rest : List Char} {row : List Piece} :
    literalAt (text ++ rest) = some (kind, text.length) → Lexed rest row →
      Lexed (text ++ rest) (.literal kind text :: row)

/-- Every source falls into its pieces. -/
theorem lexed_pieces (source : List Char) : Lexed source (pieces source) := by
  fun_induction pieces source with
  | case1 => exact .done
  | case2 c rest nothing ih => exact .code nothing ih
  | case3 c rest kind length found ih =>
    obtain ⟨positive, bounded⟩ := literalAt_length found
    simp only [List.length_cons] at bounded
    -- The literal is the front of the source, cut off where it ends.
    have split : c :: rest = (c :: rest.take (length - 1)) ++ rest.drop (length - 1) := by simp
    have sized : (c :: rest.take (length - 1)).length = length := by
      simp only [List.length_cons, List.length_take]
      omega
    rw [split]
    refine .literal ?_ ih
    rw [← split, sized]
    exact found

/-- A source falls into no other pieces. -/
theorem Lexed.eq_pieces (lexed : Lexed source row) : pieces source = row := by
  induction lexed with
  | done => simp [pieces]
  | code nothing _ ih => rw [pieces, nothing, ih]
  | @literal kind text rest row found _ ih =>
    -- A literal is not empty, so the source is not either, and the literal is what is cut off.
    obtain ⟨positive, _⟩ := literalAt_length found
    obtain ⟨c, text, rfl⟩ := List.exists_cons_of_length_pos (show 0 < text.length by omega)
    rw [List.cons_append] at found ⊢
    rw [pieces, found]
    simp [ih]

theorem Lexed.of_code (lexed : Lexed source (.code c :: row)) :
    ∃ rest, source = c :: rest ∧ literalAt (c :: rest) = none ∧ Lexed rest row := by
  cases lexed with
  | code nothing further => exact ⟨_, rfl, nothing, further⟩

/-- The first piece is a literal where one is found. -/
theorem Lexed.of_literal (lexed : Lexed source (.literal kind text :: row)) :
    ∃ rest, source = text ++ rest ∧ literalAt (text ++ rest) = some (kind, text.length) ∧
      Lexed rest row := by
  cases lexed with
  | literal found further => exact ⟨_, rfl, found, further⟩

/-- The pieces of a source make up the source. -/
theorem Lexed.sourceOf_eq (lexed : Lexed source row) : sourceOf row = source := by
  induction lexed with
  | done => rfl
  | code _ _ ih => simp [Piece.source, ih]
  | literal _ _ ih => simp [Piece.source, ih]

@[simp] theorem sourceOf_pieces (source : List Char) : sourceOf (pieces source) = source :=
  (lexed_pieces source).sourceOf_eq

/-- Cutting a source short behind some of its pieces leaves these pieces as they are, whatever part
of the rest is kept. -/
theorem Lexed.keep {front back : List Piece} (lexed : Lexed source (front ++ back))
    (isPart : kept <+: sourceOf back) : Lexed (sourceOf front ++ kept) (front ++ pieces kept) := by
  induction front generalizing source with
  | nil => exact lexed_pieces kept
  | cons piece front ih =>
    -- Behind the first piece less of the source is kept, but from the same place on.
    have shorter : sourceOf front ++ kept <+: sourceOf (front ++ back) := by
      rw [sourceOf_append]
      exact (List.prefix_append_right_inj _).mpr isPart
    rw [List.cons_append] at lexed
    cases piece with
    | code c =>
      obtain ⟨rest, rfl, nothing, further⟩ := lexed.of_code
      rw [further.sourceOf_eq] at shorter
      exact .code (literalAt_part nothing (List.cons_prefix_cons.mpr ⟨rfl, shorter⟩)) (ih further)
    | literal kind text =>
      obtain ⟨rest, rfl, found, further⟩ := lexed.of_literal
      rw [further.sourceOf_eq] at shorter
      rw [sourceOf_cons, List.append_assoc]
      exact .literal (literalAt_keep found shorter) (ih further)

/-- What follows some of the pieces of a source falls into the others. -/
theorem Lexed.drop {front back : List Piece} (lexed : Lexed source (front ++ back)) :
    Lexed (sourceOf back) back := by
  -- The pieces before are passed one by one.
  induction front generalizing source with
  | nil =>
    rw [List.nil_append] at lexed
    rwa [lexed.sourceOf_eq]
  | cons piece front ih =>
    rw [List.cons_append] at lexed
    cases piece with
    | code c =>
      obtain ⟨rest, _, _, further⟩ := lexed.of_code
      exact ih further
    | literal kind text =>
      obtain ⟨rest, _, _, further⟩ := lexed.of_literal
      exact ih further

/-- Text without quotes and slashes is code. -/
theorem pieces_append_plain (plain : ∀ c ∈ text, isOpener c = false) (rest : List Char) :
    pieces (text ++ rest) = text.map .code ++ pieces rest := by
  -- No literal begins with such a character.
  induction text with
  | nil => rfl
  | cons c text ih =>
    have here := literalAt_of_not_opener (plain c List.mem_cons_self) (text ++ rest)
    rw [List.cons_append, pieces, here, ih fun d inside => plain d (List.mem_cons_of_mem c inside)]
    rfl

/-- A literal at the front of a row of pieces begins with a quote or a slash. -/
theorem Lexed.opener (lexed : Lexed source (.literal kind text :: row)) :
    ∃ c rest, text = c :: rest ∧ isOpener c = true := by
  obtain ⟨rest, _, found, _⟩ := lexed.of_literal
  obtain ⟨positive, _⟩ := literalAt_length found
  obtain ⟨c, inner, rfl⟩ := List.exists_cons_of_length_pos (show 0 < text.length by omega)
  refine ⟨c, inner, rfl, ?_⟩
  -- No literal begins with any other character.
  by_contra plain
  rw [List.cons_append, literalAt_of_not_opener (by simpa using plain)] at found
  cases found

/-- A closed literal ends with its quote. -/
theorem closeQuote_last (closed : closeQuote quote text = some length) :
    (text.take length).getLast? = some quote := by
  -- The cases are those of the search; it stops behind the quote.
  fun_induction closeQuote quote text generalizing length with
  | case1 => cases closed
  | case2 escaped rest ih =>
    obtain ⟨inner, found, rfl⟩ := Option.map_eq_some_iff.mp closed
    simp [List.take_succ_cons, List.getLast?_cons, ih found]
  | case3 c rest _ closes =>
    cases closed
    simpa using closes
  | case4 => cases closed
  | case5 c rest _ _ _ ih =>
    obtain ⟨inner, found, rfl⟩ := Option.map_eq_some_iff.mp closed
    simp [List.take_succ_cons, List.getLast?_cons, ih found]

/-- A text block ends with a quote. -/
theorem closeTextBlock_last (closed : closeTextBlock text = some length) :
    (text.take length).getLast? = some '"' := by
  -- The cases are those of the search; it stops behind the quotes.
  fun_induction closeTextBlock text generalizing length with
  | case1 => cases closed
  | case2 =>
    cases closed
    rfl
  | case3 escaped rest ih =>
    obtain ⟨inner, found, rfl⟩ := Option.map_eq_some_iff.mp closed
    simp [List.take_succ_cons, List.getLast?_cons, ih found]
  | case4 => cases closed
  | case5 c rest _ _ _ ih =>
    obtain ⟨inner, found, rfl⟩ := Option.map_eq_some_iff.mp closed
    simp [List.take_succ_cons, List.getLast?_cons, ih found]

/-- A block comment ends with a slash or with the source. -/
theorem closeComment_last (text : List Char) :
    closeComment text = text.length ∨ (text.take (closeComment text)).getLast? = some '/' := by
  -- The cases are those of the search; it stops behind the slash or at the end of the text.
  fun_induction closeComment text with
  | case1 => exact Or.inl rfl
  | case2 => exact Or.inr rfl
  | case3 c rest _ ih =>
    refine ih.imp (fun whole => by simp [whole]) fun ends => ?_
    simp [List.take_succ_cons, List.getLast?_cons, ends]

/-- A literal ends with a quote or a slash, unless it reaches the end of the source or of its
line. -/
theorem literalAt_last (found : literalAt (text ++ rest) = some (kind, text.length)) :
    text.getLast?.any isOpener = true ∨ rest = [] ∨ rest.head? = some '\n' := by
  -- The literal is the front of the text, so what is known of its end is known of the last
  -- character.
  have front : (text ++ rest).take text.length = text := List.take_left
  have here := (literalAt_eq_some.mp found).1
  cases kind with
  | textBlock =>
    obtain ⟨inside, inner, split, closed, sized⟩ := textBlock?_eq_some.mp here
    rw [← front, split, sized]
    simp [List.take_succ_cons, List.getLast?_cons, closeTextBlock_last closed, isOpener]
  | string =>
    obtain ⟨inside, inner, split, closed, sized⟩ := string?_eq_some.mp here
    rw [← front, split, sized]
    simp [List.take_succ_cons, List.getLast?_cons, closeQuote_last closed, isOpener]
  | character =>
    obtain ⟨inside, inner, split, _, closed, sized⟩ := character?_eq_some.mp here
    rw [← front, split, sized]
    simp [List.take_succ_cons, List.getLast?_cons, closeQuote_last closed, isOpener]
  | blockComment =>
    -- A block comment that is never closed reaches the end of the source.
    obtain ⟨inside, split, sized⟩ := blockComment?_eq_some.mp here
    rcases closeComment_last inside with whole | ends
    · have total := congrArg List.length split
      simp only [List.length_append, List.length_cons] at total
      exact Or.inr (Or.inl (List.length_eq_zero_iff.mp (by omega)))
    · refine Or.inl ?_
      rw [← front, split, sized]
      simp [List.take_succ_cons, List.getLast?_cons, ends, isOpener]
  | lineComment =>
    -- A line comment goes on to the next line feed or to the end.
    obtain ⟨_, _, _, ended⟩ := lineComment?_eq_length_iff.mp here
    cases rest with
    | nil => exact Or.inr (Or.inl rfl)
    | cons c rest => exact Or.inr (Or.inr (by simpa using ended))

/-- The spans of two rows of pieces, one behind the other. -/
theorem spansFrom_append (offset : Nat) (one other : List Piece) :
    spansFrom offset (one ++ other) = spansFrom offset one ++ spansFrom
      (offset + (sourceOf one).length) other := by
  induction one generalizing offset with
  | nil => rfl
  | cons piece one ih =>
    cases piece with
    | code c =>
      simp only [List.cons_append, spansFrom, ih, sourceOf_cons, Piece.source, List.nil_append,
        List.length_cons, Nat.add_assoc, Nat.add_comm 1]
    | literal kind text =>
      simp only [List.cons_append, spansFrom, ih, sourceOf_cons, Piece.source, List.length_append,
        Nat.add_assoc]

/-- The spans of a row of pieces lie within its text. -/
theorem bounds_of_mem_spansFrom {offset : Nat} {span : Nat × Nat}
    (member : span ∈ spansFrom offset row) :
    offset ≤ span.1 ∧ span.2 ≤ offset + (sourceOf row).length := by
  -- A span is that of its piece, and the piece lies within the row.
  induction row generalizing offset with
  | nil => cases member
  | cons piece row ih =>
    cases piece with
    | code c =>
      have := ih member
      simp only [sourceOf_cons, Piece.source, List.length_append, List.length_singleton]
      omega
    | literal kind text =>
      simp only [sourceOf_cons, Piece.source, List.length_append]
      rcases List.mem_cons.mp member with rfl | further
      · exact ⟨Nat.le_refl _, by simp only; omega⟩
      · have := ih further
        omega

/-- A position lies in a span when it is at its start or beyond and before its end. -/
def inSpan (spans : List (Nat × Nat)) (position : Nat) : Bool :=
  spans.any fun (start, stop) => start ≤ position && position < stop

/-- A character of code lies in no span. -/
theorem inSpan_code (front back : List Piece) (c : Char) :
    inSpan (spansFrom 0 (front ++ .code c :: back)) (sourceOf front).length = false := by
  rw [inSpan, List.any_eq_false]
  rintro ⟨start, stop⟩ member
  rw [spansFrom_append, List.mem_append] at member
  simp only [Bool.and_eq_true, decide_eq_true_eq, not_and, Nat.not_lt]
  intro _
  -- The spans before end no later than here, and those behind begin beyond this character.
  rcases member with early | late
  · have := (bounds_of_mem_spansFrom early).2
    simp only at this
    omega
  · have later : (start, stop) ∈ spansFrom (0 + (sourceOf front).length + 1) back := late
    have := (bounds_of_mem_spansFrom later).1
    simp only at this
    omega

/-- Every character of a literal lies in a span. -/
theorem inSpan_literal (front back : List Piece) (kind : LiteralKind) {within : Nat}
    (inside : within < text.length) :
    inSpan (spansFrom 0 (front ++ .literal kind text :: back))
      ((sourceOf front).length + within) = true := by
  rw [inSpan, List.any_eq_true]
  -- The span of the literal itself covers the place.
  refine ⟨((sourceOf front).length, (sourceOf front).length + text.length), ?_, ?_⟩
  · rw [spansFrom_append, Nat.zero_add]
    exact List.mem_append_right _ List.mem_cons_self
  · simp only [Bool.and_eq_true, decide_eq_true_eq]
    omega

end Lineage.Java
