/-! Comments and literals of Java source, which a scanner for declarations must not look into. -/

namespace Lineage.Java

/-- What kind of stretch a text is that holds no code. -/
inductive LiteralKind where
  | textBlock
  | string
  | character
  | blockComment
  | lineComment
  deriving DecidableEq, Repr

/-- The characters up to and with the closing quote on the same line; a backslash and the character
after it belong together. -/
def closeQuote (quote : Char) : List Char → Option Nat
  | [] => none
  | '\\' :: _ :: rest => (closeQuote quote rest).map (· + 2)
  | c :: rest =>
    if c == quote then some 1
    else if c == '\n' || c == '\\' then none
    else (closeQuote quote rest).map (· + 1)

/-- The characters up to and with the three quotes that close a text block; a backslash and the
character after it belong together. -/
def closeTextBlock : List Char → Option Nat
  | [] => none
  -- The first three quotes close the block, even where more follow.
  | '"' :: '"' :: '"' :: _ => some 3
  | '\\' :: _ :: rest => (closeTextBlock rest).map (· + 2)
  | c :: rest => if c == '\\' then none else (closeTextBlock rest).map (· + 1)

/-- The characters up to and with the end of a block comment, or all of them if it has no end. -/
def closeComment : List Char → Nat
  | [] => 0
  | '*' :: '/' :: _ => 2
  | _ :: rest => closeComment rest + 1

/-- The length of the text block at the front of a text. -/
def textBlock? : List Char → Option Nat
  | '"' :: '"' :: '"' :: rest => (closeTextBlock rest).map (· + 3)
  | _ => none

/-- The length of the string literal at the front of a text. -/
def string? : List Char → Option Nat
  | '"' :: rest => (closeQuote '"' rest).map (· + 1)
  | _ => none

/-- The length of the character literal at the front of a text; between its quotes stands
something. -/
def character? : List Char → Option Nat
  | '\'' :: '\'' :: _ => none
  | '\'' :: rest => (closeQuote '\'' rest).map (· + 1)
  | _ => none

/-- The length of the block comment at the front of a text. -/
def blockComment? : List Char → Option Nat
  | '/' :: '*' :: rest => some (closeComment rest + 2)
  | _ => none

/-- The length of the line comment at the front of a text; the line feed after it is code. -/
def lineComment? : List Char → Option Nat
  | '/' :: '/' :: rest => some ((rest.takeWhile (· != '\n')).length + 2)
  | _ => none

/-- The literal or comment at the front of a text with its length. Three quotes open a text block
before two of them make an empty string, and a quote that nothing closes is code. -/
def literalAt (text : List Char) : Option (LiteralKind × Nat) :=
  ((textBlock? text).map (.textBlock, ·)).or <|
  ((string? text).map (.string, ·)).or <|
  ((character? text).map (.character, ·)).or <|
  ((blockComment? text).map (.blockComment, ·)).or <|
  (lineComment? text).map (.lineComment, ·)

/-- A source is a sequence of characters of code and of literals. -/
inductive Piece where
  | code (c : Char)
  | literal (kind : LiteralKind) (text : List Char)
  deriving DecidableEq, Repr

/-- The pieces of a source from left to right. -/
def pieces : List Char → List Piece
  | [] => []
  | c :: rest =>
    match literalAt (c :: rest) with
    | none => .code c :: pieces rest
    | some (kind, length) =>
      .literal kind (c :: rest.take (length - 1)) :: pieces (rest.drop (length - 1))
termination_by text => text.length
decreasing_by all_goals simp only [List.length_cons, List.length_drop]; omega

/-- As many line feeds as a text has. -/
def lineFeeds (text : List Char) : List Char :=
  text.filter (· == '\n')

/-- What stands for a literal once its contents are gone: empty quotes, or a blank for a block
comment. Line feeds are kept. -/
def Piece.blanked : Piece → List Char
  | .code c => [c]
  | .literal .textBlock text => '"' :: '"' :: lineFeeds text
  | .literal .string _ => ['"', '"']
  | .literal .character _ => ['\'', ' ', '\'']
  | .literal .blockComment text => ' ' :: lineFeeds text
  | .literal .lineComment _ => []

/-- How many characters of the source a piece takes. -/
def Piece.length : Piece → Nat
  | .code _ => 1
  | .literal _ text => text.length

/-- A source without comments and with every literal emptied. -/
def blanked (source : List Char) : List Char :=
  (pieces source).flatMap Piece.blanked

/-- Where the literals among the pieces begin and end, the first piece at `offset`. -/
def spansFrom (offset : Nat) : List Piece → List (Nat × Nat)
  | [] => []
  | .code _ :: more => spansFrom (offset + 1) more
  | .literal _ text :: more =>
    (offset, offset + text.length) :: spansFrom (offset + text.length) more

/-- Where the comments and literals of a source begin and end. -/
def literalSpans (source : List Char) : List (Nat × Nat) :=
  spansFrom 0 (pieces source)

/-- The spans of the pieces of a text, the first piece at `offset`, end within the text. -/
theorem stop_le_of_mem_spansFrom {text : List Char} {offset : Nat} {span : Nat × Nat}
    (member : span ∈ spansFrom offset (pieces text)) : span.2 ≤ offset + text.length := by
  -- Each piece takes its own characters off the front of the text, and no others.
  fun_induction pieces text generalizing offset with
  | case1 => cases member
  | case2 c rest _ ih =>
    have later := ih member
    rw [List.length_cons]
    omega
  | case3 c rest kind length _ ih =>
    rcases List.mem_cons.mp member with rfl | further
    · simp only [List.length_cons, List.length_take]
      omega
    · have later := ih further
      simp only [List.length_cons, List.length_take, List.length_drop] at later ⊢
      omega

/-- No comment or literal reaches beyond the end of the source. -/
theorem stop_le_of_mem_literalSpans {source : List Char} {span : Nat × Nat}
    (member : span ∈ literalSpans source) : span.2 ≤ source.length := by
  -- The first piece of a source is at its front.
  have within := stop_le_of_mem_spansFrom member
  omega

end Lineage.Java
