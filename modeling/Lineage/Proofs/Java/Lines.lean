import Lineage.Proofs.Java.Comment
import Lineage.Proofs.Java.Token

/-! Emptying the literals of a source keeps each character of code on its line, unless a string or a
character literal reaches over the end of a line. -/

namespace Lineage.Java

/-- The line of a position in a text, counted from zero. -/
def lineAt (text : List Char) (position : Nat) : Nat :=
  (text.take position).count '\n'

/-- Where in the text of blanked pieces the character at a position of their source comes to stand:
behind what stands for the pieces before it. -/
def placeAmong : List Piece → Nat → Nat
  | [], _ => 0
  | piece :: row, position =>
    if position < piece.length then
      0 else piece.blanked.length + placeAmong row (position - piece.length)

/-- Where in the blanked source a character of code comes to stand. -/
def blankedPlace (source : List Char) (position : Nat) : Nat :=
  placeAmong (pieces source) position

/-- The line feeds of a literal that nothing stands for once it is emptied. -/
def Piece.droppedFeeds : Piece → List Char
  | .literal .string text => lineFeeds text
  | .literal .character text => lineFeeds text
  | _ => []

theorem length_lineFeeds (text : List Char) : (lineFeeds text).length = text.count '\n' := by
  rw [lineFeeds, List.count, List.countP_eq_length_filter]

theorem count_lineFeeds (text : List Char) : (lineFeeds text).count '\n' = text.count '\n' := by
  rw [lineFeeds, List.count_filter rfl]

/-- The kept and the dropped line feeds of a piece are all that it has, if it is no line comment
that has any. -/
theorem Piece.count_source {piece : Piece}
    (oneLine : ∀ text, piece = .literal .lineComment text → '\n' ∉ text) :
    piece.source.count '\n' = piece.blanked.count '\n' + piece.droppedFeeds.length := by
  -- A literal keeps its line feeds, drops them, or has none.
  cases piece with
  | code c => rfl
  | literal kind text =>
    cases kind with
    | textBlock => simp [Piece.source, blanked, droppedFeeds, count_lineFeeds]
    | string => simp [Piece.source, blanked, droppedFeeds, length_lineFeeds]
    | character => simp [Piece.source, blanked, droppedFeeds, length_lineFeeds]
    | blockComment => simp [Piece.source, blanked, droppedFeeds, count_lineFeeds]
    | lineComment =>
      simp [Piece.source, blanked, droppedFeeds, List.count_eq_zero.mpr (oneLine text rfl)]

variable {row : List Piece} {source : List Char}

/-- The same for pieces in a row. -/
theorem count_sourceOf (oneLine : ∀ text, .literal .lineComment text ∈ row → '\n' ∉ text) :
    (sourceOf row).count '\n' = (row.flatMap Piece.blanked).count '\n' +
      (row.flatMap Piece.droppedFeeds).length := by
  induction row with
  | nil => rfl
  | cons piece row ih =>
    have first := Piece.count_source fun text same => oneLine text (same ▸ List.mem_cons_self)
    have others := ih fun text among => oneLine text (List.mem_cons_of_mem piece among)
    simp only [sourceOf_cons, List.flatMap_cons, List.count_append, List.length_append, first,
      others]
    omega

/-- Each literal among the pieces of a source is a token with what follows it. -/
theorem Lexed.isToken (lexed : Lexed source row) {kind : LiteralKind} {text : List Char}
    (among : .literal kind text ∈ row) : ∃ rest, IsToken kind text rest := by
  obtain ⟨front, back, rfl⟩ := List.append_of_mem among
  obtain ⟨rest, _, found, _⟩ := lexed.drop.of_literal
  exact ⟨rest, isToken_of_find (literalAt_eq_some.mp found).1⟩

/-- Within quotes a line feed only comes behind a backslash. -/
theorem QuotedSteps.feed_iff {quote : Char} {inner : List Char} (steps : QuotedSteps quote inner) :
    '\n' ∈ inner ↔ ['\\', '\n'] <:+: inner := by
  -- A line feed is admitted only behind a backslash.
  refine ⟨fun feed => ?_, fun escaped => escaped.subset (by decide)⟩
  induction steps with
  | none => cases feed
  | @escape c rest _ ih =>
    rcases List.mem_cons.mp feed with same | feed
    · cases same
    · rcases List.mem_cons.mp feed with rfl | feed
      · exact ⟨[], rest, rfl⟩
      · exact (ih feed).trans ⟨['\\', c], [], by simp⟩
  | @single c rest _ admitted _ ih =>
    rcases List.mem_cons.mp feed with rfl | feed
    · exact absurd rfl admitted.2
    · exact (ih feed).trans ⟨[c], [], by simp⟩

/-- A string or a character literal in which a backslash stands before a line feed. -/
def Piece.ReachesOver : Piece → Prop
  | .code _ => False
  | .literal kind text => (kind = .string ∨ kind = .character) ∧ ['\\', '\n'] <:+: text

/-- Line feeds within quotes are dropped, and there they are only behind a backslash. -/
theorem lineFeeds_quoted_iff {quote : Char} {inner : List Char} (steps : QuotedSteps quote inner)
    (noFeed : quote ≠ '\n') :
    lineFeeds (quote :: (inner ++ [quote])) = [] ↔ ¬ ['\\', '\n'] <:+: quote ::
      (inner ++ [quote]) := by
  -- The quotes themselves are no line feeds, so those inside are all there are.
  have outer : ['\\', '\n'] <:+: quote :: (inner ++ [quote]) ↔ '\n' ∈ inner := by
    constructor
    · intro escaped
      have feed : '\n' ∈ quote :: (inner ++ [quote]) := escaped.subset (by decide)
      simpa [noFeed.symm] using feed
    · intro feed
      exact (steps.feed_iff.1 feed).trans ⟨[quote], [quote], by simp⟩
  rw [outer, lineFeeds, List.filter_eq_nil_iff]
  simp only [beq_iff_eq]
  constructor
  · intro none feed
    exact none '\n' (by simp [feed]) rfl
  · rintro none c among rfl
    exact none (by simpa [noFeed.symm] using among)

/-- A piece of a source drops line feeds exactly if it is a literal that reaches over the end of a
line. -/
theorem Lexed.droppedFeeds_eq_nil_iff (lexed : Lexed source row) {piece : Piece}
    (among : piece ∈ row) : piece.droppedFeeds = [] ↔ ¬ piece.ReachesOver := by
  -- Only strings and characters drop what they hold.
  cases piece with
  | code c => simp [Piece.droppedFeeds, Piece.ReachesOver]
  | literal kind text =>
    obtain ⟨rest, token⟩ := lexed.isToken among
    cases token with
    | string steps =>
      simpa [Piece.droppedFeeds, Piece.ReachesOver] using lineFeeds_quoted_iff steps (by decide)
    | character steps _ =>
      simpa [Piece.droppedFeeds, Piece.ReachesOver] using lineFeeds_quoted_iff steps (by decide)
    | _ => simp [Piece.droppedFeeds, Piece.ReachesOver]

/-- A line comment holds no line feed. -/
theorem Lexed.feed_notMem (lexed : Lexed source row) {text : List Char}
    (among : .literal .lineComment text ∈ row) : '\n' ∉ text := by
  obtain ⟨rest, token⟩ := lexed.isToken among
  cases token with
  | lineComment noFeed _ => simpa using noFeed

/-- Code stands in the blanked source behind the blanked pieces before it. -/
theorem placeAmong_append (front : List Piece) (c : Char) (back : List Piece) :
    placeAmong (front ++ .code c :: back) (sourceOf front).length =
      (front.flatMap Piece.blanked).length := by
  induction front with
  | nil => rfl
  | cons piece front ih =>
    have sized : piece.length = piece.source.length := by cases piece <;> rfl
    rw [List.cons_append, placeAmong, sourceOf_cons, List.length_append, ← sized, if_neg (by omega),
      Nat.add_sub_cancel_left, ih, List.flatMap_cons, List.length_append]

/-- A character of code is kept, and its line moves up by the line feeds that are dropped before
it. -/
theorem lineAt_code {front back : List Piece} {c : Char}
    (whole : pieces source = front ++ .code c :: back) :
    (blanked source)[blankedPlace source (sourceOf front).length]? =
      source[(sourceOf front).length]? ∧
      lineAt source (sourceOf front).length =
        lineAt (blanked source) (blankedPlace source (sourceOf front).length) +
          (front.flatMap Piece.droppedFeeds).length := by
  have lexed := lexed_pieces source
  rw [whole] at lexed
  have oneLine : ∀ text, .literal .lineComment text ∈ front → '\n' ∉ text :=
    fun text among => lexed.feed_notMem (List.mem_append_left _ among)
  -- The source and its blanked form both have the character behind what comes of the pieces before
  -- it.
  have before : source = sourceOf front ++ c :: sourceOf back := by
    rw [← lexed.sourceOf_eq]
    simp [Piece.source]
  have after : blanked source = front.flatMap Piece.blanked ++ c :: back.flatMap Piece.blanked := by
    rw [blanked, whole, List.flatMap_append]
    rfl
  have place : blankedPlace source (sourceOf front).length =
      (front.flatMap Piece.blanked).length := by
    rw [blankedPlace, whole, placeAmong_append]
  constructor
  · have kept : source[(sourceOf front).length]? = some c := by
      rw [before]
      simp
    rw [place, after, kept]
    simp
  · have lines : (source.take (sourceOf front).length).count '\n' =
        (sourceOf front).count '\n' := by
      rw [before, List.take_left]
    rw [place, after, lineAt, lineAt, List.take_left, lines, count_sourceOf oneLine]

/-- What it means for line structure to survive: there are as many line feeds as before, and each
character outside the literals is still there, on the line on which it was. -/
structure KeepsLines (source : List Char) : Prop where
  feeds : (blanked source).count '\n' = source.count '\n'
  lines : ∀ position < source.length, inSpan (literalSpans source) position = false →
    (blanked source)[blankedPlace source position]? = source[position]? ∧
      lineAt (blanked source) (blankedPlace source position) = lineAt source position

/-- The lines of a source are kept exactly if no string and no character literal has a line feed
behind a backslash; each such line feed is lost. -/
theorem keepsLines_iff (source : List Char) :
    (KeepsLines source ↔ ∀ piece ∈ pieces source, ¬ piece.ReachesOver) ∧
      source.count '\n' = (blanked source).count '\n' +
        ((pieces source).flatMap Piece.droppedFeeds).length := by
  have lexed := lexed_pieces source
  have counted := count_sourceOf fun text among => lexed.feed_notMem among
  rw [sourceOf_pieces, ← blanked] at counted
  refine ⟨⟨fun keeps piece among => ?_,
    fun within => ⟨?_, fun position inside uncovered => ?_⟩⟩, counted⟩
  · -- As many line feeds are kept as there are, so none is dropped.
    rw [← lexed.droppedFeeds_eq_nil_iff among]
    have none : ((pieces source).flatMap Piece.droppedFeeds).length = 0 := by
      have := keeps.feeds
      omega
    exact List.flatMap_eq_nil_iff.1 (List.length_eq_zero_iff.1 none) piece among
  · have none : (pieces source).flatMap Piece.droppedFeeds = [] :=
      List.flatMap_eq_nil_iff.2 fun piece among =>
        (lexed.droppedFeeds_eq_nil_iff among).2 (within piece among)
    rw [counted, none]
    rfl
  · obtain ⟨front, c, back, whole, rfl⟩ := (codeAt_iff inside).2 uncovered
    obtain ⟨kept, line⟩ := lineAt_code whole
    have none : front.flatMap Piece.droppedFeeds = [] := by
      refine List.flatMap_eq_nil_iff.2 fun piece among => ?_
      have inAll : piece ∈ pieces source := by
        rw [whole]
        exact List.mem_append_left _ among
      exact (lexed.droppedFeeds_eq_nil_iff inAll).2 (within piece inAll)
    rw [none] at line
    exact ⟨kept, line.symm⟩

/-- A string with a line feed behind a backslash takes the line after it up with it. -/
theorem not_keepsLines_continued :
    let source := "s = \"a\\\nb\";\nint x;".toList
    blanked source = "s = \"\";\nint x;".toList ∧ source.count '\n' = 2 ∧
      (blanked source).count '\n' = 1 ∧
      ¬ KeepsLines source := by
  intro source
  have result : blanked source = "s = \"\";\nint x;".toList := by decide +kernel
  have one : (blanked source).count '\n' = 1 := by rw [result]; decide
  refine ⟨result, by decide, one, fun keeps => ?_⟩
  have two : source.count '\n' = 2 := by decide
  rw [← keeps.feeds, one] at two
  cases two

end Lineage.Java
