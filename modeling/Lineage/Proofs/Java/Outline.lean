import Lineage.Java.Source
import Lineage.Proofs.Java.CodeSearch
import Lineage.Proofs.Java.WellFormed
import Mathlib.Data.List.Forall2
import Mathlib.Data.List.Infix
import Mathlib.Data.List.Zip

/-! What the contents of comments and literals can change in what is read from a source. -/

namespace Lineage.Java

open Lineage.Text

/-- Two pieces are alike when they are the same character of code, or literals of one kind with as
many line feeds. -/
inductive Piece.Alike : Piece → Piece → Prop where
  | code (c : Char) : Alike (.code c) (.code c)
  | literal {kind : LiteralKind} {one other : List Char} :
    lineFeeds one = lineFeeds other → Alike (.literal kind one) (.literal kind other)

theorem Piece.Alike.symm {one other : Piece} (alike : Alike one other) : Alike other one := by
  cases alike with
  | code c => exact .code c
  | literal feeds => exact .literal feeds.symm

/-- Pieces that are alike are blanked to the same text. -/
theorem Piece.Alike.blanked_eq {one other : Piece} (alike : Alike one other) :
    one.blanked = other.blanked := by
  cases alike with
  | code c => rfl
  | @literal kind one other feeds => cases kind <;> simp [Piece.blanked, feeds]

/-- Once the contents of literals are gone, rows of like pieces are the same. -/
theorem blanked_of_alike {one other : List Piece} (alike : List.Forall₂ Piece.Alike one other) :
    one.flatMap Piece.blanked = other.flatMap Piece.blanked := by
  induction alike with
  | nil => rfl
  | cons here _ ih => rw [List.flatMap_cons, List.flatMap_cons, here.blanked_eq, ih]

/-- The kind of a piece that is a literal. -/
def Piece.kind? : Piece → Option LiteralKind
  | .code _ => none
  | .literal kind _ => some kind

/-- Two sources have the same outline when they differ only inside of comments and literals, which
have the same kinds and places in both, as do line feeds. -/
structure SameOutline (one other : List Char) : Prop where
  length : one.length = other.length
  spans : literalSpans one = literalSpans other
  kinds : (pieces one).filterMap Piece.kind? = (pieces other).filterMap Piece.kind?
  feeds : ∀ place : Nat, one[place]? = some '\n' ↔ other[place]? = some '\n'
  code : ∀ place : Nat, inSpan (literalSpans one) place = false → one[place]? = other[place]?

variable {one other text name : List Char} {row front back front' row' : List Piece} {kind : Kind}
  {piece : Piece} {before before' : Option Char} {offset : Nat}

/-- Only the places within a source need to be looked at. -/
theorem sameOutline_iff : SameOutline one other ↔
    one.length = other.length ∧ literalSpans one = literalSpans other ∧
      (pieces one).filterMap Piece.kind? = (pieces other).filterMap Piece.kind? ∧
      ∀ place < one.length, (one[place]? = some '\n' ↔ other[place]? = some '\n') ∧
        (inSpan (literalSpans one) place = false → one[place]? = other[place]?) := by
  constructor
  · rintro ⟨length, spans, kinds, feeds, code⟩
    exact ⟨length, spans, kinds, fun place _ => ⟨feeds place, code place⟩⟩
  · rintro ⟨length, spans, kinds, within⟩
    -- Beyond the end of the sources there is nothing in either.
    have beyond : ∀ place, ¬ place < one.length → one[place]? = none ∧ other[place]? = none :=
      fun place outside => ⟨List.getElem?_eq_none (by omega), List.getElem?_eq_none (by omega)⟩
    refine ⟨length, spans, kinds, fun place => ?_, fun place uncovered => ?_⟩
    · by_cases inside : place < one.length
      · exact (within place inside).1
      · rw [(beyond place inside).1, (beyond place inside).2]
    · by_cases inside : place < one.length
      · exact (within place inside).2 uncovered
      · rw [(beyond place inside).1, (beyond place inside).2]

instance (one other : List Char) : Decidable (SameOutline one other) :=
  decidable_of_iff _ sameOutline_iff.symm

/-- Texts with line feeds at the same places have as many of them. -/
theorem lineFeeds_eq (length : one.length = other.length)
    (feeds : ∀ place : Nat, one[place]? = some '\n' ↔ other[place]? = some '\n') :
    lineFeeds one = lineFeeds other := by
  induction one generalizing other with
  | nil => rw [List.eq_nil_of_length_eq_zero length.symm]
  | cons c one ih =>
    obtain ⟨d, other, rfl⟩ := List.exists_cons_of_length_eq_add_one length.symm
    have here : c = '\n' ↔ d = '\n' := by simpa using feeds 0
    have later := ih (by simpa using length) fun place => by simpa using feeds (place + 1)
    unfold lineFeeds at later ⊢
    by_cases isFeed : c = '\n'
    · simp [isFeed, here.mp isFeed, later]
    · simp [isFeed, mt here.mpr isFeed, later]

/-- The pieces of no text are none. -/
theorem Lexed.eq_nil (lexed : Lexed (sourceOf row) row) (nothing : (sourceOf row).length = 0) :
    row = [] := by
  rw [List.length_eq_zero_iff.mp nothing] at lexed
  rw [← lexed.eq_pieces]
  simp [pieces]

theorem Lexed.tail {c : Char} (lexed : Lexed (sourceOf (.code c :: row)) (.code c :: row)) :
    Lexed (sourceOf row) row := by
  obtain ⟨rest, _, _, further⟩ := lexed.of_code
  rwa [further.sourceOf_eq]

/-- What stands behind some of the pieces of a source. -/
theorem getElem?_behind {source : List Char} (whole : pieces source = front ++ back) (place : Nat) :
    source[(sourceOf front).length + place]? = (sourceOf back)[place]? := by
  rw [← sourceOf_pieces source, whole, sourceOf_append, List.getElem?_append_right (by omega)]
  congr 1
  omega

/-- No literal begins where there is code. -/
theorem spansFrom_code_ne (offset : Nat) (c : Char) (kind : LiteralKind) (text : List Char)
    (row row' : List Piece) :
    spansFrom offset (.code c :: row) ≠ spansFrom offset (.literal kind text :: row') := by
  intro same
  -- The span of the literal begins here, and those of a row behind code begin later.
  have listed : (offset, offset + text.length) ∈ spansFrom offset (.literal kind text :: row') :=
    List.mem_cons_self
  rw [← same] at listed
  have placed : (offset, offset + text.length) ∈ spansFrom (offset + 1) row := listed
  have later : offset + 1 ≤ offset := (bounds_of_mem_spansFrom placed).1
  omega

/-- What is left of the two sources behind as much text is as long. -/
theorem SameOutline.length_behind (outline : SameOutline one other)
    (whole : pieces one = front ++ row) (whole' : pieces other = front' ++ row')
    (length : (sourceOf front).length = (sourceOf front').length) :
    (sourceOf row).length = (sourceOf row').length := by
  have total := outline.length
  rw [← sourceOf_pieces one, ← sourceOf_pieces other, whole, whole', sourceOf_append,
    sourceOf_append, List.length_append, List.length_append] at total
  omega

/-- The line feeds of two literals at the same place of sources of one outline. -/
theorem SameOutline.lineFeeds_eq (outline : SameOutline one other) {kind kind' : LiteralKind}
    {text' : List Char} (whole : pieces one = front ++ .literal kind text :: row)
    (whole' : pieces other = front' ++ .literal kind' text' :: row')
    (length : (sourceOf front).length = (sourceOf front').length)
    (sized : text.length = text'.length) : lineFeeds text = lineFeeds text' := by
  refine Java.lineFeeds_eq sized fun place => ?_
  by_cases inside : place < text.length
  · -- Within the literals the places are those of the sources, counted from behind the front.
    have feeds := outline.feeds ((sourceOf front).length + place)
    rw [getElem?_behind whole, length, getElem?_behind whole'] at feeds
    simpa only [sourceOf_cons, Piece.source, List.getElem?_append_left inside,
      List.getElem?_append_left (sized ▸ inside)] using feeds
  · rw [List.getElem?_eq_none (by omega), List.getElem?_eq_none (by omega)]

/-- Sources of one outline fall into like pieces: each piece begins where its counterpart does. -/
theorem SameOutline.alike_rows (outline : SameOutline one other) (whole : pieces one = front ++ row)
    (whole' : pieces other = front' ++ row')
    (length : (sourceOf front).length = (sourceOf front').length)
    (spans : spansFrom (sourceOf front).length row = spansFrom (sourceOf front).length row')
    (kinds : row.filterMap Piece.kind? = row'.filterMap Piece.kind?) :
    List.Forall₂ Piece.Alike row row' := by
  -- Along the one row; the fronts stay as long as each other.
  induction row generalizing front front' row' with
  | nil =>
    have lexed : Lexed (sourceOf row') row' := (whole' ▸ lexed_pieces other).drop
    rw [lexed.eq_nil (outline.length_behind whole whole' length).symm]
    exact .nil
  | cons piece row ih =>
    have lexed : Lexed (sourceOf (piece :: row)) (piece :: row) := (whole ▸ lexed_pieces one).drop
    cases row' with
    | nil => cases lexed.eq_nil (outline.length_behind whole whole' length)
    | cons piece' row' =>
      -- Behind pieces of one length the same is known of the rest.
      have further : piece.source.length = piece'.source.length →
          spansFrom ((sourceOf front).length + piece.source.length) row =
            spansFrom ((sourceOf front).length + piece.source.length) row' →
          row.filterMap Piece.kind? = row'.filterMap Piece.kind? →
            List.Forall₂ Piece.Alike row row' := by
        intro sized spans kinds
        refine @ih (front ++ [piece]) (front' ++ [piece']) row' (by simpa using whole)
          (by simpa using whole') ?_ ?_ kinds
        · simp [length, sized]
        · simpa using spans
      cases piece with
      | code c =>
        cases piece' with
        | code d =>
          -- No literal covers the place, so the two characters are the same.
          have uncovered : inSpan (literalSpans one) (sourceOf front).length = false := by
            rw [literalSpans, whole]
            exact inSpan_code front row c
          have same := outline.code (sourceOf front).length uncovered
          have atOne := getElem?_behind whole 0
          have atOther := getElem?_behind whole' 0
          simp only [Nat.add_zero, sourceOf_cons, Piece.source, List.singleton_append,
            List.getElem?_cons_zero]
            at atOne atOther
          rw [atOne, length, atOther, Option.some.injEq] at same
          subst same
          exact .cons (.code c) (further rfl spans kinds)
        | literal kind text =>
          exact absurd spans (spansFrom_code_ne _ _ _ _ _ _)
      | literal kind text =>
        cases piece' with
        | code d =>
          exact absurd spans.symm (spansFrom_code_ne _ _ _ _ _ _)
        | literal kind' text' =>
          -- The spans and the kinds of the literals begin with those of these two.
          obtain ⟨sameSpan, later⟩ := List.cons.inj spans
          obtain ⟨rfl, laterKinds⟩ := List.cons.inj kinds
          have sized : text.length = text'.length := by simpa using sameSpan
          refine .cons (.literal (outline.lineFeeds_eq whole whole' length sized))
            (further sized ?_ laterKinds)
          rw [← sized] at later
          exact later

/-- Whether a piece is a character of code of a class. -/
def Piece.isCode (p : Char → Bool) : Piece → Bool
  | .code c => p c
  | .literal _ _ => false

@[simp] theorem Piece.isCode_code (p : Char → Bool) (c : Char) : (Piece.code c).isCode p = p c :=
  rfl

/-- Whether pieces begin, in code, with the word for a kind of type, blanks and a name. -/
def beginsHeader (row : List Piece) : Bool :=
  [keywordOf .plainClass, keywordOf .interface].any fun word =>
    let behind := row.drop word.length
    (word.map Piece.code).isPrefixOf row && behind.head?.any (Piece.isCode isBlank) &&
      (behind.dropWhile (Piece.isCode isBlank)).head?.any (Piece.isCode isNameChar)

/-- Whether a word may begin behind pieces: they do not end with code that it would go on with. -/
def mayBegin (front : List Piece) : Bool :=
  !front.getLast?.any (Piece.isCode fun c => isNameChar c || c == '.' || c == '@')

/-- Whether a header has begun among pieces, with a whole word for a kind of type. -/
def headerBegun (row : List Piece) : Bool :=
  (row.inits.zip row.tails).any fun parts => mayBegin parts.1 && beginsHeader parts.2

/-- Whether a header has begun among pieces and neither a brace nor a semicolon of code has ended
it. -/
def headerOpen (row : List Piece) : Bool :=
  (row.inits.zip row.tails).any fun parts => mayBegin parts.1 && beginsHeader parts.2 &&
    parts.2.all fun piece => !piece.isCode fun c => c == '{' || c == ';'

/-- A header has begun exactly if the pieces can be cut where one begins. -/
theorem headerBegun_iff : headerBegun row = true ↔
    ∃ before tail, before ++ tail = row ∧ mayBegin before = true ∧ beginsHeader tail = true := by
  simp only [headerBegun, List.any_eq_true, Prod.exists, List.mem_zip_inits_tails, Bool.and_eq_true]

/-- A header is open exactly if the pieces can be cut where one begins that nothing ends. -/
theorem headerOpen_iff : headerOpen row = true ↔
    ∃ before tail, before ++ tail = row ∧ (mayBegin before = true ∧ beginsHeader tail = true) ∧
      ∀ piece ∈ tail, (!piece.isCode fun c => c == '{' || c == ';') = true := by
  simp only [headerOpen, List.any_eq_true, Prod.exists, List.mem_zip_inits_tails, Bool.and_eq_true,
    List.all_eq_true]

/-- Two texts of a literal behind `front` hide nothing from the search for bodies if, once a header
has begun, they are the same or have balanced braces, and while it is open they have no opening
brace, and no semicolon where they differ. -/
def HarmlessAt (front : List Piece) (one other : List Char) : Prop :=
  (headerBegun front = true → one = other ∨ Balanced one ∧ Balanced other) ∧
    (headerOpen front = true → '{' ∉ one ∧ '{' ∉ other ∧ (one = other ∨ ';' ∉ one ∧ ';' ∉ other))

instance (front : List Piece) (one other : List Char) : Decidable (HarmlessAt front one other) :=
  inferInstanceAs (Decidable (_ ∧ _))

/-- Whether the literals of two rows behind `front` differ only in what hides nothing. -/
def harmless (front : List Piece) : List Piece → List Piece → Bool
  | .literal kind one :: row, .literal _ other :: row' =>
    decide (HarmlessAt front one other) && harmless (front ++ [.literal kind one]) row row'
  | .code c :: row, .code _ :: row' => harmless (front ++ [.code c]) row row'
  | _, _ => true

/-- What holds of the first element still does when more elements follow. -/
theorem any_head?_append {α : Type} {p : α → Bool} {one : List α} (first : one.head?.any p = true)
    (other : List α) :
    (one ++ other).head?.any p = true := by
  cases one with
  | nil => cases first
  | cons c one => exact first

/-- A header that begins in a row of pieces begins there whatever follows. -/
theorem beginsHeader_append (begun : beginsHeader row = true) (more : List Piece) :
    beginsHeader (row ++ more) = true := by
  simp only [beginsHeader, List.any_eq_true, Bool.and_eq_true,
    List.isPrefixOf_iff_prefix] at begun ⊢
  obtain ⟨word, listed, ⟨keyword, blank⟩, name⟩ := begun
  have long : word.length ≤ row.length := by simpa using keyword.length_le
  refine ⟨word, listed, ⟨keyword.trans (List.prefix_append row more), ?_⟩, ?_⟩
  · rw [List.drop_append_of_le_length long]
    exact any_head?_append blank more
  · -- The name stops the blanks before more pieces come.
    rw [List.drop_append_of_le_length long, List.dropWhile_append]
    cases left : (row.drop word.length).dropWhile (Piece.isCode isBlank) with
    | nil => simp [left] at name
    | cons piece rest => simpa [left] using name

/-- A header that has begun has begun for all that follows. -/
theorem headerBegun_append (begun : headerBegun row = true) (more : List Piece) :
    headerBegun (row ++ more) = true := by
  rw [headerBegun_iff] at begun ⊢
  obtain ⟨before, tail, rfl, word, begins⟩ := begun
  exact ⟨before, tail ++ more, by simp, word, beginsHeader_append begins more⟩

/-- An open header has begun. -/
theorem headerBegun_of_headerOpen (isOpen : headerOpen row = true) : headerBegun row = true := by
  obtain ⟨before, tail, cut, begins, _⟩ := headerOpen_iff.mp isOpen
  exact headerBegun_iff.mpr ⟨before, tail, cut, begins⟩

/-- A header stays open until a brace or a semicolon of code comes. -/
theorem headerOpen_append (isOpen : headerOpen row = true) {more : List Piece}
    (inside : ∀ c, .code c ∈ more → Reader.InHeader c) : headerOpen (row ++ more) = true := by
  rw [headerOpen_iff] at isOpen ⊢
  obtain ⟨before, tail, rfl, ⟨word, begun⟩, unended⟩ := isOpen
  refine ⟨before, tail ++ more, by simp, ⟨word, beginsHeader_append begun more⟩,
    fun piece member => ?_⟩
  rcases List.mem_append.mp member with early | late
  · exact unended piece early
  · -- A literal is no code and ends no header.
    cases piece with
    | code c => simpa [Piece.isCode, Reader.InHeader] using inside c late
    | literal kind text => rfl

/-- A header begins with the word for a kind, blanks and a name. -/
theorem beginsHeader_keyword (kind : Kind) {blanks : List Char} (someBlanks : blanks ≠ [])
    (allBlank : ∀ c ∈ blanks, isBlank c = true) (nonempty : name ≠ [])
    (named : ∀ c ∈ name, isNameChar c = true) :
    beginsHeader ((keywordOf kind ++ (blanks ++ name)).map .code) = true := by
  obtain ⟨c, name, rfl⟩ := List.exists_cons_of_ne_nil nonempty
  obtain ⟨blank, blanks, rfl⟩ := List.exists_cons_of_ne_nil someBlanks
  have listed : keywordOf kind ∈ [keywordOf .plainClass, keywordOf .interface] := by
    cases kind with
    | plainClass | abstractClass => exact List.mem_cons_self
    | interface => exact List.mem_cons_of_mem _ List.mem_cons_self
  -- The blanks are skipped, and the name stops them.
  have isName := named c List.mem_cons_self
  have notBlank : ¬ (Piece.code c).isCode isBlank = true := by
    simp [isBlank_of_isNameChar isName]
  have skipped : ∀ piece ∈ (blank :: blanks).map Piece.code, piece.isCode isBlank = true := by
    intro piece member
    obtain ⟨d, inside, rfl⟩ := List.mem_map.mp member
    exact allBlank d inside
  simp only [beginsHeader, List.any_eq_true, Bool.and_eq_true, List.isPrefixOf_iff_prefix]
  refine ⟨keywordOf kind, listed, ⟨?_, ?_⟩, ?_⟩
  · rw [List.map_append]
    exact List.prefix_append _ _
  · rw [List.map_append, List.drop_left' (by simp), List.cons_append, List.map_cons,
      List.head?_cons, Option.any_some]
    exact skipped _ List.mem_cons_self
  · rw [List.map_append, List.drop_left' (by simp), List.map_append,
      List.dropWhile_append_of_pos skipped, List.map_cons, List.dropWhile_cons_of_neg notBlank,
      List.head?_cons, Option.any_some, Piece.isCode_code]
    exact isName

/-- A word may begin behind pieces exactly if it may follow the character of code they end with. -/
theorem mayBegin_iff :
    mayBegin front = true ↔ ∀ c, front.getLast? = some (.code c) → MayPrecede (some c) := by
  -- Only a piece of code has a character that can stand in the way.
  unfold mayBegin MayPrecede
  cases front.getLast? with
  | none => simp
  | some piece => cases piece <;> simp [Piece.isCode]

/-- Behind an announcement a header is open. -/
theorem headerOpen_announcement {values : List (List Char)} {spelled : List Char}
    (announced : Announcement kind values name spelled) (nonempty : name ≠ [])
    (named : ∀ c ∈ name, isNameChar c = true) (started : mayBegin front = true) :
    headerOpen (front ++ spelled.map .code) = true := by
  have wordy := announced.isWordy named
  obtain ⟨modifiers, blanks, rfl, isText, someBlanks, allBlank⟩ := announced
  -- It begins behind the modifiers, and no character of an announcement ends it.
  refine headerOpen_iff.mpr ⟨front ++ modifiers.map .code, _, ?_,
    ⟨?_, beginsHeader_keyword kind someBlanks allBlank nonempty named⟩, ?_⟩
  · simp
  · -- Modifiers end with a blank, and where there are none the word follows what came before.
    rw [mayBegin_iff] at started ⊢
    intro c isLast
    cases last : modifiers.getLast? with
    | none =>
      rw [List.getLast?_eq_none_iff.mp last, List.map_nil, List.append_nil] at isLast
      exact started c isLast
    | some d =>
      rw [List.getLast?_append, List.getLast?_map, last] at isLast
      cases isLast
      have follows := isText.mayPrecede (rfl : MayPrecede none)
      rwa [last] at follows
  · rintro _ member
    obtain ⟨d, inside, rfl⟩ := List.mem_map.mp member
    have := Reader.inHeader_of_isWordy (wordy d (List.mem_append_right _ inside))
    simpa [Reader.InHeader] using this

/-- No brace opens in a text, or a semicolon comes before it. -/
def Unopened (text : List Char) : Prop :=
  ∀ gap rest, (∀ c ∈ gap, Reader.InHeader c) → text ≠ gap ++ '{' :: rest

/-- What can stand in a header does not open what is not opened behind it. -/
theorem Unopened.append {rest : List Char} (inside : ∀ c ∈ text, Reader.InHeader c)
    (unopened : Unopened rest) : Unopened (text ++ rest) := by
  intro gap more all split
  obtain ⟨later, rfl, behind⟩ := brace_behind (fun brace => (inside _ brace).1 rfl) split
  exact unopened later more (fun c member => all c (List.mem_append_right text member)) behind

/-- A semicolon before all braces opens nothing. -/
theorem unopened_of_semicolon (plain : '{' ∉ text) (ended : ';' ∈ text) (rest : List Char) :
    Unopened (text ++ rest) := by
  intro gap more all split
  obtain ⟨later, rfl, _⟩ := brace_behind plain split
  exact (all ';' (List.mem_append_left later ended)).2 rfl

/-- Two rows open alike when their first brace is a piece of code with like pieces behind it, or
neither opens. -/
def OpensAlike (row row' : List Piece) : Prop :=
  (Unopened (sourceOf row) ∧ Unopened (sourceOf row')) ∨
    ∃ gap rear gap' rear' front, row = gap ++ .code '{' :: rear ∧
      row' = gap' ++ .code '{' :: rear' ∧
      (∀ c ∈ sourceOf gap, Reader.InHeader c) ∧ (∀ c ∈ sourceOf gap', Reader.InHeader c) ∧
      List.Forall₂ Piece.Alike rear rear' ∧ harmless front rear rear' = true ∧
        headerBegun front = true

/-- Pieces that end no header change nothing. -/
theorem OpensAlike.cons {piece' : Piece} (rest : OpensAlike row row')
    (inside : ∀ c ∈ piece.source, Reader.InHeader c)
    (inside' : ∀ c ∈ piece'.source, Reader.InHeader c) :
    OpensAlike (piece :: row) (piece' :: row') := by
  -- The new pieces can stand in a header, so they become part of the gap.
  rcases rest with ⟨one, other⟩ | ⟨gap, rear, gap', rear', front, rfl, rfl, all, all', more⟩
  · exact Or.inl ⟨one.append inside, other.append inside'⟩
  · refine Or.inr ⟨piece :: gap, rear, piece' :: gap', rear', front, rfl, rfl, ?_, ?_, more⟩
    · intro c member
      rw [sourceOf_cons, List.mem_append] at member
      exact member.elim (inside c) (all c)
    · intro c member
      rw [sourceOf_cons, List.mem_append] at member
      exact member.elim (inside' c) (all' c)

/-- Behind an open header, like rows open alike. -/
theorem opensAlike (alike : List.Forall₂ Piece.Alike row row')
    (safe : harmless front row row' = true) (isOpen : headerOpen front = true) :
    OpensAlike row row' := by
  induction alike generalizing front with
  | nil => exact Or.inl ⟨fun gap rest _ => by simp, fun gap rest _ => by simp⟩
  | @cons piece piece' row row' here rest ih =>
    cases here with
    | code c =>
      by_cases brace : c = '{'
      · -- The body opens here in both.
        subst brace
        exact Or.inr ⟨[], row, [], row', front ++ [.code '{'], rfl, rfl, by simp, by simp, rest,
          safe, headerBegun_append (headerBegun_of_headerOpen isOpen) _⟩
      · by_cases semicolon : c = ';'
        · -- The header ends here in both.
          subst semicolon
          have ended : ∀ rest, Unopened ([';'] ++ rest) :=
            unopened_of_semicolon (by decide) (by decide)
          exact Or.inl ⟨ended _, ended _⟩
        · have inside : ∀ d ∈ [c], Reader.InHeader d := by
            simpa [Reader.InHeader] using ⟨brace, semicolon⟩
          refine (ih safe (headerOpen_append isOpen fun d member => ?_)).cons inside inside
          simp only [List.mem_singleton, Piece.code.injEq] at member
          exact inside d (by simp [member])
    | @literal kind text text' feeds =>
      -- No brace is hidden here, and a semicolon in one literal stands in the other as well.
      simp only [harmless, Bool.and_eq_true, decide_eq_true_eq] at safe
      obtain ⟨⟨_, behindHeader⟩, later⟩ := safe
      obtain ⟨noBrace, noBrace', same⟩ := behindHeader isOpen
      by_cases semicolon : ';' ∈ text
      · have equal := same.resolve_right fun ⟨absent, _⟩ => absent semicolon
        subst equal
        exact Or.inl ⟨unopened_of_semicolon noBrace semicolon _,
          unopened_of_semicolon noBrace semicolon _⟩
      · have noSemicolon' : ';' ∉ text' := by
          rcases same with rfl | ⟨_, absent⟩
          · exact semicolon
          · exact absent
        refine (ih later (headerOpen_append isOpen fun d member => by simp at member)).cons ?_ ?_
        · exact fun c member =>
            ⟨fun brace => noBrace (brace ▸ member), fun mark => semicolon (mark ▸ member)⟩
        · exact fun c member =>
            ⟨fun brace => noBrace' (brace ▸ member), fun mark => noSemicolon' (mark ▸ member)⟩

/-- Code at the front of a row stands at the front of every like row. -/
theorem alike_code (alike : List.Forall₂ Piece.Alike (text.map .code ++ back) row) :
    ∃ back', row = text.map .code ++ back' ∧ List.Forall₂ Piece.Alike back back' := by
  induction text generalizing row with
  | nil => exact ⟨row, rfl, alike⟩
  | cons c text ih =>
    cases alike with
    | cons here rest =>
      obtain ⟨back', rfl, later⟩ := ih rest
      cases here
      exact ⟨back', rfl, later⟩

/-- Code is always harmless. -/
theorem harmless_code (front : List Piece) (text : List Char) (back back' : List Piece) :
    harmless front (text.map .code ++ back) (text.map .code ++ back') =
      harmless (front ++ text.map .code) back back' := by
  induction text generalizing front with
  | nil => simp
  | cons c text ih => simp [harmless, ih]

/-- Like rows begin with a character of a name in both cases or in neither. -/
theorem head_alike (alike : List.Forall₂ Piece.Alike row row') (lexed : Lexed (sourceOf row) row)
    (lexed' : Lexed (sourceOf row') row') :
    (sourceOf row).head?.any isNameChar = (sourceOf row').head?.any isNameChar := by
  -- A literal begins with a character that belongs to no name.
  have notName : ∀ {c}, isOpener c = true → isNameChar c = false := by
    intro c opens
    simp only [isOpener, Bool.or_eq_true, beq_iff_eq] at opens
    rcases opens with (rfl | rfl) | rfl <;> decide
  cases alike with
  | nil => rfl
  | cons here rest =>
    cases here with
    | code c => rfl
    | literal feeds =>
      obtain ⟨c, text, rfl, opens⟩ := lexed.opener
      obtain ⟨c', text', rfl, opens'⟩ := lexed'.opener
      simp [Piece.source, notName opens, notName opens']

/-- Where the next character could begin a word, the characters before two places agree on whether
it may. -/
def Level (before before' : Option Char) (text : List Char) : Prop :=
  text.head?.any isNameChar = true → (MayPrecede before ↔ MayPrecede before')

/-- What is announced at the front of a row is announced at the front of every like row. -/
theorem announced_alike {spelled rest : List Char}
    (announced : Announced kind name before spelled rest) (split : sourceOf row = spelled ++ rest)
    (named : ∀ c ∈ name, isNameChar c = true) (alike : List.Forall₂ Piece.Alike row row')
    (lexed : Lexed (sourceOf row) row) (lexed' : Lexed (sourceOf row') row')
    (level : Level before before' (sourceOf row)) :
    ∃ back back', rest = sourceOf back ∧ row = spelled.map .code ++ back ∧
      row' = spelled.map .code ++ back' ∧
      List.Forall₂ Piece.Alike back back' ∧ Announced kind name before' spelled
        (sourceOf back') := by
  obtain ⟨started, ⟨values, spells⟩, ended⟩ := announced
  -- Nothing in an announcement begins a literal, so all of it is code.
  have plain : ∀ c ∈ spelled, isOpener c = false :=
    fun c member => isOpener_of_isWordy (spells.isWordy named c member)
  have isCode : row = spelled.map .code ++ pieces rest := by
    rw [← pieces_append_plain plain, ← split, lexed.eq_pieces]
  subst isCode
  obtain ⟨back', rfl, later⟩ := alike_code alike
  refine ⟨pieces rest, back', by simp, rfl, rfl, later, ?_, ⟨values, spells⟩, ?_⟩
  · refine (level ?_).mp started
    rw [split]
    exact any_head?_append spells.head rest
  · rw [← head_alike later lexed.drop lexed'.drop, sourceOf_pieces]
    exact ended

/-- Where no brace opens, no body does. -/
theorem opening_of_unopened (named : ∀ c ∈ name, isNameChar c = true) (unopened : Unopened text) :
    ∀ result, result ∉ Reader.opening kind name ⟨offset, before, text⟩ := by
  -- The announcement and the gap behind it can all stand in a header.
  intro result read
  obtain ⟨spelled, gap, rest, split, announced, all, _⟩ := Reader.mem_opening.mp read
  obtain ⟨values, spells⟩ := announced.spelled
  refine unopened (spelled ++ gap) rest (fun c member => ?_) (by simpa using split)
  rcases List.mem_append.mp member with inSpelled | inGap
  · exact Reader.inHeader_of_isWordy (spells.isWordy named c inSpelled)
  · exact all c inGap

/-- Two openings that were found have like pieces behind them. -/
def RestAlike (found found' : Text.Reader.Found Unit) : Prop :=
  ∃ front rear rear', found.after.rest = sourceOf rear ∧ found'.after.rest = sourceOf rear' ∧
    List.Forall₂ Piece.Alike rear rear' ∧ harmless front rear rear' = true ∧
      headerBegun front = true ∧
    Lexed (sourceOf rear) rear ∧ Lexed (sourceOf rear') rear'

/-- Where nothing is announced, no body opens. -/
theorem opening_of_unannounced (unannounced :
      ¬ ∃ spelled rest, text = spelled ++ rest ∧ Announced kind name before spelled rest) :
    ∀ result, result ∉ Reader.opening kind name ⟨offset, before, text⟩ := by
  intro result read
  obtain ⟨spelled, gap, rest, split, announced, _, _⟩ := Reader.mem_opening.mp read
  exact unannounced ⟨spelled, gap ++ '{' :: rest, split, announced⟩

/-- Where one of two like rows announces nothing, the other does not either. -/
theorem unannounced_alike (unannounced : ¬ ∃ spelled rest, sourceOf row = spelled ++ rest ∧
      Announced kind name before spelled rest) (named : ∀ c ∈ name, isNameChar c = true)
    (alike : List.Forall₂ Piece.Alike row row') (lexed : Lexed (sourceOf row) row)
    (lexed' : Lexed (sourceOf row') row') (level : Level before before' (sourceOf row)) :
    ¬ ∃ spelled rest, sourceOf row' = spelled ++ rest ∧
      Announced kind name before' spelled rest := by
  -- What the other row announced, this one would announce as well.
  rintro ⟨spelled, rest, split, announced'⟩
  have backward : List.Forall₂ Piece.Alike row' row := (alike.imp fun _ _ here => here.symm).flip
  have levelBack : Level before' before (sourceOf row') := by
    intro letter
    rw [← head_alike alike lexed lexed'] at letter
    exact (level letter).symm
  obtain ⟨back', back, _, _, rfl, _, announced⟩ :=
    announced_alike announced' split named backward lexed' lexed levelBack
  exact unannounced ⟨spelled, sourceOf back, by simp, announced⟩

/-- At the front of like rows a body opens in both, with like pieces behind the brace, or in
neither. -/
theorem foundAt_alike (nonempty : name ≠ []) (named : ∀ c ∈ name, isNameChar c = true)
    {spans spans' : List (Nat × Nat)} {offset' : Nat}
    (follows : ∀ c, front.getLast? = some (.code c) → before = some c)
    (uncovered : inSpan spans offset = false) (uncovered' : inSpan spans' offset' = false)
    (alike : List.Forall₂ Piece.Alike row row') (safe : harmless front row row' = true)
    (lexed : Lexed (sourceOf row) row) (lexed' : Lexed (sourceOf row') row')
    (level : Level before before' (sourceOf row)) :
    Option.Rel RestAlike ((Reader.openingInCode spans kind name).foundAt
      ⟨offset, before, sourceOf row⟩)
      ((Reader.openingInCode spans' kind name).foundAt ⟨offset', before', sourceOf row'⟩) := by
  by_cases announced : ∃ spelled rest, sourceOf row = spelled ++ rest ∧
    Announced kind name before spelled rest
  · obtain ⟨spelled, rest, split, announced⟩ := announced
    obtain ⟨back, back', rfl, rfl, rfl, later, announced'⟩ :=
      announced_alike announced split named alike lexed lexed' level
    obtain ⟨values, spells⟩ := announced.spelled
    have inside : ∀ c ∈ spelled, Reader.InHeader c :=
      fun c member => Reader.inHeader_of_isWordy (spells.isWordy named c member)
    rw [harmless_code] at safe
    simp only [sourceOf_append, sourceOf_map_code]
    have started : mayBegin front = true :=
      mayBegin_iff.mpr fun c isLast => follows c isLast ▸ announced.started
    rcases opensAlike later safe (headerOpen_announcement spells nonempty named started) with
      ⟨unopened, unopened'⟩ | ⟨gap, rear, gap', rear', next, rfl, rfl, all, all', rearAlike,
        rearSafe, begun⟩
    · -- The header ends in both before a brace comes.
      rw [Reader.foundAt_openingInCode_eq_none (opening_of_unopened named (unopened.append inside)),
        Reader.foundAt_openingInCode_eq_none (opening_of_unopened named (unopened'.append inside))]
      exact .none
    · -- The first brace is code in both, and only what lies before it can differ.
      simp only [sourceOf_append, sourceOf_cons, Piece.source,
        List.singleton_append] at announced announced' ⊢
      rw [Reader.foundAt_openingInCode named uncovered announced all,
        Reader.foundAt_openingInCode named uncovered' announced' all']
      exact .some ⟨next, rear, rear', rfl, rfl, rearAlike, rearSafe, begun, lexed.drop.drop.tail,
        lexed'.drop.drop.tail⟩
  · have unannounced' := unannounced_alike announced named alike lexed lexed' level
    rw [Reader.foundAt_openingInCode_eq_none (opening_of_unannounced announced),
      Reader.foundAt_openingInCode_eq_none (opening_of_unannounced unannounced')]
    exact .none

/-- A header may stand behind a character that opens a literal. -/
theorem mayPrecede_of_isOpener (opens : before.any isOpener = true) : MayPrecede before := by
  cases before with
  | none => cases opens
  | some c =>
    simp only [Option.any_some, isOpener, Bool.or_eq_true, beq_iff_eq] at opens
    unfold MayPrecede
    rcases opens with (rfl | rfl) | rfl <;> decide

/-- A word may begin behind every literal that a word follows. -/
theorem mayPrecede_literal {kind : LiteralKind}
    (lexed : Lexed (sourceOf (.literal kind text :: row)) (.literal kind text :: row))
    (letter : (sourceOf row).head?.any isNameChar = true) (before : Option Char) :
    MayPrecede (text.getLast?.or before) := by
  obtain ⟨rest, _, found, further⟩ := lexed.of_literal
  rw [further.sourceOf_eq] at letter
  rcases literalAt_last found with opener | rfl | feed
  · cases last : text.getLast? with
    | none => simp [last] at opener
    | some c => exact mayPrecede_of_isOpener (by simpa [last] using opener)
  · simp at letter
  · -- A comment without an end of its own is followed by a line feed, and so by no word.
    rw [feed] at letter
    exact absurd letter (by decide)

/-- Behind like literals a header may begin in both sources or in neither. -/
theorem level_literal {kind kind' : LiteralKind} {text' : List Char}
    (alike : List.Forall₂ Piece.Alike row row')
    (lexed : Lexed (sourceOf (.literal kind text :: row)) (.literal kind text :: row))
    (lexed' : Lexed (sourceOf (.literal kind' text' :: row')) (.literal kind' text' :: row'))
    (before before' : Option Char) :
    Level (text.getLast?.or before) (text'.getLast?.or before') (sourceOf row) := by
  -- Behind both literals the same code follows, and a header may begin there.
  intro letter
  obtain ⟨rest, _, _, further⟩ := lexed.of_literal
  obtain ⟨rest', _, _, further'⟩ := lexed'.of_literal
  have letter' := letter
  rw [head_alike alike (by rwa [further.sourceOf_eq]) (by rwa [further'.sourceOf_eq])] at letter'
  exact iff_of_true (mayPrecede_literal lexed letter before)
    (mayPrecede_literal lexed' letter' before')

/-- Related first choices and related second choices make related choices. -/
theorem rel_or {α β : Type} {related : α → β → Prop} {first second : Option α}
    {first' second' : Option β} (here : Option.Rel related first first')
    (onward : Option.Rel related second second') :
    Option.Rel related (first.or second) (first'.or second') := by
  cases here with
  | some both => exact .some both
  | none => exact onward

/-- Where pieces end with a character of code, so does their source. -/
theorem getLast?_sourceOf (c : Char) (isLast : front.getLast? = some (.code c)) :
    (sourceOf front).getLast? = some c := by
  obtain ⟨before, rfl⟩ := List.getLast?_eq_some_iff.mp isLast
  simp [Piece.source]

/-- In like sources the search for a body finds like openings, or none in either. -/
theorem firstFrom_alike (nonempty : name ≠ []) (named : ∀ c ∈ name, isNameChar c = true)
    (alike : List.Forall₂ Piece.Alike row row') (safe : harmless front row row' = true)
    (whole : pieces one = front ++ row) (whole' : pieces other = front' ++ row')
    (level : Level (sourceOf front).getLast? (sourceOf front').getLast? (sourceOf row)) :
    Option.Rel RestAlike
      ((Reader.openingInCode (literalSpans one) kind name).firstFrom (sourceOf front).length
        (sourceOf front).getLast? (sourceOf row))
      ((Reader.openingInCode (literalSpans other) kind name).firstFrom (sourceOf front').length
        (sourceOf front').getLast? (sourceOf row')) := by
  -- Along both rows at once; what lies before either place only fixes where it is and what precedes
  -- it.
  induction alike generalizing front front' with
  | nil =>
    have nothing : ∀ spans offset before,
        (Reader.openingInCode spans kind name).firstFrom offset before [] = none := by
      intro spans offset before
      exact Reader.foundAt_openingInCode_eq_none
        (opening_of_unopened named fun gap rest _ => by simp)
    simp only [sourceOf_nil, nothing]
    exact .none
  | @cons piece piece' row row' here rest ih =>
    have lexed : Lexed (sourceOf (piece :: row)) (piece :: row) := (whole ▸ lexed_pieces one).drop
    have lexed' : Lexed (sourceOf (piece' :: row')) (piece' :: row') :=
      (whole' ▸ lexed_pieces other).drop
    cases here with
    | code c =>
      -- Behind the same character of code the places are level.
      have onward :=
        @ih (front ++ [.code c]) (front' ++ [.code c]) safe (by simpa using whole)
        (by simpa using whole') (by simp [Level, Piece.source])
      simp only [sourceOf_append, sourceOf_cons, sourceOf_nil, Piece.source, List.append_nil,
        List.length_append, List.length_singleton, List.getLast?_append, List.getLast?_singleton,
        Option.some_or,
        List.singleton_append] at onward ⊢
      have uncovered : inSpan (literalSpans one) (sourceOf front).length = false := by
        rw [literalSpans, whole]
        exact inSpan_code front row c
      have uncovered' : inSpan (literalSpans other) (sourceOf front').length = false := by
        rw [literalSpans, whole']
        exact inSpan_code front' row' c
      refine rel_or ?_ onward
      exact foundAt_alike nonempty named getLast?_sourceOf uncovered uncovered'
        (.cons (.code c) rest) safe lexed lexed' level
    | @literal literalKind text text' feeds =>
      -- Nothing opens within a literal, so both searches go on behind it.
      have later : harmless (front ++ [.literal literalKind text]) row row' = true := by
        simp only [harmless, Bool.and_eq_true] at safe
        exact safe.2
      have onward :=
        @ih (front ++ [.literal literalKind text]) (front' ++ [.literal literalKind text']) later
        (by simpa using whole) (by simpa using whole')
      simp only [sourceOf_append, sourceOf_cons, sourceOf_nil, Piece.source, List.append_nil,
        List.length_append, List.getLast?_append] at onward ⊢
      rw [firstFrom_literal whole, firstFrom_literal whole']
      exact onward (level_literal rest lexed lexed' _ _)

/-- Two rows close alike when neither closes the body, or both do so behind like pieces and the same
text. -/
def ClosesAlike (depth : Nat) (row row' : List Piece) : Prop :=
  (bodyLength? depth (sourceOf row) = none ∧ bodyLength? depth (sourceOf row') = none) ∨
    ∃ inner back inner' back' cut, row = inner ++ back ∧ row' = inner' ++ back' ∧
      List.Forall₂ Piece.Alike inner inner' ∧ cut <+: sourceOf back ∧ cut <+: sourceOf back' ∧
      bodyLength? depth (sourceOf row) = some (sourceOf inner ++ cut).length ∧
      bodyLength? depth (sourceOf row') = some (sourceOf inner' ++ cut).length

/-- Like pieces that leave the same number of braces open are passed over. -/
theorem ClosesAlike.cons {depth final : Nat} {piece' : Piece} (rest : ClosesAlike final row row')
    (here : Piece.Alike piece piece') (walked : depthAfter depth piece.source = some final)
    (walked' : depthAfter depth piece'.source = some final) :
    ClosesAlike depth (piece :: row) (piece' :: row') := by
  -- Both pieces lead to the same depth, so what closes behind them closes alike.
  unfold ClosesAlike
  rw [sourceOf_cons, sourceOf_cons, bodyLength?_append walked, bodyLength?_append walked']
  rcases rest with ⟨unclosed, unclosed'⟩ |
    ⟨inner, back, inner', back', cut, rfl, rfl, alike, isPart, isPart', closed, closed'⟩
  · exact Or.inl ⟨by rw [unclosed]; rfl, by rw [unclosed']; rfl⟩
  · refine Or.inr ⟨piece :: inner, back, piece' :: inner', back', cut, rfl, rfl, .cons here alike,
      isPart, isPart', ?_, ?_⟩
    · rw [closed]
      simp [Nat.add_comm]
    · rw [closed']
      simp [Nat.add_comm]

/-- A piece that closes the body closes it at the same place whatever comes behind. -/
theorem closesAlike_of_closed {depth : Nat} (closed : depthAfter depth piece.source = none)
    (row row' : List Piece) : ClosesAlike depth (piece :: row) (piece :: row') := by
  -- The piece itself closes the body, at the same place in both rows.
  obtain ⟨length, bounded, ends⟩ := bodyLength?_of_closed closed
  have cut : ∀ row, piece.source.take length <+: sourceOf (piece :: row) := by
    intro row
    rw [sourceOf_cons]
    exact (List.take_prefix length piece.source).trans (List.prefix_append _ _)
  have sized : (sourceOf [] ++ piece.source.take length).length = length := by
    simp [Nat.min_eq_left bounded]
  refine Or.inr ⟨[], piece :: row, [], piece :: row', piece.source.take length, rfl, rfl, .nil,
    cut row, cut row', ?_, ?_⟩
  · rw [sourceOf_cons, ends, sized]
  · rw [sourceOf_cons, ends, sized]

/-- Behind a header that has begun, like rows close alike. -/
theorem closesAlike (alike : List.Forall₂ Piece.Alike row row')
    (safe : harmless front row row' = true) (begun : headerBegun front = true) (depth : Nat) :
    ClosesAlike depth row row' := by
  induction alike generalizing front depth with
  | nil => exact Or.inl ⟨rfl, rfl⟩
  | @cons piece piece' row row' here rest ih =>
    -- The same piece in both rows closes the body in both, or leaves the same number of braces
    -- open.
    have same : harmless (front ++ [piece]) row row' = true → piece = piece' →
        ClosesAlike depth (piece :: row) (piece' :: row') := by
      rintro later rfl
      cases walked : depthAfter depth piece.source with
      | none => exact closesAlike_of_closed walked row row'
      | some final => exact (ih later (headerBegun_append begun _) final).cons here walked walked
    cases here with
    | code c => exact same safe rfl
    | @literal kind text text' feeds =>
      simp only [harmless, Bool.and_eq_true, decide_eq_true_eq] at safe
      obtain ⟨⟨behindHeader, _⟩, later⟩ := safe
      rcases behindHeader begun with equal | ⟨balanced, balanced'⟩
      · exact same later (by rw [equal])
      · -- Balanced braces close nothing outside of the literal.
        exact (ih later (headerBegun_append begun _) depth).cons (.literal feeds)
          (balanced.depthAfter depth) (balanced'.depthAfter depth)

/-- The text of some pieces and of a part of what follows them, with its literals blanked. -/
theorem blanked_keep {source cut : List Char} {inner : List Piece}
    (lexed : Lexed source (inner ++ back)) (isPart : cut <+: sourceOf back) :
    blanked (sourceOf inner ++ cut) = inner.flatMap Piece.blanked ++ blanked cut := by
  rw [blanked, (lexed.keep isPart).eq_pieces, List.flatMap_append]
  rfl

/-- The part of a text that is as long as a text at its front is that text. -/
theorem take_keep {inner : List Piece} {cut : List Char} (isPart : cut <+: sourceOf back) :
    (sourceOf (inner ++ back)).take (sourceOf inner ++ cut).length = sourceOf inner ++ cut := by
  rw [sourceOf_append]
  exact (List.prefix_iff_eq_take.mp ((List.prefix_append_right_inj _).mpr isPart)).symm

/-- Where the literals of like sources are harmless, bodies are the same once their own literals are
blanked. -/
theorem body?_alike (alike : List.Forall₂ Piece.Alike (pieces one) (pieces other))
    (safe : harmless [] (pieces one) (pieces other) = true) (nonempty : name ≠ [])
    (named : ∀ c ∈ name, isNameChar c = true) :
    Option.Rel (fun body body' => blanked body.text = blanked body'.text) (body? one kind name)
      (body? other kind name) := by
  -- The openings that are found have like pieces behind them.
  have found := @firstFrom_alike one other name _ [] [] _ kind nonempty named alike safe rfl rfl
    fun _ => Iff.rfl
  simp only [sourceOf_pieces] at found
  change Option.Rel RestAlike ((Reader.openingInCode (literalSpans one) kind name).first one)
    ((Reader.openingInCode (literalSpans other) kind name).first other) at found
  rw [body?_eq, body?_eq]
  generalize (Reader.openingInCode (literalSpans one) kind name).first one = opened at found ⊢
  generalize (Reader.openingInCode (literalSpans other) kind name).first other = opened' at found ⊢
  cases found with
  | none => exact .none
  | @some found found' rest =>
    obtain ⟨front, rear, rear', isRear, isRear', rearAlike, rearSafe, begun, lexed, lexed'⟩ := rest
    simp only [Option.bind_some, isRear, isRear']
    -- The bodies end behind like pieces and a cut that is the same text in both.
    rcases closesAlike rearAlike rearSafe begun 0 with ⟨unclosed, unclosed'⟩ |
      ⟨inner, back, inner', back', cut, rfl, rfl, innerAlike, isPart, isPart', closed, closed'⟩
    · rw [unclosed, unclosed']
      exact .none
    · rw [closed, closed']
      refine .some ?_
      dsimp only
      rw [take_keep isPart, take_keep isPart', blanked_keep lexed isPart,
        blanked_keep lexed' isPart', blanked_of_alike innerAlike]

/-- The name and the parameters of each method. -/
def signatures (methods : List Method) : List (String × String) :=
  methods.map fun method => (method.name, method.parameters)

/-- The methods of a type do not depend on the contents of harmless literals, apart from their
documentation. -/
theorem signatures_alike (alike : List.Forall₂ Piece.Alike (pieces one) (pieces other))
    (safe : harmless [] (pieces one) (pieces other) = true) (scope : DocScope) (kind : Kind)
    {name : String} (nonempty : name.toList ≠ []) (named : ∀ c ∈ name.toList, isNameChar c = true) :
    signatures (methodsOf one scope kind name).value = signatures
      (methodsOf other scope kind name).value := by
  -- The bodies are found alike, and the methods are read from what they have in common.
  have bodies := @body?_alike one other name.toList kind alike safe nonempty named
  unfold methodsOf
  generalize body? one kind name.toList = body at bodies ⊢
  generalize body? other kind name.toList = body' at bodies ⊢
  cases bodies with
  | none => rfl
  | some same =>
    simp only [Logged.value_pure, signatures, methodsIn, List.map_map, same]
    rfl

/-- What the header of a declaration says. -/
def heading (declaration : Declaration) : String × Kind × Option String × List String :=
  (declaration.name, declaration.kind, declaration.superclass, declaration.interfaces)

/-- Sources of one outline have the same declarations. These have the same methods too if the
literals that differ have balanced braces and, behind an open header, neither opening braces nor
semicolons. -/
theorem declarationsOf_sameOutline {one other : List Char} (outline : SameOutline one other)
    (scope : DocScope) :
    (declarationsOf one scope).value.map heading = (declarationsOf other scope).value.map heading ∧
      (harmless [] (pieces one) (pieces other) = true →
        (declarationsOf one scope).value.map (fun declaration => signatures declaration.methods) =
          (declarationsOf other scope).value.map fun declaration =>
            signatures declaration.methods) := by
  have alike : List.Forall₂ Piece.Alike (pieces one) (pieces other) :=
    @SameOutline.alike_rows one other _ [] [] _ outline rfl rfl rfl outline.spans outline.kinds
  -- Headers are read from the blanked sources, which are one text; only the search for bodies sees
  -- literals.
  have sameText : blanked one = blanked other := blanked_of_alike alike
  rw [value_declarationsOf, value_declarationsOf, sameText]
  simp only [List.map_map]
  refine ⟨rfl, fun safe => List.map_congr_left fun declaration member => ?_⟩
  obtain ⟨nonempty, named⟩ := named_of_mem_declarationsIn member
  exact signatures_alike alike safe scope declaration.kind nonempty named

/-- A comment inside the header and a string with balanced braces are replaced without any
effect. -/
theorem declarationsOf_sameOutline_balanced :
    let one := "class A /* a */ \x7b String s = \"\x7b\x7d\"; int f(int x) \x7b\x7d \x7d".toList
    let other := "class A /* b */ \x7b String s = \"xy\"; int f(int x) \x7b\x7d \x7d".toList
    SameOutline one other ∧ harmless [] (pieces one) (pieces other) = true ∧
      (declarationsOf one .declaration).value.map heading =
      (declarationsOf other .declaration).value.map heading ∧
      (declarationsOf one .declaration).value.map
      (fun declaration => signatures declaration.methods) =
        (declarationsOf other .declaration).value.map fun declaration =>
          signatures declaration.methods := by
  intro one other
  have outline : SameOutline one other := by decide +kernel
  have safe : harmless [] (pieces one) (pieces other) = true := by decide +kernel
  obtain ⟨headings, methods⟩ := declarationsOf_sameOutline outline .declaration
  exact ⟨outline, safe, headings, methods safe⟩

/-- A closing brace in a string ends a body early: the method behind it is lost, though the outline
is the same. -/
theorem brace_in_string_ends_body :
    let one := "class A \x7b String s = \"x\"; int f(); \x7d".toList
    let other := "class A \x7b String s = \"\x7d\"; int f(); \x7d".toList
    SameOutline one other ∧
      (declarationsOf one .declaration).value.map
      (fun declaration => signatures declaration.methods) ≠
        (declarationsOf other .declaration).value.map fun declaration =>
          signatures declaration.methods := by
  intro one other
  -- The evaluation of a merge is stuck unless one side is known to be empty.
  have declared : ∀ text, interfacesIn text = [] →
      declarationsIn text = (classesIn text).map (·.declaration) := by
    intro text noInterface
    rw [declarationsIn, noInterface, List.merge_right]
  have found : declarationsIn (blanked one) = [{ name := "A", kind := .plainClass }] := by
    rw [declared _ (List.isEmpty_iff.mp (by decide +kernel))]
    decide +kernel
  have sameText : blanked one = blanked other := by decide +kernel
  refine ⟨by decide +kernel, ?_⟩
  rw [value_declarationsOf, value_declarationsOf, ← sameText, found]
  decide +kernel

end Lineage.Java
