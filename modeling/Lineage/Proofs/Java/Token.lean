import Lineage.Proofs.Java.Literal

/-! The tokens of a source: which text is a comment or a literal, and how a lexer comes upon them
from left to right. -/

namespace Lineage.Java

/-- A text taken in steps: a backslash goes together with the character behind it, and any other
character goes alone, if it is admitted. -/
inductive Steps (admitted : Char → Prop) : List Char → Prop where
  | none : Steps admitted []
  | escape {escaped : Char} {rest : List Char} : Steps admitted rest →
    Steps admitted ('\\' :: escaped :: rest)
  | single {c : Char} {rest : List Char} : c ≠ '\\' → admitted c → Steps admitted rest →
    Steps admitted (c :: rest)

/-- Any character goes alone, a backslash excepted. -/
def AnySteps (text : List Char) : Prop :=
  Steps (fun _ => True) text

/-- Steps within quotes: neither the quote nor a line feed goes alone. -/
def QuotedSteps (quote : Char) (text : List Char) : Prop :=
  Steps (fun c => c ≠ quote ∧ c ≠ '\n') text

/-- Three double quotes open and close a text block. -/
def blockQuotes : List Char :=
  ['"', '"', '"']

/-- The mark that ends a block comment. -/
def commentEnd : List Char :=
  ['*', '/']

/-- A text is a comment or a literal of a kind, with what follows it. -/
inductive IsToken : LiteralKind → List Char → List Char → Prop where
  | textBlock {inner rest : List Char} : AnySteps inner →
    -- No other three quotes are reached in fewer steps.
    (∀ front back, inner ++ (blockQuotes ++ rest) = front ++ (blockQuotes ++ back) →
      AnySteps front →
      inner.length ≤ front.length) →
    IsToken .textBlock (blockQuotes ++ (inner ++ blockQuotes)) rest
  | string {inner rest : List Char} : QuotedSteps '"' inner →
    IsToken .string ('"' :: (inner ++ ['"'])) rest
  | character {inner rest : List Char} : QuotedSteps '\'' inner → inner ≠ [] →
    IsToken .character ('\'' :: (inner ++ ['\''])) rest
  | closedComment {inner rest : List Char} :
    (∀ front back, inner ++ (commentEnd ++ rest) = front ++ (commentEnd ++ back) →
      inner.length ≤ front.length) →
    IsToken .blockComment ('/' :: '*' :: (inner ++ commentEnd)) rest
  | openComment {inner : List Char} : ¬ commentEnd <:+: inner →
    IsToken .blockComment ('/' :: '*' :: inner) []
  | lineComment {inner rest : List Char} : '\n' ∉ inner → rest = [] ∨ rest.head? = some '\n' →
    IsToken .lineComment ('/' :: '/' :: inner) rest

/-- A comment or a literal and the positions where it begins and ends. -/
structure Token where
  kind : LiteralKind
  start : Nat
  stop : Nat
  deriving DecidableEq, Repr

/-- The positions of a token without its kind. -/
def Token.span (token : Token) : Nat × Nat :=
  (token.start, token.stop)

/-- A lexer goes through a source from a place: at each place it takes a token of the first kind
that is there, and it passes over one character where there is none. -/
inductive Lexes (source : List Char) : Nat → List Token → Prop where
  | done : Lexes source source.length []
  | code {place : Nat} {tokens : List Token} : place < source.length →
    (∀ kind text rest, source.drop place = text ++ rest → ¬ IsToken kind text rest) →
    Lexes source (place + 1) tokens → Lexes source place tokens
  | token {place : Nat} {kind : LiteralKind} {text rest : List Char} {tokens : List Token} :
    source.drop place = text ++ rest → IsToken kind text rest →
    (∀ earlier one other, earlier.turn < kind.turn → source.drop place = one ++ other →
      ¬ IsToken earlier one other) →
    Lexes source (place + text.length) tokens →
      Lexes source place (⟨kind, place, place + text.length⟩ :: tokens)

/-- What stands for a token of a kind when its contents are left out. A text block and a block
comment keep their line feeds. -/
def LiteralKind.placeholder (kind : LiteralKind) (text : List Char) : List Char :=
  match kind with
  | .textBlock => ['"', '"'] ++ List.replicate (text.count '\n') '\n'
  | .string => ['"', '"']
  | .character => ['\'', ' ', '\'']
  | .blockComment => [' '] ++ List.replicate (text.count '\n') '\n'
  | .lineComment => []

/-- The part of a source from a position up to another. -/
def sliceOf (source : List Char) (start stop : Nat) : List Char :=
  (source.drop start).take (stop - start)

/-- The part of a text behind its front. -/
theorem sliceOf_append (front middle rest : List Char) :
    sliceOf (front ++ (middle ++ rest)) front.length (front.length + middle.length) = middle := by
  rw [sliceOf, List.drop_left, Nat.add_sub_cancel_left, List.take_left]

/-- A source from a position on, with each token exchanged for its placeholder and all characters
between them kept. -/
def exchanged (source : List Char) : Nat → List Token → List Char
  | place, [] => source.drop place
  | place, token :: tokens =>
    sliceOf source place token.start ++
      token.kind.placeholder (sliceOf source token.start token.stop) ++
      exchanged source token.stop tokens

section Closing

variable {text : List Char} {length : Nat}

/-- A quote closes a literal behind the steps that lead to it. -/
theorem closeQuote_iff {quote : Char} (isQuote : quote ≠ '\\') :
    closeQuote quote text = some length ↔
      ∃ inner rest, text = inner ++ quote :: rest ∧ QuotedSteps quote inner ∧
        length = inner.length + 1 := by
  -- The first step decides which case of the search applies.
  fun_induction closeQuote quote text generalizing length with
  | case1 => simp
  | case2 escaped rest ih =>
    simp only [Option.map_eq_some_iff, ih]
    constructor
    · rintro ⟨_, ⟨inner, rest, rfl, steps, rfl⟩, rfl⟩
      exact ⟨'\\' :: escaped :: inner, rest, rfl, .escape steps, rfl⟩
    · rintro ⟨inner, after, split, steps, rfl⟩
      cases steps with
      | none => exact absurd (List.cons.inj split).1.symm isQuote
      | escape steps =>
        obtain ⟨_, split⟩ := List.cons.inj split
        exact ⟨_, ⟨_, after, (List.cons.inj split).2, steps, rfl⟩, rfl⟩
      | single plain => exact absurd (List.cons.inj split).1.symm plain
  | case3 c rest alone closes =>
    obtain rfl : c = quote := by simpa using closes
    constructor
    · intro found
      exact ⟨[], rest, rfl, .none, (Option.some.inj found).symm⟩
    · rintro ⟨inner, after, split, steps, rfl⟩
      -- The quote itself is no step, so nothing comes before it.
      cases steps with
      | none => rfl
      | escape => exact absurd (List.cons.inj split).1 isQuote
      | single _ admitted => exact absurd (List.cons.inj split).1.symm admitted.1
  | case4 c rest alone differs breaks =>
    refine ⟨fun found => absurd found (Option.some_ne_none length).symm, ?_⟩
    rintro ⟨inner, after, split, steps, rfl⟩
    -- A line feed is no step, and neither is a backslash with nothing behind it.
    cases steps with
    | none => exact absurd (List.cons.inj split).1 (by simpa using differs)
    | escape =>
      obtain ⟨rfl, rfl⟩ := List.cons.inj split
      exact absurd rfl (alone _ _ rfl)
    | single plain admitted =>
      obtain ⟨rfl, _⟩ := List.cons.inj split
      simp [plain, admitted.2] at breaks
  | case5 c rest alone differs goesOn ih =>
    have different : c ≠ quote := by simpa using differs
    obtain ⟨notFeed, plain⟩ : c ≠ '\n' ∧ c ≠ '\\' := by simpa using goesOn
    simp only [Option.map_eq_some_iff, ih]
    constructor
    · rintro ⟨_, ⟨inner, rest, rfl, steps, rfl⟩, rfl⟩
      exact ⟨c :: inner, rest, rfl, .single plain ⟨different, notFeed⟩ steps, rfl⟩
    · rintro ⟨inner, after, split, steps, rfl⟩
      cases steps with
      | none => exact absurd (List.cons.inj split).1 different
      | escape => exact absurd (List.cons.inj split).1 plain
      | single _ _ steps => exact ⟨_, ⟨_, after, (List.cons.inj split).2, steps, rfl⟩, rfl⟩

/-- Three quotes that steps lead to close a text block, if none do before. -/
theorem closeTextBlock_of_steps {inner : List Char} (steps : AnySteps inner) (rest : List Char) :
    ∃ length, closeTextBlock (inner ++ (blockQuotes ++ rest)) = some length := by
  induction steps with
  | none => exact ⟨3, rfl⟩
  | @escape escaped inner _ ih =>
    obtain ⟨length, closed⟩ := ih
    refine ⟨length + 2, ?_⟩
    rw [List.cons_append, List.cons_append, closeTextBlock_escape, closed]
    rfl
  | @single c inner plain _ _ ih =>
    obtain ⟨length, closed⟩ := ih
    -- The block may be closed at this character already.
    by_cases closes : ∃ more, c = '"' ∧ inner ++ (blockQuotes ++ rest) = '"' :: '"' :: more
    · obtain ⟨more, rfl, split⟩ := closes
      exact ⟨3, by rw [List.cons_append, split, closeTextBlock]⟩
    · have goesOn : ∀ more, c = '"' → inner ++ (blockQuotes ++ rest) ≠ '"' :: '"' :: more :=
        fun more isQuote split => closes ⟨more, isQuote, split⟩
      exact ⟨length + 1, by rw [List.cons_append, closeTextBlock_plain plain goesOn, closed]; rfl⟩

/-- What closes a text block is the first three quotes that steps lead to. -/
theorem exists_of_closeTextBlock (closed : closeTextBlock text = some length) :
    ∃ inner rest, text = inner ++
      (blockQuotes ++ rest) ∧ AnySteps inner ∧ length = inner.length + 3 ∧
      ∀ front back, text = front ++
        (blockQuotes ++ back) → AnySteps front → inner.length ≤ front.length := by
  fun_induction closeTextBlock text generalizing length with
  | case1 => cases closed
  | case2 rest =>
    cases closed
    exact ⟨[], rest, rfl, .none, rfl, fun _ _ _ _ => Nat.zero_le _⟩
  | case3 escaped rest ih =>
    obtain ⟨shorter, found, rfl⟩ := Option.map_eq_some_iff.mp closed
    obtain ⟨inner, rest, rfl, steps, rfl, least⟩ := ih found
    refine ⟨'\\' :: escaped :: inner, rest, rfl, .escape steps, rfl,
      fun front back split stepsFront => ?_⟩
    -- Any other way to reach three quotes takes the same first step.
    cases stepsFront with
    | none => simp [blockQuotes] at split
    | escape stepsFront =>
      obtain ⟨_, split⟩ := List.cons.inj split
      have := least _ back (List.cons.inj split).2 stepsFront
      simp only [List.length_cons]
      omega
    | single plain => exact absurd (List.cons.inj split).1.symm plain
  | case4 => cases closed
  | case5 c rest unclosed alone plain ih =>
    have notBackslash : c ≠ '\\' := by simpa using plain
    obtain ⟨shorter, found, rfl⟩ := Option.map_eq_some_iff.mp closed
    obtain ⟨inner, rest, rfl, steps, rfl, least⟩ := ih found
    refine ⟨c :: inner, rest, rfl, .single notBackslash trivial steps, rfl,
      fun front back split stepsFront => ?_⟩
    cases stepsFront with
    | none =>
      -- The three quotes do not stand at the front.
      obtain ⟨isQuote, more⟩ := List.cons.inj split
      exact absurd more (unclosed back isQuote)
    | escape => exact absurd (List.cons.inj split).1 notBackslash
    | single _ _ stepsFront =>
      have := least _ back (List.cons.inj split).2 stepsFront
      simp only [List.length_cons]
      omega

/-- A text block is closed by the first quotes that are reached in steps. -/
theorem closeTextBlock_iff :
    closeTextBlock text = some length ↔
      ∃ inner rest, text = inner ++
        (blockQuotes ++ rest) ∧ AnySteps inner ∧ length = inner.length + 3 ∧
        ∀ front back, text = front ++
          (blockQuotes ++ back) → AnySteps front → inner.length ≤ front.length := by
  refine ⟨exists_of_closeTextBlock, ?_⟩
  rintro ⟨inner, rest, rfl, steps, rfl, least⟩
  -- The block is closed somewhere, and each of the two ends comes no later than the other.
  obtain ⟨length, closed⟩ := closeTextBlock_of_steps steps rest
  obtain ⟨inner', rest', split, steps', rfl, least'⟩ := exists_of_closeTextBlock closed
  have forth := least inner' rest' split steps'
  have back := least' inner rest rfl steps
  rw [closed]
  congr 1
  omega

/-- A block comment ends with the first mark, and without one it takes all there is. -/
theorem closeComment_cases (text : List Char) :
    (∃ inner rest, text = inner ++ (commentEnd ++ rest) ∧ closeComment text = inner.length + 2 ∧
        ∀ front back, text = front ++ (commentEnd ++ back) → inner.length ≤ front.length) ∨
      (¬ commentEnd <:+: text ∧ closeComment text = text.length) := by
  fun_induction closeComment text with
  | case1 => exact Or.inr ⟨by simp [commentEnd], rfl⟩
  | case2 rest => exact Or.inl ⟨[], rest, rfl, rfl, fun _ _ _ => Nat.zero_le _⟩
  | case3 c rest unclosed ih =>
    -- The mark does not stand at the front, so it stands behind the first character or nowhere.
    have behind : ∀ {front back}, c :: rest = front ++ (commentEnd ++ back) →
        ∃ shorter, front = c :: shorter ∧ rest = shorter ++ (commentEnd ++ back) := by
      intro front back split
      cases front with
      | nil =>
        obtain ⟨star, slash⟩ := List.cons.inj split
        exact absurd slash (unclosed back star)
      | cons d shorter =>
        obtain ⟨rfl, more⟩ := List.cons.inj split
        exact ⟨shorter, rfl, more⟩
    rcases ih with ⟨inner, after, rfl, sized, least⟩ | ⟨absent, whole⟩
    · refine Or.inl ⟨c :: inner, after, rfl, by rw [sized]; rfl, fun front back split => ?_⟩
      obtain ⟨shorter, rfl, more⟩ := behind split
      have := least shorter back more
      simp only [List.length_cons]
      omega
    · refine Or.inr ⟨?_, by rw [whole]; rfl⟩
      rintro ⟨front, back, split⟩
      obtain ⟨shorter, _, more⟩ := behind (split.symm.trans (List.append_assoc ..))
      exact absent ⟨shorter, back, (List.append_assoc ..).trans more.symm⟩

end Closing

section Finding

variable {source : List Char} {length : Nat}

/-- A text block is found exactly where one stands. -/
theorem textBlock?_iff :
    textBlock? source = some length ↔
      ∃ text rest, source = text ++ rest ∧ IsToken .textBlock text rest ∧ length = text.length := by
  rw [textBlock?_eq_some]
  constructor
  · rintro ⟨_, _, rfl, closed, rfl⟩
    obtain ⟨inner, rest, rfl, steps, rfl, least⟩ := closeTextBlock_iff.mp closed
    exact ⟨_, rest, by simp [blockQuotes], .textBlock steps least, by simp [blockQuotes]⟩
  · rintro ⟨_, rest, rfl, token, rfl⟩
    cases token with
    | @textBlock inner _ steps least =>
      have closed := closeTextBlock_iff.mpr ⟨inner, rest, rfl, steps, rfl, least⟩
      exact ⟨_, _, by simp [blockQuotes], closed, by simp [blockQuotes]⟩

/-- A string is found exactly where one stands. -/
theorem string?_iff :
    string? source = some length ↔
      ∃ text rest, source = text ++ rest ∧ IsToken .string text rest ∧ length = text.length := by
  simp only [string?_eq_some, closeQuote_iff (show '"' ≠ '\\' by decide)]
  constructor
  · rintro ⟨_, _, rfl, ⟨inner, rest, rfl, steps, rfl⟩, rfl⟩
    exact ⟨_, rest, by simp, .string steps, by simp⟩
  · rintro ⟨_, rest, rfl, token, rfl⟩
    cases token with
    | @string inner _ steps => exact ⟨_, _, by simp, ⟨inner, rest, rfl, steps, rfl⟩, by simp⟩

/-- A character literal is found exactly where one stands. -/
theorem character?_iff :
    character? source = some length ↔
      ∃ text rest, source = text ++ rest ∧ IsToken .character text rest ∧ length = text.length := by
  simp only [character?_eq_some, closeQuote_iff (show '\'' ≠ '\\' by decide)]
  constructor
  · rintro ⟨_, _, rfl, something, ⟨inner, rest, rfl, steps, rfl⟩, rfl⟩
    -- Without a step the closing quote would be the first character.
    have nonempty : inner ≠ [] := by
      rintro rfl
      exact something rfl
    exact ⟨_, rest, by simp, .character steps nonempty, by simp⟩
  · rintro ⟨_, rest, rfl, token, rfl⟩
    cases token with
    | @character inner _ steps nonempty =>
      refine ⟨inner ++ '\'' :: rest, _, by simp, ?_, ⟨inner, rest, rfl, steps, rfl⟩, by simp⟩
      -- The first step is no quote, for a backslash is none either.
      cases steps with
      | none => exact absurd rfl nonempty
      | escape => simp
      | single _ admitted => simpa using admitted.1

/-- A block comment is found exactly where one stands. -/
theorem blockComment?_iff :
    blockComment? source = some length ↔
      ∃ text rest, source = text ++ rest ∧ IsToken .blockComment text rest ∧
        length = text.length := by
  rw [blockComment?_eq_some]
  constructor
  · rintro ⟨inside, rfl, rfl⟩
    rcases closeComment_cases inside with ⟨inner, rest, rfl, sized, least⟩ | ⟨absent, whole⟩
    · exact ⟨_, rest, by simp, .closedComment least, by rw [sized]; simp [commentEnd]⟩
    · exact ⟨_, [], (List.append_nil _).symm, .openComment absent, by rw [whole]; rfl⟩
  · rintro ⟨_, rest, rfl, token, rfl⟩
    cases token with
    | @closedComment inner _ least =>
      refine ⟨inner ++ (commentEnd ++ rest), by simp, ?_⟩
      rcases closeComment_cases (inner ++ (commentEnd ++ rest))
        with ⟨inner', rest', split, sized, least'⟩ | ⟨absent, _⟩
      · -- Each of the two ends comes no later than the other.
        have forth := least inner' rest' split
        have back := least' inner rest rfl
        rw [sized]
        simp only [List.length_cons, List.length_append, commentEnd, List.length_nil]
        omega
      · exact absurd ⟨inner, rest, List.append_assoc ..⟩ absent
    | @openComment inner absent =>
      refine ⟨inner, List.append_nil _, ?_⟩
      rcases closeComment_cases inner with ⟨before, after, rfl, _⟩ | ⟨_, whole⟩
      · exact absurd ⟨before, after, List.append_assoc ..⟩ absent
      · rw [whole]
        rfl

/-- A line comment is found exactly where one stands. -/
theorem lineComment?_iff :
    lineComment? source = some length ↔
      ∃ text rest, source = text ++ rest ∧ IsToken .lineComment text rest ∧
        length = text.length := by
  rw [lineComment?_eq_some]
  constructor
  · rintro ⟨inside, rfl, rfl⟩
    refine ⟨'/' :: '/' :: inside.takeWhile (· != '\n'), inside.dropWhile (· != '\n'), ?_,
      .lineComment ?_ ?_, rfl⟩
    · simp [List.takeWhile_append_dropWhile]
    · intro feed
      simpa using List.mem_takeWhile_imp feed
    · -- What follows the comment begins where the line ends.
      cases rest : inside.dropWhile (· != '\n') with
      | nil => exact Or.inl rfl
      | cons c more =>
        have stop := List.head?_dropWhile_not (· != '\n') inside
        rw [rest] at stop
        exact Or.inr (by simpa using stop)
  · rintro ⟨_, rest, rfl, token, rfl⟩
    cases token with
    | @lineComment inner _ oneLine ended =>
      refine lineComment?_eq_some.mp (lineComment?_eq_length_iff.mpr ⟨inner, rfl, ?_, ?_⟩)
      · rintro c inside rfl
        exact oneLine inside
      · rcases ended with rfl | feed
        · rfl
        · rw [feed]
          rfl

/-- What is found of a kind at the front of a text is a token of this kind. -/
theorem find_eq_some {kind : LiteralKind} :
    kind.find source = some length ↔
      ∃ text rest, source = text ++ rest ∧ IsToken kind text rest ∧ length = text.length := by
  cases kind with
  | textBlock => exact textBlock?_iff
  | string => exact string?_iff
  | character => exact character?_iff
  | blockComment => exact blockComment?_iff
  | lineComment => exact lineComment?_iff

/-- Nothing is found of a kind where there is no token of it. -/
theorem find_eq_none {kind : LiteralKind} :
    kind.find source = none ↔ ∀ text rest, source = text ++ rest → ¬ IsToken kind text rest := by
  rw [Option.eq_none_iff_forall_ne_some]
  constructor
  · intro nothing text rest split token
    exact nothing text.length (find_eq_some.mpr ⟨text, rest, split, token, rfl⟩)
  · intro nothing length found
    obtain ⟨text, rest, split, token, _⟩ := find_eq_some.mp found
    exact nothing text rest split token

end Finding

/-- A token is found with its length. -/
theorem IsToken.find_eq {kind : LiteralKind} {text rest : List Char}
    (token : IsToken kind text rest) :
    kind.find (text ++ rest) = some text.length :=
  find_eq_some.mpr ⟨text, rest, rfl, token, rfl⟩

/-- What is found stands there. -/
theorem isToken_of_find {kind : LiteralKind} {text rest : List Char}
    (found : kind.find (text ++ rest) = some text.length) : IsToken kind text rest := by
  obtain ⟨one, other, split, token, sized⟩ := find_eq_some.mp found
  obtain ⟨rfl, rfl⟩ := List.append_inj split sized
  exact token

end Lineage.Java
