import Lineage.Proofs.Java.Comment
import Lineage.Proofs.Java.Token
import Lineage.Proofs.Text.Preferred

/-! One lexer for comments and literals: the search by a pattern with all its choices, the pieces of
a source and the lexer agree, and a source may be cut between two tokens. -/

namespace Lineage.Text.Reader

variable {α β : Type}

/-- As few values as can be read, then ever more. A value that takes no character is not counted. -/
def fewest (reader : Reader Unit) (place : Cursor) : List (Unit × Cursor) :=
  ((), place) :: (reader place).flatMap fun read =>
    if read.2.rest.length < place.rest.length then fewest reader read.2 else []
termination_by place.rest.length

/-- What follows as few values as possible is first tried with none. -/
theorem fewest_bind (reader : Reader Unit) (next : Reader α) (place : Cursor) :
    (fewest reader >>= fun _ => next) place =
      next place ++ (reader place).flatMap fun read =>
        if read.2.rest.length < place.rest.length then
          (fewest reader >>= fun _ => next) read.2 else [] := by
  -- What comes next is tried at once, and then behind each further turn.
  have unfolded : ∀ place, (fewest reader >>= fun _ => next) place =
      (fewest reader place).flatMap fun read => next read.2 := fun _ => rfl
  simp only [unfolded]
  rw [fewest, List.flatMap_cons, List.flatMap_assoc]
  congr 2
  funext read
  split
  · rfl
  · rfl

/-- A short run before something else grows by one character at a time. -/
theorem shortRun_bind_cons {p : Char → Bool} {c : Char} (fits : p c = true) (next : Reader α)
    (offset : Nat) (before : Option Char) (rest : List Char) :
    (shortRun p >>= fun _ => next) ⟨offset, before, c :: rest⟩ =
      next ⟨offset, before, c :: rest⟩ ++
        (shortRun p >>= fun _ => next) ⟨offset + 1, some c, rest⟩ := by
  -- The shortest run ends at once, and the others end behind the character.
  have unfolded : ∀ place, (shortRun p >>= fun _ => next) place =
      (stops p place.offset place.before place.rest).flatMap fun stop => next stop :=
        fun _ => List.flatMap_map ..
  rw [unfolded, unfolded, stops, if_pos fits, List.flatMap_cons]

/-- A word that stands at the place is read. -/
theorem literal_append (word : List Char) (offset : Nat) (before : Option Char) (rest : List Char) :
    literal word ⟨offset, before, word ++ rest⟩ = [((), .beyond offset before word rest)] := by
  induction word generalizing offset before with
  | nil => rfl
  | cons c word ih =>
    have later := ih (offset + 1) (some c)
    rw [Cursor.beyond_cons offset before] at later
    simpa [literal, char] using later

/-- A word that does not stand at the place is not read. -/
theorem literal_eq_nil {word text : List Char} (absent : ¬ word <+: text) (offset : Nat)
    (before : Option Char) :
    literal word ⟨offset, before, text⟩ = [] := by
  refine List.eq_nil_iff_forall_not_mem.mpr fun result read => ?_
  obtain ⟨rest, rfl, _⟩ := mem_literal.mp read
  exact absent (List.prefix_append word rest)

end Lineage.Text.Reader

namespace Lineage.Java

open Lineage.Text

variable {rest source : List Char} {kind : LiteralKind} {row : List Piece} {position : Nat}

namespace Reader

open Lineage.Text.Reader

/-- A backslash and the character behind it, or else one character of a class. -/
def step (admitted : Char → Bool) : Text.Reader Unit :=
  either (do char (· == '\\'); char fun _ => true) (char admitted)

/-- Characters that go alone between quotes. -/
def goesAlone (quote c : Char) : Bool :=
  !(c == quote || c == '\\' || c == '\n')

/-- The pattern of a text block: three quotes, as few steps as possible, and three quotes. -/
def textBlock : Text.Reader LiteralKind := do
  literal blockQuotes
  fewest (step (· != '\\'))
  literal blockQuotes
  return .textBlock

/-- The pattern of a string: a quote, as many steps as possible, and a quote. -/
def string : Text.Reader LiteralKind := do
  literal ['"']
  let _ ← many (step (goesAlone '"'))
  literal ['"']
  return .string

/-- The pattern of a character literal: a quote, at least one step, and a quote. -/
def character : Text.Reader LiteralKind := do
  literal ['\'']
  step (goesAlone '\'')
  let _ ← many (step (goesAlone '\''))
  literal ['\'']
  return .character

/-- The pattern of a block comment: all up to its end or to that of the text. -/
def blockComment : Text.Reader LiteralKind := do
  literal ['/', '*']
  shortRun fun _ => true
  either (literal commentEnd) (ensure fun place => place.rest.isEmpty)
  return .blockComment

/-- The pattern of a line comment. -/
def lineComment : Text.Reader LiteralKind := do
  literal ['/', '/']
  run (· != '\n')
  return .lineComment

/-- The pattern of all comments and literals: one kind after the other is tried, with all the ways
to read it. -/
def token : Text.Reader LiteralKind :=
  oneOf [textBlock, string, character, blockComment, lineComment]

/-- The first reading of a pattern takes a certain number of characters of a text, or there is no
reading. -/
def FirstTakes {α : Type} (reader : Text.Reader α) (value : α) (text : List Char)
    (found : Option Nat) : Prop :=
  ∀ offset before, (reader ⟨offset, before, text⟩).head? =
    found.map fun length => (value, .beyond offset before (text.take length) (text.drop length))

section Patterns

variable {α : Type} {value : α} {reader : Text.Reader α}

/-- Behind a stretch a pattern takes what it takes, and the stretch counts with it. -/
theorem FirstTakes.behind {found : Option Nat} (takes : FirstTakes reader value rest found)
    (offset : Nat) (before : Option Char) (taken : List Char) :
    (reader (.beyond offset before taken rest)).head? =
      (found.map (· + taken.length)).map fun length =>
        (value, .beyond offset before ((taken ++ rest).take length)
          ((taken ++ rest).drop length)) := by
  have here := takes (offset + taken.length) (taken.getLast?.or before)
  rw [Option.map_map]
  refine here.trans (congrArg (fun each => found.map each) (funext fun length => ?_))
  rw [Function.comp_apply, Nat.add_comm length, List.take_length_add_append,
    List.drop_length_add_append, Cursor.beyond_append]

/-- A pattern that begins with certain characters, where these stand. -/
theorem FirstTakes.literal {found : Option Nat} (takes : FirstTakes reader value rest found)
    (word : List Char) :
    FirstTakes (do Text.Reader.literal word; reader) value (word ++ rest)
      (found.map (· + word.length)) := by
  intro offset before
  rw [bind_eq_of_singleton (literal_append word offset before rest), takes.behind]

/-- A pattern that begins with certain characters, where these do not stand. -/
theorem firstTakes_none {word text : List Char} (absent : ¬ word <+: text) :
    FirstTakes (do Text.Reader.literal word; reader) value text none := by
  intro offset before
  rw [bind_eq_nil (literal_eq_nil absent offset before)]
  rfl

/-- Certain characters at the end of a pattern, where these stand. -/
theorem literal_pure_append (word : List Char) (value : α) (offset : Nat) (before : Option Char)
    (rest : List Char) :
    (do literal word; return value : Text.Reader α) ⟨offset, before, word ++ rest⟩ =
      [(value, .beyond offset before word rest)] :=
  bind_eq_of_singleton (literal_append word offset before rest) _

/-- Certain characters at the end of a pattern, where these do not stand. -/
theorem literal_pure_eq_nil {word text : List Char} (absent : ¬ word <+: text) (value : α)
    (offset : Nat) (before : Option Char) :
    (do literal word; return value : Text.Reader α) ⟨offset, before, text⟩ = [] :=
  bind_eq_nil (literal_eq_nil absent offset before) _

/-- A character does not stand at the front where another one does. -/
theorem not_first_of_ne {c d : Char} (different : c ≠ d) (rest : List Char) :
    ¬ [d] <+: c :: rest := by
  rintro ⟨more, split⟩
  exact different (List.cons.inj split).1.symm

variable {admitted : Char → Bool} {offset : Nat} {before : Option Char}

/-- A backslash is passed together with the character behind it. -/
theorem step_escape (plain : admitted '\\' = false) (escaped : Char) (rest : List Char) :
    step admitted ⟨offset, before, '\\' :: escaped :: rest⟩ =
      [((), .beyond offset before ['\\', escaped] rest)] := by
  have escapes : (do char (· == '\\'); char fun _ => true : Text.Reader Unit)
      ⟨offset, before, '\\' :: escaped :: rest⟩ =
        [((), .beyond offset before ['\\', escaped] rest)] := rfl
  have refused : char admitted ⟨offset, before, '\\' :: escaped :: rest⟩ = [] := by
    simp [char, plain]
  rw [step, either, escapes, refused, List.append_nil]

/-- A backslash with nothing behind it is no step. -/
theorem step_lone (plain : admitted '\\' = false) :
    step admitted ⟨offset, before, ['\\']⟩ = [] := by
  have escapes : (do char (· == '\\'); char fun _ => true : Text.Reader Unit)
    ⟨offset, before, ['\\']⟩ = [] := rfl
  have refused : char admitted ⟨offset, before, ['\\']⟩ = [] := by simp [char, plain]
  rw [step, either, escapes, refused, List.append_nil]

/-- A character that is no backslash is passed if it is admitted. -/
theorem step_single {c : Char} (notBackslash : c ≠ '\\') (rest : List Char) :
    step admitted ⟨offset, before, c :: rest⟩ =
      if admitted c then [((), .beyond offset before [c] rest)] else [] := by
  have refused : char (· == '\\') ⟨offset, before, c :: rest⟩ = [] := by simp [char, notBackslash]
  have escapes : (do char (· == '\\'); char fun _ => true : Text.Reader Unit)
    ⟨offset, before, c :: rest⟩ = [] :=
    bind_eq_nil refused _
  rw [step, either, escapes, List.nil_append, char]
  rfl

/-- As many steps as possible and a quote end where the literal is closed. -/
theorem firstTakes_quoted {quote : Char} (isQuote : quote ≠ '\\') (value : α) (text : List Char) :
    FirstTakes (do let _ ← many (step (goesAlone quote)); literal [quote]; return value) value text
      (closeQuote quote text) := by
  have plain : goesAlone quote '\\' = false := by simp [goesAlone]
  -- No step begins with the quote, so giving steps back gains nothing.
  fun_induction closeQuote quote text with
  | case1 =>
    intro offset before
    rw [many_bind]
    rfl
  | case2 escaped rest ih =>
    intro offset before
    have shorter : rest.length < ('\\' :: escaped :: rest).length := by
      simp only [List.length_cons]; omega
    rw [many_bind, step_escape plain, List.flatMap_singleton, Cursor.rest_beyond, if_pos shorter,
      literal_pure_eq_nil (not_first_of_ne isQuote.symm _), List.append_nil]
    exact ih.behind offset before ['\\', escaped]
  | case3 c rest alone closes =>
    intro offset before
    obtain rfl : c = quote := by simpa using closes
    have ends := literal_pure_append [c] value offset before rest
    rw [List.singleton_append] at ends
    rw [many_bind, step_single isQuote, if_neg (by simp [goesAlone]), ends]
    rfl
  | case4 c rest alone differs breaks =>
    intro offset before
    have different : c ≠ quote := by simpa using differs
    -- A line feed is no step, and neither is a backslash with nothing behind it.
    have refused : step (goesAlone quote) ⟨offset, before, c :: rest⟩ = [] := by
      by_cases backslash : c = '\\'
      · subst backslash
        cases rest with
        | cons escaped rest => exact absurd rfl (alone escaped rest rfl)
        | nil => exact step_lone plain
      · have feed : c = '\n' := by simpa [backslash] using breaks
        rw [step_single backslash, if_neg (by simp [goesAlone, feed])]
    rw [many_bind, refused, literal_pure_eq_nil (not_first_of_ne different _)]
    rfl
  | case5 c rest alone differs goesOn ih =>
    intro offset before
    obtain ⟨notFeed, notBackslash⟩ : c ≠ '\n' ∧ c ≠ '\\' := by simpa using goesOn
    have different : c ≠ quote := by simpa using differs
    rw [many_bind, step_single notBackslash, if_pos (by simp [goesAlone, *]),
      List.flatMap_singleton, Cursor.rest_beyond, if_pos (by simp),
      literal_pure_eq_nil (not_first_of_ne different _), List.append_nil]
    exact ih.behind offset before [c]

/-- A step takes a character at least. -/
theorem step_shorter {place : Cursor} {read : Unit × Cursor} (member : read ∈ step admitted place) :
    read.2.rest.length < place.rest.length := by
  obtain ⟨offset, before, text⟩ := place
  rcases List.mem_append.mp member with escapes | alone
  · obtain ⟨_, _, readBackslash, readEscaped⟩ := mem_bind.mp escapes
    obtain ⟨_, rest, rfl, _, same⟩ := mem_char.mp readBackslash
    cases same
    obtain ⟨_, more, rfl, _, rfl⟩ := mem_char.mp readEscaped
    simp only [Cursor.rest_beyond, List.length_cons]
    omega
  · obtain ⟨_, rest, rfl, _, rfl⟩ := mem_char.mp alone
    simp

/-- With one step at least, a quote that stands first does not close the literal. -/
theorem firstTakes_quoted1 {quote : Char} (isQuote : quote ≠ '\\') (value : α) {text : List Char}
    (something : text.head? ≠ some quote) :
    FirstTakes
      (do
        step (goesAlone quote)
        let _ ← many (step (goesAlone quote))
        literal [quote]
        return value)
      value text (closeQuote quote text) := by
  intro offset before
  rw [← firstTakes_quoted isQuote value text offset before, many_bind]
  have notHere : ¬ [quote] <+: text := by
    rintro ⟨rest, rfl⟩
    exact something rfl
  rw [literal_pure_eq_nil notHere, List.append_nil]
  -- Many steps come down to one step and then many, unless they are none.
  refine congrArg List.head? (List.flatMap_congr fun read member => ?_)
  rw [if_pos (step_shorter member)]

/-- As few steps as possible and three quotes end where the text block is closed. -/
theorem firstTakes_block (value : α) (text : List Char) :
    FirstTakes (do fewest (step (· != '\\')); literal blockQuotes; return value) value text
      (closeTextBlock text) := by
  -- The cases are those of the search for the end; each turn of the reader is one step of it.
  fun_induction closeTextBlock text with
  | case1 =>
    intro offset before
    rw [fewest_bind]
    rfl
  | case2 rest =>
    intro offset before
    have ends : (do literal blockQuotes; return value : Text.Reader α)
      ⟨offset, before, '"' :: '"' :: '"' :: rest⟩ =
        [(value, .beyond offset before blockQuotes rest)] :=
          literal_pure_append blockQuotes value offset before rest
    rw [fewest_bind, ends]
    rfl
  | case3 escaped rest ih =>
    intro offset before
    have shorter : rest.length < ('\\' :: escaped :: rest).length := by
      simp only [List.length_cons]; omega
    rw [fewest_bind, literal_pure_eq_nil (by simp [blockQuotes]), List.nil_append,
      step_escape (by decide), List.flatMap_singleton, Cursor.rest_beyond, if_pos shorter]
    exact ih.behind offset before ['\\', escaped]
  | case4 c rest _ alone backslash =>
    intro offset before
    obtain rfl : c = '\\' := by simpa using backslash
    cases rest with
    | cons escaped rest => exact absurd rfl (alone escaped rest rfl)
    | nil =>
      rw [fewest_bind, literal_pure_eq_nil (by simp [blockQuotes]), step_lone (by decide)]
      rfl
  | case5 c rest unclosed alone plain ih =>
    intro offset before
    have notBackslash : c ≠ '\\' := by simpa using plain
    have notHere : ¬ blockQuotes <+: c :: rest := by
      rintro ⟨more, split⟩
      obtain ⟨isQuote, twice⟩ := List.cons.inj split
      exact unclosed more isQuote.symm twice.symm
    rw [fewest_bind, literal_pure_eq_nil notHere, List.nil_append, step_single notBackslash,
      if_pos (by simpa using notBackslash), List.flatMap_singleton, Cursor.rest_beyond,
        if_pos (by simp)]
    exact ih.behind offset before [c]

/-- As few characters as possible and the end of a comment, or else of the text. -/
theorem firstTakes_comment (value : α) (text : List Char) :
    FirstTakes (do
      shortRun fun _ => true
      either (literal commentEnd) (ensure fun place => place.rest.isEmpty)
      return value) value text (some (closeComment text)) := by
  fun_induction closeComment text with
  | case1 => exact fun _ _ => rfl
  | case2 rest => exact fun _ _ => rfl
  | case3 c rest unclosed ih =>
    intro offset before
    have notHere : ¬ commentEnd <+: c :: rest := by
      rintro ⟨more, split⟩
      obtain ⟨star, slash⟩ := List.cons.inj split
      exact unclosed more star.symm slash.symm
    -- Neither the end of the comment nor that of the text stands here.
    have goesOn :
        (do either (literal commentEnd) (ensure fun place => place.rest.isEmpty); return value :
          Text.Reader α) ⟨offset, before, c :: rest⟩ = [] := by
      have unfolded :
        (do either (literal commentEnd) (ensure fun place => place.rest.isEmpty); return value :
          Text.Reader α) ⟨offset, before, c :: rest⟩ =
          (literal commentEnd ⟨offset, before, c :: rest⟩ ++ []).flatMap
            fun (read : Unit × Cursor) =>
            [(value, read.2)] := rfl
      rw [unfolded, literal_eq_nil notHere]
      rfl
    rw [shortRun_bind_cons rfl, goesOn, List.nil_append]
    exact ih.behind offset before [c]

/-- A text block is read where the search for one finds it. -/
theorem firstTakes_textBlock (text : List Char) :
    FirstTakes textBlock .textBlock text (textBlock? text) := by
  by_cases opens : blockQuotes <+: text
  · obtain ⟨rest, rfl⟩ := opens
    exact (firstTakes_block _ rest).literal blockQuotes
  · have nothing : textBlock? text = none := by
      unfold textBlock?
      split
      · exact absurd ⟨_, rfl⟩ opens
      · rfl
    rw [nothing]
    exact firstTakes_none opens

/-- A block comment is read where the search for one finds it. -/
theorem firstTakes_blockComment (text : List Char) :
    FirstTakes blockComment .blockComment text (blockComment? text) := by
  by_cases opens : ['/', '*'] <+: text
  · obtain ⟨rest, rfl⟩ := opens
    exact (firstTakes_comment _ rest).literal ['/', '*']
  · have nothing : blockComment? text = none := by
      unfold blockComment?
      split
      · exact absurd ⟨_, rfl⟩ opens
      · rfl
    rw [nothing]
    exact firstTakes_none opens

/-- A line comment is read where the search for one finds it. -/
theorem firstTakes_lineComment (text : List Char) :
    FirstTakes lineComment .lineComment text (lineComment? text) := by
  have toEnd : ∀ rest : List Char,
      FirstTakes (do run (· != '\n'); return LiteralKind.lineComment) .lineComment rest
        (some (rest.takeWhile (· != '\n')).length) := by
    intro rest offset before
    have all : ∀ c ∈ rest.takeWhile (· != '\n'), (c != '\n') = true :=
      fun c inside => List.mem_takeWhile_imp (p := fun c => c != '\n') inside
    have stop := List.head?_dropWhile_not (· != '\n') rest
    -- The run goes on to where the line ends.
    have whole : rest.takeWhile (· != '\n') ++ rest.dropWhile (· != '\n') = rest :=
      List.takeWhile_append_dropWhile
    generalize rest.takeWhile (· != '\n') = taken at all whole ⊢
    generalize rest.dropWhile (· != '\n') = more at stop whole
    subst whole
    have ended : more.head?.any (· != '\n') = false := by
      cases more with
      | nil => rfl
      | cons c more => simpa using stop
    have prefers : Prefers (do run (· != '\n'); return LiteralKind.lineComment) offset before
      (taken ++ []) more .lineComment := .bind (.run all ended) (.pure _)
    rw [List.append_nil] at prefers
    simpa [Prefers] using prefers
  by_cases opens : ['/', '/'] <+: text
  · obtain ⟨rest, rfl⟩ := opens
    exact (toEnd rest).literal ['/', '/']
  · have nothing : lineComment? text = none := by
      unfold lineComment?
      split
      · exact absurd ⟨_, rfl⟩ opens
      · rfl
    rw [nothing]
    exact firstTakes_none opens

/-- A string is read where the search for one finds it. -/
theorem firstTakes_string (text : List Char) : FirstTakes string .string text (string? text) := by
  by_cases opens : ['"'] <+: text
  · obtain ⟨rest, rfl⟩ := opens
    exact (firstTakes_quoted (by decide) _ rest).literal ['"']
  · have nothing : string? text = none := by
      unfold string?
      split
      · exact absurd ⟨_, rfl⟩ opens
      · rfl
    rw [nothing]
    exact firstTakes_none opens

/-- A character literal is read where the search for one finds it. -/
theorem firstTakes_character (text : List Char) :
    FirstTakes character .character text (character? text) := by
  by_cases opens : ['\''] <+: text
  · obtain ⟨rest, rfl⟩ := opens
    by_cases twice : rest.head? = some '\''
    · -- The second quote is no step, so nothing is read.
      obtain ⟨more, rfl⟩ := List.head?_eq_some_iff.mp twice
      intro offset before
      have refused : step (goesAlone '\'') (.beyond offset before ['\''] ('\'' :: more)) = [] := by
        rw [Cursor.beyond, step_single (by decide), if_neg (by decide)]
      rw [character, bind_eq_of_singleton (literal_append ['\''] offset before _),
        bind_eq_nil refused]
      rfl
    · have closes : character? (['\''] ++ rest) = (closeQuote '\'' rest).map (· + 1) := by
        rw [List.singleton_append, character?]
        intro more same
        exact twice (by rw [same]; rfl)
      rw [closes]
      exact (firstTakes_quoted1 (by decide) _ twice).literal ['\'']
  · have nothing : character? text = none := by
      unfold character?
      split
      · exact absurd ⟨_, rfl⟩ opens
      · exact absurd ⟨_, rfl⟩ opens
      · rfl
    rw [nothing]
    exact firstTakes_none opens

/-- The first reading of the pattern is the literal at the front of a text. -/
theorem head?_token (offset : Nat) (before : Option Char) (text : List Char) :
    (token ⟨offset, before, text⟩).head? =
      (literalAt text).map fun found =>
        (found.1, .beyond offset before (text.take found.2) (text.drop found.2)) := by
  -- Both try one kind after the other.
  have tried : token ⟨offset, before, text⟩ =
      textBlock ⟨offset, before, text⟩ ++
        (string ⟨offset, before, text⟩ ++
        (character ⟨offset, before, text⟩ ++
        (blockComment ⟨offset, before, text⟩ ++ lineComment ⟨offset, before, text⟩))) := by
    simp only [token, oneOf, List.flatMap_cons, List.flatMap_nil, List.append_nil]
  rw [tried]
  simp only [List.head?_append, literalAt, Option.map_or, Option.map_map,
    firstTakes_textBlock text offset before, firstTakes_string text offset before,
    firstTakes_character text offset before,
    firstTakes_blockComment text offset before, firstTakes_lineComment text offset before]
  rfl

end Patterns

end Reader

/-- The tokens among the pieces, the first piece at `offset`. -/
def tokensFrom (offset : Nat) : List Piece → List Token
  | [] => []
  | .code _ :: more => tokensFrom (offset + 1) more
  | .literal kind text :: more =>
    ⟨kind, offset, offset + text.length⟩ :: tokensFrom (offset + text.length) more

/-- The spans of the tokens are the spans of the pieces. -/
theorem map_span_tokensFrom (offset : Nat) (row : List Piece) :
    (tokensFrom offset row).map Token.span = spansFrom offset row := by
  induction row generalizing offset with
  | nil => rfl
  | cons piece row ih =>
    cases piece with
    | code c => exact ih (offset + 1)
    | literal kind text =>
      exact congrArg ((offset, offset + text.length) :: ·) (ih (offset + text.length))

/-- A literal at the front of a text takes something. -/
theorem literal_ne_nil {text : List Char}
    (found : literalAt (text ++ rest) = some (kind, text.length)) : text ≠ [] := by
  have := (literalAt_length found).1
  rintro rfl
  simp at this

/-- A search by the pattern finds the tokens among the pieces. -/
theorem allFrom_token {text : List Char} (lexed : Lexed text row) (offset : Nat)
    (before : Option Char) :
    (Reader.token.allFrom offset before 0 text).map
      (fun found => ⟨found.value, found.start, found.after.offset⟩) =
      tokensFrom offset row := by
  -- Where a literal stands the reader prefers it, and elsewhere it reads nothing.
  induction lexed generalizing offset before with
  | done => rfl
  | @code c rest row nothing _ ih =>
    have here : Reader.token.foundAt ⟨offset, before, c :: rest⟩ = none := by
      rw [Text.Reader.foundAt, Reader.head?_token, nothing]
      rfl
    rw [Text.Reader.allFrom, here]
    exact ih (offset + 1) (some c)
  | @literal kind text rest row found _ ih =>
    have prefers : Reader.token.Prefers offset before text rest kind := by
      rw [Text.Reader.Prefers, Reader.head?_token, found]
      simp
    rw [Text.Reader.allFrom_prefers (literal_ne_nil found) prefers, List.map_cons, ih]
    rfl

/-- The lexer takes the tokens among the pieces. -/
theorem lexes_tokensFrom (lexed : Lexed rest row) (front : List Char) :
    Lexes (front ++ rest) front.length (tokensFrom front.length row) := by
  -- Piece by piece; a literal is the first of its kinds that is found.
  induction lexed generalizing front with
  | done =>
    rw [List.append_nil]
    exact .done
  | @code c rest row nothing _ ih =>
    refine .code (by simp) (fun kind => ?_) ?_
    · rw [List.drop_left]
      exact find_eq_none.mp (literalAt_eq_none.mp nothing kind)
    · simpa [tokensFrom] using ih (front ++ [c])
  | @literal kind text rest row found _ ih =>
    obtain ⟨first, others⟩ := literalAt_eq_some.mp found
    refine .token List.drop_left (isToken_of_find first) (fun earlier one other before => ?_) ?_
    · rw [List.drop_left]
      exact find_eq_none.mp (others earlier before) one other
    · simpa using ih (front ++ text)

/-- Of two tokens at one place of which neither has an earlier rival, both are of one kind and have
one text. -/
theorem IsToken.unique {kindToo : LiteralKind} {text textToo restToo : List Char}
    (token : IsToken kind text rest) (tokenToo : IsToken kindToo textToo restToo)
    (same : text ++ rest = textToo ++ restToo) (first : ¬ kindToo.turn < kind.turn)
    (firstToo : ¬ kind.turn < kindToo.turn) : kind = kindToo ∧ text = textToo := by
  -- Kinds that are tried in the same turn are the same, and each kind has one length.
  have inTurn : kind = kindToo := by
    cases kind <;> cases kindToo <;> first | rfl | simp [LiteralKind.turn] at first firstToo
  subst inTurn
  have found := token.find_eq
  rw [same, tokenToo.find_eq] at found
  exact ⟨rfl, (List.append_inj same (Option.some.inj found).symm).1⟩

theorem IsToken.ne_nil {text : List Char} (token : IsToken kind text rest) : text ≠ [] := by
  cases token <;> simp [blockQuotes]

/-- The lexer has no choice. -/
theorem Lexes.unique {place : Nat} {tokens others : List Token} (lexes : Lexes source place tokens)
    (lexesToo : Lexes source place others) : tokens = others := by
  -- No token begins at the end of the source.
  have atEnd : ∀ {place kind text rest}, source.length ≤ place → source.drop place = text ++ rest →
      ¬ IsToken kind text rest := by
    intro place kind text rest ended split token
    rw [List.drop_eq_nil_of_le ended] at split
    exact token.ne_nil (List.append_eq_nil_iff.mp split.symm).1
  induction lexes generalizing others with
  | done =>
    cases lexesToo with
    | done => rfl
    | code inside => exact absurd inside (Nat.lt_irrefl _)
    | token split token => exact absurd token (atEnd Nat.le.refl split)
  | code inside nothing _ ih =>
    cases lexesToo with
    | done => exact absurd inside (Nat.lt_irrefl _)
    | code _ _ further => exact ih further
    | token split token => exact absurd token (nothing _ _ _ split)
  | token split token first _ ih =>
    cases lexesToo with
    | done => exact absurd token (atEnd Nat.le.refl split)
    | code _ nothing => exact absurd token (nothing _ _ _ split)
    | token splitToo tokenToo firstToo further =>
      obtain ⟨rfl, rfl⟩ := token.unique tokenToo (split.symm.trans splitToo)
        (fun earlier => first _ _ _ earlier splitToo tokenToo)
          (fun earlier => firstToo _ _ _ earlier split token)
      rw [ih further]

/-- The tokens among the pieces of a text lie within it, and none is empty. -/
theorem bounds_of_mem_tokensFrom {text : List Char} (lexed : Lexed text row) {offset : Nat}
    {token : Token} (member : token ∈ tokensFrom offset row) :
    offset ≤ token.start ∧ token.start < token.stop ∧ token.stop ≤ offset + text.length := by
  induction lexed generalizing offset with
  | done => cases member
  | code _ _ ih =>
    have := ih member
    simp only [List.length_cons]
    omega
  | @literal kind text rest row found _ ih =>
    have := List.length_pos_iff.mpr (literal_ne_nil found)
    simp only [List.length_append]
    -- The first token is this literal, and all others lie in what follows it.
    rcases List.mem_cons.mp member with rfl | further
    · simp only
      omega
    · have := ih further
      omega

/-- Each token ends before the next one begins. -/
theorem pairwise_tokensFrom {text : List Char} (lexed : Lexed text row) (offset : Nat) :
    (tokensFrom offset row).Pairwise fun one other => one.stop ≤ other.start := by
  -- A token ends where the rest of the source begins, and the others lie there.
  induction lexed generalizing offset with
  | done => exact .nil
  | code _ _ ih => exact ih (offset + 1)
  | literal _ lexed ih =>
    exact .cons (fun _ later => (bounds_of_mem_tokensFrom lexed later).1) (ih _)

/-- The placeholder of a kind is what a literal of the kind is blanked to. -/
theorem placeholder_eq_blanked (kind : LiteralKind) (text : List Char) :
    kind.placeholder text = (Piece.literal kind text).blanked := by
  cases kind <;> simp [LiteralKind.placeholder, Piece.blanked, lineFeeds, List.filter_beq]

/-- A character before all tokens is kept. -/
theorem exchanged_cons {place : Nat} {c : Char} {tokens : List Token}
    (here : source.drop place = c :: rest) (later : ∀ token ∈ tokens, place < token.start) :
    exchanged source place tokens = c :: exchanged source (place + 1) tokens := by
  have behind : source.drop (place + 1) = rest := by
    rw [← List.drop_drop, here]
    rfl
  cases tokens with
  | nil => rw [exchanged, exchanged, here, behind]
  | cons token tokens =>
    -- The stretch up to the first token has this character at its front.
    have start := later token List.mem_cons_self
    have kept : sliceOf source place token.start = c :: sliceOf source (place + 1) token.start := by
      rw [sliceOf, sliceOf, here, behind, show token.start - place = token.start - (place + 1) +
        1 by omega, List.take_succ_cons]
    rw [exchanged, kept]
    rfl

/-- Blanking the pieces of a source exchanges its tokens. -/
theorem exchanged_tokensFrom (lexed : Lexed rest row) (front : List Char) :
    exchanged (front ++ rest) front.length
      (tokensFrom front.length row) = row.flatMap Piece.blanked := by
  induction lexed generalizing front with
  | done => simp [tokensFrom, exchanged]
  | @code c rest row _ lexed ih =>
    have onward : exchanged (front ++ c :: rest) (front.length + 1)
        (tokensFrom (front.length + 1) row) =
          row.flatMap Piece.blanked := by
      simpa using ih (front ++ [c])
    rw [tokensFrom, exchanged_cons List.drop_left fun _ later =>
      (bounds_of_mem_tokensFrom lexed later).1, onward]
    rfl
  | @literal kind text rest row _ _ ih =>
    have onward : exchanged (front ++ (text ++ rest)) (front.length + text.length)
        (tokensFrom (front.length + text.length) row) = row.flatMap Piece.blanked := by
      simpa using ih (front ++ text)
    -- Nothing stands before the token, and the token is the literal.
    have none : sliceOf (front ++ (text ++ rest)) front.length front.length = [] := by
      simp [sliceOf]
    rw [tokensFrom, exchanged, none, sliceOf_append, placeholder_eq_blanked, onward]
    rfl

/-- One lexer goes through a source in only one way. Its tokens are those that a search by the
pattern of all comments and literals finds, they lie apart and in order, their positions are the
spans of the source, and the blanked source has their placeholders in their places. -/
theorem literalSpans_of_lexer (source : List Char) :
    ∃ tokens : List Token,
      (∀ others, Lexes source 0 others ↔ others = tokens) ∧
      (Reader.token.all source).map (fun found => ⟨found.value, found.start, found.after.offset⟩) =
        tokens ∧
      literalSpans source = tokens.map Token.span ∧
      (∀ token ∈ tokens, token.start < token.stop ∧ token.stop ≤ source.length) ∧
      tokens.Pairwise (fun one other => one.stop ≤ other.start) ∧
      blanked source = exchanged source 0 tokens := by
  -- The tokens are those of the pieces, and each part of the result was shown for these.
  have lexed := lexed_pieces source
  have lexes : Lexes source 0 (tokensFrom 0 (pieces source)) := lexes_tokensFrom lexed []
  refine ⟨tokensFrom 0 (pieces source), fun others => ⟨fun lexesToo => lexesToo.unique lexes, ?_⟩,
    allFrom_token lexed 0 none, (map_span_tokensFrom 0 _).symm, fun token member =>
      ?_, pairwise_tokensFrom lexed 0,
    (exchanged_tokensFrom lexed []).symm⟩
  · rintro rfl
    exact lexes
  · have bounds := bounds_of_mem_tokensFrom lexed member
    omega

/-- A row of pieces that has no literal across a position falls into two rows there. -/
theorem exists_cut (within : position ≤ (sourceOf row).length)
    (between : ∀ span ∈ spansFrom 0 row, ¬ (span.1 < position ∧ position < span.2)) :
    ∃ front back, row = front ++ back ∧ (sourceOf front).length = position := by
  rcases Nat.lt_or_eq_of_le within with inside | rfl
  · obtain ⟨front, piece, back, taken, rfl, fits, rfl⟩ := exists_piece inside
    -- The position lies at the front of a piece, for the piece would be a literal across it
    -- otherwise.
    suffices taken = 0 from ⟨front, piece :: back, rfl, by omega⟩
    cases piece with
    | code c => simpa [Piece.source] using fits
    | literal kind text =>
      have fits : taken < text.length := fits
      have own : ((sourceOf front).length, (sourceOf front).length + text.length) ∈
          spansFrom 0 (front ++ .literal kind text :: back) := by
        rw [spansFrom_append, Nat.zero_add]
        exact List.mem_append_right _ List.mem_cons_self
      have := between _ own
      simp only at this
      omega
  · exact ⟨row, [], (List.append_nil row).symm, rfl⟩

/-- The spans of pieces that begin further on are shifted. -/
theorem spansFrom_add (row : List Piece) (offset shift : Nat) :
    spansFrom (shift + offset) row = (spansFrom offset row).map fun span =>
      (shift + span.1, shift + span.2) := by
  induction row generalizing offset with
  | nil => rfl
  | cons piece row ih =>
    cases piece with
    | code c => exact ih (offset + 1)
    | literal kind text => simp only [spansFrom, List.map_cons, ← ih, Nat.add_assoc]

/-- A source cut where no literal goes across falls into the pieces of its two parts. -/
theorem pieces_cut
    (between : ∀ span ∈ literalSpans source, ¬ (span.1 < position ∧ position < span.2)) :
    pieces source = pieces (source.take position) ++ pieces (source.drop position) := by
  rcases Nat.le_or_ge position source.length with within | beyond
  · have lexed := lexed_pieces source
    obtain ⟨front, back, whole, rfl⟩ := exists_cut (by rwa [sourceOf_pieces]) between
    have split : source = sourceOf front ++ sourceOf back := by
      rw [← sourceOf_append, ← whole, sourceOf_pieces]
    rw [whole] at lexed
    -- What lies behind the cut matters neither to the pieces before it nor to those behind it.
    have early : Lexed (sourceOf front) front := by simpa [pieces] using lexed.keep List.nil_prefix
    have late := lexed.drop
    rw [whole, split, List.take_left, List.drop_left, early.eq_pieces, late.eq_pieces]
  · rw [List.take_of_length_le beyond, List.drop_eq_nil_of_le beyond]
    simp [pieces]

/-- Each span is that of a literal among the pieces. -/
theorem exists_of_mem_spansFrom {offset : Nat} {span : Nat × Nat}
    (member : span ∈ spansFrom offset row) :
    ∃ front kind text back, row = front ++ .literal kind text :: back ∧
      span = (offset + (sourceOf front).length,
        offset + (sourceOf front).length + text.length) := by
  -- The span belongs to the first piece, or to one of those behind it.
  induction row generalizing offset with
  | nil => cases member
  | cons piece row ih =>
    cases piece with
    | code c =>
      obtain ⟨front, kind, text, back, rfl, rfl⟩ := ih member
      refine ⟨.code c :: front, kind, text, back, rfl, ?_⟩
      simp only [sourceOf_cons, Piece.source, List.length_append, List.length_singleton,
        Nat.add_assoc]
    | literal kind text =>
      rcases List.mem_cons.mp member with rfl | further
      · exact ⟨[], kind, text, row, rfl, by simp⟩
      · obtain ⟨front, kind', text', back, rfl, rfl⟩ := ih further
        exact ⟨.literal kind text :: front, kind', text', back,
          rfl, by simp [Piece.source, Nat.add_assoc]⟩

/-- A literal of a source begins where no other one goes across, and is the one found there. -/
theorem mem_literalSpans_iff {length : Nat} :
    (position, position + length) ∈ literalSpans source ↔
      (∃ kind, literalAt (source.drop position) = some (kind, length)) ∧
        ∀ span ∈ literalSpans source, ¬ (span.1 < position ∧ position < span.2) := by
  constructor
  · intro member
    have lexed := lexed_pieces source
    obtain ⟨front, kind, text, back, whole, same⟩ := exists_of_mem_spansFrom member
    obtain ⟨rfl, sized⟩ := Prod.mk.inj same
    obtain rfl : length = text.length := by omega
    have split : source = sourceOf front ++ sourceOf (.literal kind text :: back) := by
      rw [← sourceOf_append, ← whole, sourceOf_pieces]
    rw [Nat.zero_add]
    refine ⟨⟨kind, ?_⟩, fun span other => ?_⟩
    · rw [whole] at lexed
      obtain ⟨rest, isSource, found, _⟩ := lexed.drop.of_literal
      rw [split, List.drop_left, isSource]
      exact found
    · -- Another literal ends before this one, or begins behind it.
      rw [literalSpans, whole, spansFrom_append, Nat.zero_add, List.mem_append] at other
      rcases other with early | late
      · have := (bounds_of_mem_spansFrom early).2
        omega
      · have := (bounds_of_mem_spansFrom late).1
        omega
  · rintro ⟨⟨kind, found⟩, between⟩
    obtain ⟨positive, bounded⟩ := literalAt_length found
    rw [List.length_drop] at bounded
    obtain ⟨text, rest, split, rfl⟩ : ∃ text rest, source.drop position = text ++ rest ∧
        text.length = length := by
      refine ⟨_, _, (List.take_append_drop length _).symm, ?_⟩
      rw [List.length_take, List.length_drop]
      omega
    -- The pieces behind the cut begin with the literal that is found there.
    have behind : Lexed (source.drop position) (.literal kind text :: pieces rest) := by
      rw [split] at found ⊢
      exact .literal found (lexed_pieces rest)
    rw [literalSpans, pieces_cut between, behind.eq_pieces, spansFrom_append, sourceOf_pieces,
      Nat.zero_add, List.length_take_of_le (by omega)]
    exact List.mem_append_right _ List.mem_cons_self

/-- Where no literal goes across a position, the spans of a source are those of the part before it
and then those of the part behind it, moved to their place, and the two parts may be blanked one by
one. -/
theorem literalSpans_cut (source : List Char) (position : Nat)
    (between : ∀ span ∈ literalSpans source, ¬ (span.1 < position ∧ position < span.2)) :
    literalSpans source = literalSpans (source.take position) ++
        (literalSpans (source.drop position)).map
          (fun span => (position + span.1, position + span.2)) ∧
      blanked source = blanked (source.take position) ++ blanked (source.drop position) := by
  have cut := pieces_cut between
  refine ⟨?_, by rw [blanked, cut, List.flatMap_append]; rfl⟩
  rw [literalSpans, cut, spansFrom_append, sourceOf_pieces, Nat.zero_add]
  rcases Nat.le_or_ge position source.length with within | beyond
  · rw [List.length_take_of_le within]
    exact congrArg _ (spansFrom_add _ 0 position)
  · -- Beyond the source nothing is left to be shifted.
    rw [List.drop_eq_nil_of_le beyond]
    simp [literalSpans, pieces, spansFrom]

/-- Three quotes that open no text block are an empty string and a quote, and the source may be cut
between them. -/
theorem literalSpans_cut_quotes :
    literalSpans "\"\"\"x 'c'".toList = [(0, 2), (5, 8)] ∧
      literalSpans "\"\"\"x 'c'".toList = literalSpans "\"\"".toList ++
        (literalSpans "\"x 'c'".toList).map (fun span => (2 + span.1, 2 + span.2)) := by
  have found : literalSpans "\"\"\"x 'c'".toList = [(0, 2), (5, 8)] := by decide +kernel
  refine ⟨found, (literalSpans_cut "\"\"\"x 'c'".toList 2 ?_).1⟩
  rw [found]
  decide

end Lineage.Java
