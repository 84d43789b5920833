import Lineage.Proofs.Java.CodeSearch
import Lineage.Proofs.Java.Comment
import Lineage.Proofs.Java.Words

/-! What the search for a body finds: the first announcement of the type in code, and the first
brace behind it. -/

namespace Lineage.Java

open Lineage.Text

/-- A type is announced in code, without regard to its modifiers, and behind its name its body opens
at the first brace, before which no semicolon stands. -/
structure Opens (source : List Char) (kind : Kind) (name front blanks gap rest : List Char) :
    Prop where
  split : source = front ++ (keywordOf kind ++ (blanks ++ (name ++ (gap ++ '{' :: rest))))
  code : CodeAt source front.length
  started : MayPrecede front.getLast?
  someBlanks : blanks ≠ []
  allBlank : ∀ c ∈ blanks, isBlank c = true
  ended : (gap ++ '{' :: rest).head?.any isNameChar = false
  header : ∀ c ∈ gap, Reader.InHeader c

variable {source name front blanks gap rest : List Char} {kind : Kind}

theorem Opens.rest_suffix (opens : Opens source kind name front blanks gap rest) :
    rest <:+ source :=
  ⟨front ++ (keywordOf kind ++ (blanks ++ (name ++ (gap ++ ['{'])))), by rw [opens.split]; simp⟩

/-- A character that is neither a letter nor a brace stands before the announcement, between its
words, behind the name or behind the brace. -/
theorem Opens.located {left right : List Char} {d : Char}
    (opens : Opens (left ++ d :: right) kind name front blanks gap rest)
    (named : ∀ c ∈ name, isNameChar c = true) (notName : isNameChar d = false)
    (notBrace : d ≠ '{') :
    (∃ more, front = left ++ d :: more ∧
        right = more ++ (keywordOf kind ++ (blanks ++ (name ++ (gap ++ '{' :: rest))))) ∨
      (∃ lead more, blanks = lead ++ d :: more ∧ left = front ++ (keywordOf kind ++ lead) ∧
        right = more ++ (name ++ (gap ++ '{' :: rest))) ∨
      (∃ lead more, gap = lead ++ d :: more ∧
        left = front ++ (keywordOf kind ++ (blanks ++ (name ++ lead))) ∧
        right = more ++ '{' :: rest) ∨
      ∃ inner, rest = inner ++ d :: right ∧
        left = front ++ (keywordOf kind ++ (blanks ++ (name ++ gap))) ++ '{' :: inner := by
  have notIn : ∀ {word lead more : List Char}, (∀ c ∈ word, isNameChar c = true) →
      word = lead ++ d :: more → False := by
    intro word lead more letters split
    rw [letters d (by rw [split]; simp)] at notName
    cases notName
  -- The parts of the source are passed from the left to the right.
  rcases append_cases opens.split.symm with ⟨more, inFront, isRight⟩ | ⟨one, isLeft, split⟩
  · exact Or.inl ⟨more, inFront, isRight⟩
  rcases append_cases split with ⟨more, inKeyword, _⟩ | ⟨two, rfl, splitBlanks⟩
  · exact (notIn (isNameChar_keywordOf kind) inKeyword).elim
  rcases append_cases splitBlanks with ⟨more, inBlanks, isRight⟩ | ⟨three, rfl, splitName⟩
  · exact Or.inr (Or.inl ⟨two, more, inBlanks, isLeft, isRight⟩)
  rcases append_cases splitName with ⟨more, inName, _⟩ | ⟨four, rfl, splitGap⟩
  · exact (notIn named inName).elim
  rcases append_cases splitGap with ⟨more, inGap, isRight⟩ | ⟨five, rfl, splitBrace⟩
  · exact Or.inr (Or.inr (Or.inl ⟨four, more, inGap, isLeft, isRight⟩))
  -- What is left begins with the brace.
  cases five with
  | nil => exact absurd (List.cons.inj splitBrace).1.symm notBrace
  | cons e inner =>
    obtain ⟨rfl, isRest⟩ := List.cons.inj splitBrace
    exact Or.inr (Or.inr (Or.inr ⟨inner, isRest, by simp [isLeft]⟩))

/-- The name ends before the brace whatever the body is. -/
theorem Opens.ended_before (opens : Opens source kind name front blanks gap rest)
    (rest' : List Char) : (gap ++ '{' :: rest').head?.any isNameChar = false := by
  have ended := opens.ended
  cases gap with
  | nil => exact ended
  | cons c gap => exact ended

/-- What follows code and begins no literal is code as well. -/
theorem CodeAt.advance {text : List Char} {c : Char}
    (code : CodeAt (front ++ (text ++ c :: rest)) front.length)
    (plain : ∀ d ∈ text, isOpener d = false) (notOpener : isOpener c = false) :
    CodeAt (front ++ (text ++ c :: rest)) (front.length + text.length) := by
  obtain ⟨before, d, back, whole, sized⟩ := code
  have lexed := lexed_pieces (front ++ (text ++ c :: rest))
  rw [whole] at lexed
  -- The pieces from the place on are those of the text that stands there.
  have isRest : sourceOf (.code d :: back) = text ++ c :: rest := by
    have parts := lexed.sourceOf_eq
    rw [sourceOf_append] at parts
    exact (List.append_inj parts sized).2
  have row : pieces (text ++ c :: rest) = .code d :: back := by
    rw [← isRest]
    exact lexed.drop.eq_pieces
  have here : pieces (c :: rest) = .code c :: pieces rest := by
    rw [pieces, literalAt_of_not_opener notOpener]
  rw [pieces_append_plain plain, here] at row
  refine ⟨before ++ text.map .code, c, pieces rest, ?_, ?_⟩
  · rw [whole, ← row]
    simp
  · rw [sourceOf_append, sourceOf_map_code, List.length_append, sized]

/-- No letter of a keyword begins a literal. -/
theorem keywordOf_eq_cons (kind : Kind) :
    ∃ c more, keywordOf kind = c :: more ∧ isOpener c = false := by
  cases kind with
  | interface => exact ⟨'i', "nterface".toList, rfl, rfl⟩
  | plainClass | abstractClass => exact ⟨'c', "lass".toList, rfl, rfl⟩

/-- Where the search finds an opening, the type is announced. The announcement goes on without its
modifiers. -/
theorem opens_of_foundAt {found : Text.Reader.Found Unit}
    (isFound : (Reader.openingInCode (literalSpans (front ++ rest)) kind name).foundAt
      (.beyond 0 none front rest) = some found) :
    ∃ spelled gap behind values, rest = spelled ++
      (gap ++ '{' :: behind) ∧ Announcement kind values name spelled ∧
      (∀ c ∈ gap, Reader.InHeader c) ∧ found.after = .beyond 0 none
      (front ++ (spelled ++ (gap ++ ['{']))) behind ∧
      ∃ before blanks, Opens (front ++ rest) kind name before blanks gap behind := by
  obtain ⟨⟨value, after⟩, isHead, rfl⟩ := Option.map_eq_some_iff.mp isFound
  have member := List.mem_of_head? isHead
  rw [Reader.openingInCode, Reader.inCode, List.mem_filter, Bool.not_eq_true'] at member
  obtain ⟨read, uncovered⟩ := member
  obtain ⟨spelled, gap, behind, rfl, announced, header, same⟩ := Reader.mem_opening.mp read
  obtain ⟨values, announcement⟩ := announced.spelled
  cases same
  refine ⟨spelled, gap, behind, values, rfl, announcement, header, by rw [Cursor.beyond_append], ?_⟩
  obtain ⟨modifiers, blanks, rfl, isText, someBlanks, allBlank⟩ := announcement
  obtain ⟨c, more, isKeyword, notOpener⟩ := keywordOf_eq_cons kind
  -- The modifiers are code, since the text is code where they begin.
  have plain : ∀ d ∈ modifiers, isOpener d = false :=
    fun d inside => isOpener_of_isWordy (isText.isWordy d inside)
  have grouped : modifiers ++ (keywordOf kind ++ (blanks ++ name)) ++ (gap ++ '{' :: behind) =
      modifiers ++ c :: (more ++ (blanks ++ (name ++ (gap ++ '{' :: behind)))) := by
        simp [isKeyword]
  have code :
      CodeAt (front ++ (modifiers ++ c :: (more ++ (blanks ++ (name ++ (gap ++ '{' :: behind))))))
        front.length := by
    have within : front.length < (front ++ (modifiers ++ (keywordOf kind ++ (blanks ++ name)) ++
        (gap ++ '{' :: behind))).length := by
      simp only [List.length_append, List.length_cons]
      omega
    rw [← grouped, codeAt_iff within]
    simpa using uncovered
  refine ⟨front ++ modifiers, blanks, ?_, ?_, ?_, someBlanks, allBlank, announced.ended, header⟩
  · simp
  · rw [grouped, List.length_append]
    exact code.advance plain notOpener
  · rw [List.getLast?_append]
    simpa using isText.mayPrecede announced.started

/-- Where the type is announced, an opening is found. -/
theorem Opens.foundAt (named : ∀ c ∈ name, isNameChar c = true)
    (opens : Opens source kind name front blanks gap rest) :
    (Reader.openingInCode (literalSpans source) kind name).foundAt (.beyond 0 none front
      (keywordOf kind ++ (blanks ++ (name ++ (gap ++ '{' :: rest))))) ≠ none := by
  -- The name is announced in front of the brace, and the announcement begins in code.
  have announced : Announced kind name (front.getLast?.or none) (keywordOf kind ++ (blanks ++ name))
      (gap ++ '{' :: rest) :=
    ⟨by simpa using opens.started, ⟨[], [], blanks, rfl, .none, opens.someBlanks, opens.allBlank⟩,
      opens.ended⟩
  have within : front.length < source.length := by
    rw [opens.split]
    simp only [List.length_append, List.length_cons]
    omega
  have found :=
    @Reader.foundAt_openingInCode (literalSpans source) kind name (0 + front.length) _ _ _ _ named
    (by rw [Nat.zero_add]; exact (codeAt_iff within).mp opens.code) announced opens.header
  intro nothing
  simp only [List.append_assoc] at found
  rw [Cursor.beyond, found] at nothing
  cases nothing

/-- The search finds nothing only if the type is announced nowhere. -/
theorem not_opens_of_first_none (named : ∀ c ∈ name, isNameChar c = true)
    (nothing : (Reader.openingInCode (literalSpans source) kind name).first source = none)
    (front blanks gap rest : List Char) : ¬ Opens source kind name front blanks gap rest := by
  intro opens
  refine opens.foundAt named (Text.Reader.foundAt_of_firstFrom_none ?_)
  rw [← opens.split]
  exact nothing

/-- The search finds the announcement behind which most of the source follows. -/
theorem opens_of_first_some (named : ∀ c ∈ name, isNameChar c = true)
    {found : Text.Reader.Found Unit}
    (isFirst : (Reader.openingInCode (literalSpans source) kind name).first source = some found) :
    (∃ front blanks gap, Opens source kind name front blanks gap found.after.rest) ∧
      found.after.offset + found.after.rest.length = source.length ∧
      ∀ front blanks gap rest, Opens source kind name front blanks gap rest →
        rest.length ≤ found.after.rest.length := by
  obtain ⟨front, rest, rfl, isFound, earlier⟩ := Text.Reader.exists_of_firstFrom_some isFirst
  obtain ⟨spelled, gap, behind, values, rfl, announcement, header, isAfter, before, blanks,
    opens⟩ :=
    opens_of_foundAt isFound
  rw [isAfter]
  refine ⟨⟨before, blanks, gap, opens⟩, ?_, ?_⟩
  · simp only [Cursor.beyond, List.length_append, List.length_cons, List.length_nil]
    omega
  · intro front' blanks' gap' rest' opens'
    rw [Cursor.rest_beyond]
    -- Another announcement begins no earlier, and up to the brace there is no other brace.
    have notEarlier : front.length ≤ front'.length := by
      by_contra before
      exact opens'.foundAt named (earlier front' _ opens'.split (by omega))
    have noBrace : '{' ∉ spelled ++ gap := by
      intro inside
      rcases List.mem_append.mp inside with inSpelled | inGap
      · exact (Reader.inHeader_of_isWordy (announcement.isWordy named _ inSpelled)).1 rfl
      · exact (header _ inGap).1 rfl
    have split : (front ++ (spelled ++ gap)) ++ '{' :: behind =
        (front' ++ (keywordOf kind ++ (blanks' ++ (name ++ gap')))) ++ '{' :: rest' := by
      simpa using opens'.split
    rcases append_cons_cases split with ⟨more, _, rfl⟩ | ⟨_, _, rfl⟩ | ⟨more, within, _⟩
    · simp only [List.length_append, List.length_cons]
      omega
    · exact Nat.le_refl _
    · -- The other brace would stand between the first announcement and its own brace.
      rw [List.append_assoc] at within
      refine absurd ?_ noBrace
      rcases List.append_eq_append_iff.mp within with ⟨lead, _, behindFront⟩
        | ⟨lead, isFront, behindLead⟩
      · rw [behindFront]
        simp
      · have nothing : lead = [] := by
          rw [isFront, List.length_append] at notEarlier
          exact List.length_eq_zero_iff.mp (by omega)
        rw [nothing, List.nil_append] at behindLead
        rw [← behindLead]
        simp

end Lineage.Java
