import Lineage.Proofs.Java.Search
import Lineage.Proofs.Text.SearchAlike

/-! A comment put into a source: types are announced where they were before, and their bodies are
the same up to it. -/

namespace Lineage.Java

open Lineage.Text

/-- The source with a comment put in at a place. -/
def insertComment (place : Nat) (source : List Char) : List Char :=
  source.take place ++ (comment ++ source.drop place)

/-- A source whose pieces are known, and the same source with a comment before one of its blanks. -/
structure Inserted (left : List Char) (c : Char) (right : List Char)
    (front front' back : List Piece) : Prop where
  blank : isBlank c = true
  isLeft : sourceOf front = left
  isRight : sourceOf back = right
  whole : pieces (left ++ c :: right) = front ++ .code c :: back
  whole' : pieces (left ++ (comment ++ c :: right)) = front' ++ .code c :: back
  commented : Commented front front'
  noSlash : front.getLast? ≠ some (.code '/')

/-- A blank of code is found among the pieces of its source, and a comment is put there. -/
theorem exists_inserted {source : List Char} {place : Nat} {c : Char}
    (here : source[place]? = some c)
    (blank : isBlank c = true) (code : inSpan (literalSpans source) place = false)
    (noSlash : ∀ before, place = before + 1 → source[before]? = some '/' →
      inSpan (literalSpans source) before = true) :
    ∃ left right front front' back, source = left ++ c :: right ∧ place = left.length ∧
      Inserted left c right front front' back := by
  -- The place in the source is one of its pieces, since the blank is code.
  obtain ⟨within, isHere⟩ := List.getElem?_eq_some_iff.mp here
  have split : source.take place ++ c :: source.drop (place + 1) = source := by
    rw [← isHere, ← List.drop_eq_getElem_cons, List.take_append_drop]
  obtain ⟨front, d, back, whole, sized⟩ := (codeAt_iff within).mpr code
  have parts : sourceOf front ++ d :: sourceOf back = source.take place ++ c ::
      source.drop (place + 1) := by
    rw [split, ← sourceOf_pieces source, whole]
    simp [Piece.source]
  obtain ⟨isLeft, behind⟩ := List.append_inj parts (by rw [sized, List.length_take]; omega)
  obtain ⟨rfl, isRight⟩ := List.cons.inj behind
  -- A slash at the end of the pieces before it would be the character before it.
  have apart : front.getLast? ≠ some (.code '/') := by
    intro isLast
    obtain ⟨init, rfl⟩ := List.getLast?_eq_some_iff.mp isLast
    have isCode : CodeAt source (sourceOf init).length :=
      ⟨init, '/', .code d :: back, by simp [whole], rfl⟩
    have isSlash : source[(sourceOf init).length]? = some '/' := by
      rw [← sourceOf_pieces source, whole]
      simp [Piece.source]
    have next : place = (sourceOf init).length + 1 := by
      rw [← sized]
      simp [Piece.source]
    rw [codeAt_iff (by omega), noSlash _ next isSlash] at isCode
    cases isCode
  have isSource : source = sourceOf front ++ d :: sourceOf back := by rw [← split, isLeft, isRight]
  obtain ⟨front', commented, lexed⟩ :=
    (whole ▸ lexed_pieces source : Lexed source _).insert blank apart
  exact ⟨_, _, front, front', back, isSource, sized.symm, blank, rfl,
    rfl, by rw [← isSource]; exact whole, lexed.eq_pieces, commented, apart⟩

/-- What is behind a brace of the source, before and after the comment was put in. -/
inductive Carried (left : List Char) (c : Char) (right : List Char) :
    List Char → List Char → Prop where
  | within {lead inner : List Char} : left = lead ++ '{' :: inner →
    Carried left c right (inner ++ c :: right) (inner ++ (comment ++ c :: right))
  | behind {rest : List Char} : rest <:+ right → Carried left c right rest rest

section Carried

variable {left right : List Char} {c : Char}

/-- More of the source is more after the comment was put in. -/
theorem Carried.length_le {one one' other other' : List Char}
    (carried : Carried left c right one one') (carriedOther : Carried left c right other other')
    (longer : one.length ≤ other.length) :
    one'.length ≤ other'.length := by
  -- What does not reach over the blank is shorter than what does, with the comment and without it.
  have bound : ∀ {rest : List Char}, rest <:+ right → rest.length ≤ right.length :=
    fun isSuffix => isSuffix.length_le
  cases carried with
  | within =>
    cases carriedOther with
    | within =>
      simp only [List.length_append, List.length_cons] at longer ⊢
      omega
    | behind isSuffix =>
      have := bound isSuffix
      simp only [List.length_append, List.length_cons] at longer ⊢
      omega
  | behind isSuffix =>
    cases carriedOther with
    | within =>
      have := bound isSuffix
      simp only [List.length_append, List.length_cons] at longer ⊢
      omega
    | behind => exact longer

variable {front front' back : List Piece} {kind : Kind} {name : List Char}

/-- With the comment inserted, code before it stays and code behind it is shifted. -/
theorem Inserted.isCode_iff (inserted : Inserted left c right front front' back) {position : Nat} :
    CodeAt (left ++ (comment ++ c :: right)) position ↔
      position < left.length ∧ CodeAt (left ++ c :: right) position ∨
        ∃ earlier, left.length ≤ earlier ∧ position = earlier + comment.length ∧
          CodeAt (left ++ c :: right) earlier := by
  rw [codeAt_comment inserted.whole inserted.whole' inserted.commented, inserted.isLeft]

/-- Whether a text ends with a word that stands by itself. -/
def EndsWith (word text : List Char) : Prop :=
  word <:+ text ∧ MayPrecede (text.take (text.length - word.length)).getLast?

instance decidableEndsWith (word text : List Char) : Decidable (EndsWith word text) :=
  inferInstanceAs (Decidable (_ ∧ _ = false))

/-- The word for the kind of a type stands before a text, and its name at the front of another. -/
def Splits (kind : Kind) (name left right : List Char) : Prop :=
  EndsWith (keywordOf kind) (trimEnd left) ∧ (trimStart right).takeWhile isNameChar = name

instance decidableSplits (kind : Kind) (name left right : List Char) :
    Decidable (Splits kind name left right) :=
  inferInstanceAs (Decidable (_ ∧ _))

/-- A blank between the words of an announcement has the first of them before it and the second
behind it. -/
theorem Opens.splits {source before lead more gap rest : List Char}
    (opens : Opens source kind name before (lead ++ c :: more) gap rest)
    (isLeft : left = before ++ (keywordOf kind ++ lead))
    (isRight : right = more ++ (name ++ (gap ++ '{' :: rest))) (nonempty : name ≠ [])
    (named : ∀ d ∈ name, isNameChar d = true) : Splits kind name left (c :: right) := by
  have allBlank := opens.allBlank
  rw [List.forall_mem_append] at allBlank
  constructor
  · have last : (before ++ keywordOf kind).getLast?.any isBlank = false := by
      obtain ⟨d, isLast⟩ :=
        Option.isSome_iff_exists.mp (List.getLast?_isSome.mpr (keywordOf_ne_nil kind))
      have letter := isNameChar_keywordOf kind d (List.mem_of_getLast? isLast)
      simp [List.getLast?_append, isLast, isBlank_of_isNameChar letter]
    -- Without the blanks the text ends with the word, which nothing before it goes on with.
    rw [isLeft, ← List.append_assoc, trimEnd_append allBlank.1 last]
    refine ⟨List.suffix_append before _, ?_⟩
    rw [List.take_left' (by simp)]
    exact opens.started
  · have first : (name ++ (gap ++ '{' :: rest)).head?.any isBlank = false := by
      obtain ⟨d, word, rfl⟩ := List.exists_cons_of_ne_nil nonempty
      exact isBlank_of_isNameChar (named d List.mem_cons_self)
    -- The name ends where the header goes on with something else than a letter.
    have stops : (gap ++ '{' :: rest).takeWhile isNameChar = [] := by
      have ended := opens.ended
      cases behind : gap ++ '{' :: rest with
      | nil => rfl
      | cons d behind' =>
        rw [behind] at ended
        simpa using ended
    rw [isRight, ← List.cons_append, trimStart_append allBlank.2 first,
      List.takeWhile_append_of_pos named, stops, List.append_nil]

/-- An announcement that begins before the blank begins in code just as it did before. -/
theorem Inserted.isCode_before (inserted : Inserted left c right front front' back)
    {before tail : List Char} (isLeft : left = before ++ (keywordOf kind ++ tail)) :
    CodeAt (left ++ (comment ++ c :: right)) before.length ↔ CodeAt
      (left ++ c :: right) before.length := by
  -- The keyword takes room, so it begins before the comment.
  have earlier : before.length < left.length := by
    have := List.length_pos_iff.mpr (keywordOf_ne_nil kind)
    rw [isLeft, List.length_append, List.length_append]
    omega
  rw [inserted.isCode_iff]
  constructor
  · rintro (⟨_, code⟩ | ⟨behind, late, same, _⟩)
    · exact code
    · omega
  · exact fun code => Or.inl ⟨earlier, code⟩

/-- Where a type is announced, it is announced after the comment was put in, unless the comment
comes between the word for its kind and its name. -/
theorem Inserted.opens (inserted : Inserted left c right front front' back) (nonempty : name ≠ [])
    (named : ∀ d ∈ name, isNameChar d = true) (apart : ¬ Splits kind name left (c :: right))
    {before blanks gap rest : List Char}
    (opens : Opens (left ++ c :: right) kind name before blanks gap rest) :
    ∃ before' gap' rest', Carried left c right rest rest' ∧
      Opens (left ++ (comment ++ c :: right)) kind name before' blanks gap' rest' := by
  have blank := inserted.blank
  have notBrace : c ≠ '{' := ne_of_class blank (by decide)
  rcases opens.located named (isNameChar_of_isBlank blank) notBrace with ⟨more, rfl, isRight⟩ |
    ⟨lead, more, rfl, isLeft, isRight⟩ | ⟨lead, more, rfl, isLeft, isRight⟩ | ⟨inner, rfl, isLead⟩
  · -- The announcement moves with all that stands behind the blank.
    refine ⟨left ++ (comment ++ c :: more), gap, rest, .behind ?_, ?_, ?_, ?_, opens.someBlanks,
      opens.allBlank, opens.ended, opens.header⟩
    · rw [isRight]
      exact ⟨more ++ (keywordOf kind ++ (blanks ++ (name ++ (gap ++ ['{'])))), by simp⟩
    · rw [isRight]
      simp
    · refine inserted.isCode_iff.mpr (Or.inr ⟨_, ?_, ?_, opens.code⟩)
      · simp
      · simp only [List.length_append, List.length_cons]
        omega
    · have started := opens.started
      rw [List.getLast?_append_cons] at started
      rw [← List.append_assoc, List.getLast?_append_cons]
      exact started
  · exact absurd (opens.splits isLeft isRight nonempty named) apart
  · -- Behind the name anything may come that does not end the header.
    refine ⟨before, lead ++ (comment ++ c :: more), rest,
      .behind ⟨more ++ ['{'], by rw [isRight]; simp⟩, ?_, (inserted.isCode_before isLeft).mpr
      opens.code, opens.started, opens.someBlanks, opens.allBlank, ?_, ?_⟩
    · rw [isLeft, isRight]
      simp
    · cases lead with
      | nil => rfl
      | cons d lead => exact opens.ended
    · have plain : ∀ d ∈ comment, Reader.InHeader d := by unfold Reader.InHeader; decide
      have header := opens.header
      simp only [List.forall_mem_append] at header ⊢
      exact ⟨header.1, plain, header.2⟩
  · have isLeft : left = before ++
      (keywordOf kind ++ (blanks ++ (name ++ gap) ++ '{' :: inner)) := by simp [isLead]
    exact ⟨before, gap, _, .within isLead, by simp [isLead],
      (inserted.isCode_before isLeft).mpr opens.code, opens.started, opens.someBlanks,
      opens.allBlank, opens.ended_before _, opens.header⟩

/-- An announcement that comes behind the slash of the comment comes behind the blank, where it was
announced before. -/
theorem Inserted.opens_behind (inserted : Inserted left c right front front' back)
    {more blanks gap rest : List Char}
    (opens :
      Opens (left ++ (comment ++ c :: right)) kind name (left ++ '/' :: more) blanks gap rest)
    (behind : comment.tail ++ c :: right = more ++
      (keywordOf kind ++ (blanks ++ (name ++ (gap ++ '{' :: rest))))) :
    ∃ later, right = later ++ (keywordOf kind ++ (blanks ++ (name ++ (gap ++ '{' :: rest)))) ∧
      Opens (left ++ c :: right) kind name (left ++ c :: later) blanks gap rest := by
  -- The announcement begins in code, so it does not begin within the comment.
  obtain ⟨earlier, late, sized, isCode⟩ : ∃ earlier, left.length ≤ earlier ∧
      (left ++ '/' :: more).length = earlier + comment.length ∧
        CodeAt (left ++ c :: right) earlier := by
    rcases inserted.isCode_iff.mp opens.code with ⟨early, _⟩ | later
    · rw [List.length_append] at early
      omega
    · exact later
  have longer : comment.length = comment.tail.length + 1 := rfl
  rw [List.length_append, List.length_cons] at sized
  obtain ⟨d, word, isKeyword, _⟩ := keywordOf_eq_cons kind
  rw [isKeyword, List.cons_append] at behind
  rcases append_cons_cases behind with ⟨later, rfl, isRight⟩ | ⟨_, rfl, _⟩ | ⟨later, isTail, _⟩
  · rw [← List.cons_append, ← isKeyword] at isRight
    refine ⟨later, isRight, ?_, ?_, ?_, opens.someBlanks, opens.allBlank, opens.ended, opens.header⟩
    · rw [isRight]
      simp
    · have isEarlier : (left ++ c :: later).length = earlier := by
        simp only [List.length_append, List.length_cons] at sized ⊢
        omega
      rw [isEarlier]
      exact isCode
    · -- The character before the announcement is the blank or stands behind it.
      have started := opens.started
      rw [← List.cons_append, ← List.append_assoc, List.getLast?_append_cons] at started
      rw [List.getLast?_append_cons]
      exact started
  · -- The blank is no letter of the first word.
    have letter : isNameChar c = true :=
      isNameChar_keywordOf kind c (by rw [isKeyword]; exact List.mem_cons_self)
    rw [isNameChar_of_isBlank inserted.blank] at letter
    cases letter
  · rw [isTail, List.length_append, List.length_cons] at longer
    omega

/-- Where a type is announced after the comment was put in, it was announced before. -/
theorem Inserted.opens_of_opens (inserted : Inserted left c right front front' back)
    (named : ∀ d ∈ name, isNameChar d = true) {before blanks gap rest' : List Char}
    (opens : Opens (left ++ (comment ++ c :: right)) kind name before blanks gap rest') :
    ∃ before' gap' rest, Carried left c right rest rest' ∧
      Opens (left ++ c :: right) kind name before' blanks gap' rest := by
  have blank := inserted.blank
  -- The slash that begins the comment tells where the comment stands.
  have slashed : Opens (left ++ '/' :: (comment.tail ++ c :: right)) kind name before blanks gap
    rest' := opens
  rcases slashed.located named (by decide) (by decide) with ⟨more, rfl, behind⟩ |
    ⟨lead, more, rfl, _, _⟩ | ⟨lead, more, rfl, isLeft, behind⟩ | ⟨inner, rfl, isLead⟩
  · obtain ⟨later, isRight, opensHere⟩ := inserted.opens_behind opens behind
    refine ⟨left ++ c :: later, gap, rest', .behind ?_, opensHere⟩
    rw [isRight]
    exact ⟨later ++ (keywordOf kind ++ (blanks ++ (name ++ (gap ++ ['{'])))), by simp⟩
  · -- A slash is no blank.
    have notBlank := opens.allBlank '/' (by simp)
    cases notBlank
  · -- The comment has no brace, so all of it comes before the one that opens the body.
    obtain ⟨later, rfl, isRight⟩ := brace_behind (by decide) behind
    cases later with
    | nil =>
      obtain ⟨rfl, _⟩ := List.cons.inj isRight
      cases blank
    | cons e later =>
      obtain ⟨rfl, rfl⟩ := List.cons.inj isRight
      refine ⟨before, lead ++ c :: later, rest', .behind ⟨later ++ ['{'], by simp⟩, ?_,
        (inserted.isCode_before isLeft).mp opens.code, opens.started, opens.someBlanks,
          opens.allBlank, ?_, ?_⟩
      · rw [isLeft]
        simp
      · cases lead with
        | nil => exact isNameChar_of_isBlank blank
        | cons e lead => exact opens.ended
      · have header := opens.header
        simp only [List.forall_mem_append, List.forall_mem_cons] at header ⊢
        exact ⟨header.1, header.2.2.2⟩
  · have isLeft : left = before ++
      (keywordOf kind ++ (blanks ++ (name ++ gap) ++ '{' :: inner)) := by simp [isLead]
    exact ⟨before, gap, _, .within isLead, by simp [isLead],
      (inserted.isCode_before isLeft).mp opens.code, opens.started, opens.someBlanks,
      opens.allBlank, opens.ended_before _, opens.header⟩

/-- What follows the first opening of a type is carried over, unless the comment comes between the
word for its kind and its name. -/
theorem Inserted.first_carried (inserted : Inserted left c right front front' back)
    (nonempty : name ≠ []) (named : ∀ d ∈ name, isNameChar d = true)
    (apart : ¬ Splits kind name left (c :: right)) :
    Option.Rel (fun found found' => Carried left c right found.after.rest found'.after.rest)
      ((Reader.openingInCode (literalSpans (left ++ c :: right)) kind name).first
        (left ++ c :: right))
      ((Reader.openingInCode (literalSpans (left ++ (comment ++ c :: right))) kind name).first
        (left ++ (comment ++ c :: right))) := by
  cases first : (Reader.openingInCode (literalSpans (left ++ c :: right)) kind name).first
    (left ++ c :: right) with
  | none =>
    cases first' :
      (Reader.openingInCode (literalSpans (left ++ (comment ++ c :: right))) kind name).first
        (left ++ (comment ++ c :: right)) with
    | none => exact .none
    | some found' =>
      obtain ⟨⟨_, _, _, opens'⟩, _⟩ := opens_of_first_some named first'
      obtain ⟨_, _, _, _, opens⟩ := inserted.opens_of_opens named opens'
      exact absurd opens (not_opens_of_first_none named first _ _ _ _)
  | some found =>
    obtain ⟨⟨_, _, _, opens⟩, _, most⟩ := opens_of_first_some named first
    obtain ⟨_, _, rest', carried, opensThere⟩ := inserted.opens nonempty named apart opens
    cases first' :
      (Reader.openingInCode (literalSpans (left ++ (comment ++ c :: right))) kind name).first
        (left ++ (comment ++ c :: right)) with
    | none => exact absurd opensThere (not_opens_of_first_none named first' _ _ _ _)
    | some found' =>
      obtain ⟨⟨_, _, _, opens'⟩, _, most'⟩ := opens_of_first_some named first'
      obtain ⟨_, _, rest, carriedBack, opensHere⟩ := inserted.opens_of_opens named opens'
      -- The first opening of either source stems from one of the other, and this one is not before
      -- the first there.
      have longer := carriedBack.length_le carried (most _ _ _ _ opensHere)
      have shorter := most' _ _ _ _ opensThere
      have isRest : found'.after.rest = rest' :=
        (List.suffix_of_suffix_length_le opens'.rest_suffix opensThere.rest_suffix
          longer).eq_of_length (by omega)
      rw [← isRest] at carried
      exact .some carried

/-- A comment in a text is passed over on the way to the brace that closes the body. -/
theorem bodyLength?_comment (blank : isBlank c = true) (inner right : List Char) :
    Option.Rel (fun length length' =>
      length ≤ inner.length ∧ length' = length ∨
        ∃ more, length = inner.length + (more + 1) ∧ length' = inner.length +
          (comment.length + (more + 1)))
      (bodyLength? 0 (inner ++ c :: right)) (bodyLength? 0 (inner ++ (comment ++ c :: right))) := by
  cases walked : depthAfter 0 inner with
  | none =>
    -- The body is closed before the comment.
    obtain ⟨length, bounded, ends⟩ := bodyLength?_of_closed walked
    rw [ends, ends]
    exact .some (Or.inl ⟨bounded, rfl⟩)
  | some depth =>
    -- Neither the comment nor the blank has a brace, so the walk goes on behind them as before.
    have braceless : depthAfter depth comment = some depth :=
      depthAfter_of_braceless (by decide) depth
    have passed : bodyLength? depth (c :: right) = (bodyLength? depth right).map (· + 1) := by
      have notOpen : ¬ (c == '{') = true := by simpa using (ne_of_class blank (by decide) : c ≠ '{')
      have notClose : ¬ (c == '}') = true := by
        simpa using (ne_of_class blank (by decide) : c ≠ '}')
      rw [bodyLength?_cons, if_neg notOpen, if_neg notClose]
    rw [bodyLength?_append walked, bodyLength?_append walked, bodyLength?_append braceless, passed]
    cases bodyLength? depth right with
    | none => exact .none
    | some more => exact .some (Or.inr ⟨more, by dsimp only; omega, by dsimp only; omega⟩)

/-- The text of a body that begins at some place, before and after the comment was put in: the same,
or with the comment in it. -/
inductive TextCarried (left : List Char) (c : Char) (right : List Char) (start : Nat) :
    List Char → List Char → Prop where
  | same {text : List Char} : TextCarried left c right start text text
  | within {lead inner more : List Char} : left = lead ++ '{' :: inner → start = lead.length + 1 →
    more <+: right →
    TextCarried left c right start (inner ++ c :: more) (inner ++ (comment ++ c :: more))

/-- The body of a type is carried over, unless the comment comes between the word for its kind and
its name. -/
theorem Inserted.body?_carried (inserted : Inserted left c right front front' back)
    (nonempty : name ≠ []) (named : ∀ d ∈ name, isNameChar d = true)
    (apart : ¬ Splits kind name left (c :: right)) :
    Option.Rel (fun body body' => TextCarried left c right body.start body.text body'.text)
      (body? (left ++ c :: right) kind name)
      (body? (left ++ (comment ++ c :: right)) kind name) := by
  rw [body?_eq, body?_eq]
  rcases rel_cases (inserted.first_carried nonempty named apart) with ⟨first, first'⟩ |
    ⟨found, found', first, first', carried⟩
  · rw [first, first']
    exact .none
  obtain ⟨_, sized, _⟩ := opens_of_first_some named first
  rw [first, first']
  simp only [Option.bind_some]
  generalize found.after.rest = rest at carried sized ⊢
  generalize found'.after.rest = rest' at carried ⊢
  cases carried with
  | behind _ =>
    -- The same text follows both openings.
    cases bodyLength? 0 rest with
    | none => exact .none
    | some length => exact .some .same
  | @within lead inner isLead =>
    rcases rel_cases (bodyLength?_comment inserted.blank inner right) with ⟨unclosed, unclosed'⟩ |
      ⟨length, length', closed, closed', ends⟩
    · rw [unclosed, unclosed']
      exact .none
    rw [closed, closed']
    refine .some ?_
    dsimp only
    rcases ends with ⟨bounded, rfl⟩ | ⟨more, rfl, rfl⟩
    · -- The body ends before the comment.
      rw [List.take_append_of_le_length bounded, List.take_append_of_le_length bounded]
      exact .same
    · have isStart : found.after.offset = lead.length + 1 := by
        simp only [isLead, List.length_append, List.length_cons] at sized
        omega
      rw [List.take_length_add_append, List.take_length_add_append, List.take_length_add_append,
        List.take_succ_cons]
      exact .within isLead isStart (List.take_prefix more right)

/-- The pieces behind a brace of code and before the blank make up the text between them. -/
theorem Inserted.exists_inner (inserted : Inserted left c right front front' back)
    {lead inner : List Char} (isLead : left = lead ++ '{' :: inner)
    (code : CodeAt (left ++ c :: right) lead.length) :
    ∃ outer row, front = outer ++ row ∧ sourceOf row = inner := by
  obtain ⟨outer, d, behind, whole, sized⟩ := code
  have longer : lead.length < (sourceOf front).length := by
    rw [inserted.isLeft, isLead]
    simp
  rcases append_cons_cases (inserted.whole.symm.trans whole) with ⟨more, rfl, _⟩ | ⟨rfl, _, _⟩
    | ⟨row, isFront, _⟩
  -- The brace stands before the blank, so its piece is one of those before the blank.
  · rw [sourceOf_append, List.length_append] at sized
    omega
  · omega
  · refine ⟨outer ++ [.code d], row, by simp [isFront], ?_⟩
    have split : sourceOf outer ++ d :: sourceOf row = lead ++ '{' :: inner := by
      rw [← isLead, ← inserted.isLeft, isFront]
      simp [Piece.source]
    exact (List.cons.inj (List.append_inj split sized).2).2

end Carried

end Lineage.Java
