import Lineage.Page
import Lineage.Proofs.Text.Blank
import Mathlib.Data.List.Induction

/-! How a page is read inside a script: where the script ends, and what in its text can put the end
off. -/

namespace Lineage.Page

section States

/-- How deep the text of a script is escaped. Between `<!--` and `-->` it is escaped, and behind a
start tag of a script in there it is escaped doubly, so that the next end tag undoes only that. -/
inductive Depth where
  | plain
  | escaped
  | doubled
  deriving DecidableEq, Repr

/-- The states in which the standard of the language of pages reads the text of a script. -/
inductive Scanning where
  /-- Nothing is under way. -/
  | text (depth : Depth)
  /-- One dash has come in escaped text. -/
  | dash (depth : Depth)
  /-- At least two dashes have come in escaped text. -/
  | dashes (depth : Depth)
  /-- A `<` has come. -/
  | less (depth : Depth)
  /-- A `</` has come where an end tag counts. -/
  | endTagOpen (depth : Depth)
  /-- A `</` and letters have come where an end tag counts. -/
  | endTagName (depth : Depth) (name : List Char)
  /-- A `<!` has come in plain text. -/
  | escapeStart
  /-- A `<!-` has come in plain text. -/
  | escapeStartDash
  /-- A `<` and letters have come in escaped text. -/
  | doubleEscapeStart (name : List Char)
  /-- A `</` and perhaps letters have come in doubly escaped text. -/
  | doubleEscapeEnd (name : List Char)
  /-- The name of an end tag of the script has come. -/
  | closed
  deriving DecidableEq, Repr

/-- The name of the element, in which capital and small letters are not told apart. -/
def scriptName : List Char :=
  ['s', 'c', 'r', 'i', 'p', 't']

/-- The characters that end the name of a tag. -/
def endsName (c : Char) : Bool :=
  ['\t', '\n', '\x0c', ' ', '/', '>'].contains c

namespace Scanning

/-- A character that continues nothing begins something new or is text. -/
def fresh (depth : Depth) (c : Char) : Scanning :=
  if c = '<' then .less depth
  else if c = '-' ∧ depth ≠ .plain then .dash depth
  else .text depth

/-- One more character is read. What it does not continue is taken as text, and the character is
read afresh. -/
def step : Scanning → Char → Scanning
  | .text depth, c => fresh depth c
  | .dash depth, c => if c = '-' then .dashes depth else fresh depth c
  | .dashes depth, c =>
    if c = '-' then .dashes depth else if c = '>' then .text .plain else fresh depth c
  | .less .plain, c =>
    if c = '/' then .endTagOpen .plain else if c = '!' then .escapeStart else fresh .plain c
  | .less .escaped, c =>
    if c = '/' then .endTagOpen .escaped
    else if c.isAlpha then .doubleEscapeStart [c.toLower]
    else fresh .escaped c
  | .less .doubled, c => if c = '/' then .doubleEscapeEnd [] else fresh .doubled c
  | .endTagOpen depth, c => if c.isAlpha then .endTagName depth [c.toLower] else fresh depth c
  | .endTagName depth name, c =>
    if endsName c ∧ name = scriptName then .closed
    else if c.isAlpha then .endTagName depth (name ++ [c.toLower])
    else fresh depth c
  | .escapeStart, c => if c = '-' then .escapeStartDash else fresh .plain c
  | .escapeStartDash, c => if c = '-' then .dashes .escaped else fresh .plain c
  | .doubleEscapeStart name, c =>
    if endsName c then .text (if name = scriptName then .doubled else .escaped)
    else if c.isAlpha then .doubleEscapeStart (name ++ [c.toLower])
    else fresh .escaped c
  | .doubleEscapeEnd name, c =>
    if endsName c then .text (if name = scriptName then .escaped else .doubled)
    else if c.isAlpha then .doubleEscapeEnd (name ++ [c.toLower])
    else fresh .doubled c
  | .closed, _ => .closed

/-- The state in which a text is left. -/
def run (state : Scanning) (text : List Char) : Scanning :=
  text.foldl step state

/-- What follows the end tag that ends a script: its name and the character that ends the name. A
page may end first. -/
def behindEndTag : Scanning → List Char → Option (List Char)
  | .closed, rest => some rest
  | _, [] => none
  | state, c :: rest => behindEndTag (state.step c) rest

/-- How deep the text is escaped in a state. -/
def depth : Scanning → Depth
  | .text depth | .dash depth | .dashes depth | .less depth | .endTagOpen depth | .endTagName depth
    _ => depth
  | .escapeStart | .escapeStartDash | .closed => .plain
  | .doubleEscapeStart _ => .escaped
  | .doubleEscapeEnd _ => .doubled

/-- A text is read in parts, each from the state in which the one before it leaves the script. -/
theorem run_append (state : Scanning) (text rest : List Char) :
    state.run (text ++ rest) = (state.run text).run rest :=
  List.foldl_append

/-- A closed script stays closed. -/
theorem run_closed (text : List Char) : run .closed text = .closed := by
  induction text with
  | nil => rfl
  | cons c text ih => exact ih

/-- A text in which the script does not end is read first, and the rest from the state in which it
leaves the script. -/
theorem behindEndTag_append {state : Scanning} {text : List Char}
    (isOpen : state.run text ≠ .closed) (rest : List Char) :
    state.behindEndTag (text ++ rest) = (state.run text).behindEndTag rest := by
  induction text generalizing state with
  | nil => rfl
  | cons c text ih =>
    -- The script is not closed before the first character, since it would be closed at the end.
    have notClosed : state ≠ .closed := by
      rintro rfl
      exact isOpen (run_closed _)
    rw [List.cons_append, behindEndTag]
    · exact ih isOpen
    · exact notClosed

end Scanning

end States

variable {state : Scanning} {text name : List Char} {c a : Char}

section Endings

variable {last : Char}

/-- The last characters of texts agree, one by one. -/
theorem concat_suffix_concat (word : List Char) :
    word ++ [last] <:+ text ++ [c] ↔ last = c ∧ word <:+ text := by
  rw [List.suffix_concat_iff]
  constructor
  · rintro (empty | ⟨front, same, isSuffix⟩)
    · simp at empty
    · obtain ⟨rfl, sameLast⟩ := List.append_singleton_inj.1 same
      exact ⟨sameLast, isSuffix⟩
  · rintro ⟨rfl, isSuffix⟩
    exact Or.inr ⟨word, rfl, isSuffix⟩

@[simp] theorem pair_suffix_concat : [a, last] <:+ text ++ [c] ↔ last = c ∧ [a] <:+ text :=
  concat_suffix_concat [a]

@[simp] theorem triple_suffix_concat {b : Char} :
    [a, b, last] <:+ text ++ [c] ↔ last = c ∧ [a, b] <:+ text :=
  concat_suffix_concat [a, b]

/-- The last character of a text is in each of its endings. -/
theorem last_mem {d : Char} {word : List Char} (last : [c] <:+ text)
    (isSuffix : d :: word <:+ text) :
    c ∈ d :: word := by
  have within : [c] <:+ d :: word := List.suffix_of_suffix_length_le last isSuffix (by simp)
  exact within.subset List.mem_cons_self

end Endings

section Escapes

/-- The inside of an escape begins with two dashes and holds no `-->`, not even one that uses these
dashes. -/
structure Inside (text : List Char) : Prop where
  begins : ['-', '-'] <+: text
  unclosed : ¬ ['-', '-', '>'] <:+: text

/-- A text leaves a script escaped when a `<!--` in it is not closed. -/
def Escaped (text : List Char) : Prop :=
  ∃ before inside, text = before ++ '<' :: '!' :: inside ∧ Inside inside

/-- A text leaves a script escaped doubly when a `<!--` in it is not closed and has a start tag of a
script behind it, as far as the character that ends the name of the tag. -/
def DoublyEscaped (text : List Char) : Prop :=
  ∃ before inside, text = before ++ '<' :: '!' :: inside ∧ Inside inside ∧
    ∃ name mark, name.map Char.toLower = scriptName ∧ endsName mark = true ∧
      '<' :: name ++ [mark] <:+: inside

theorem DoublyEscaped.escaped (doubly : DoublyEscaped text) : Escaped text := by
  obtain ⟨before, inside, same, isInside, -⟩ := doubly
  exact ⟨before, inside, same, isInside⟩

/-- One more character begins an escape with its second dash, or leaves it open unless it closes
it. -/
theorem inside_concat :
    Inside (text ++ [c]) ↔ (text = ['-'] ∧ c = '-') ∨
      (Inside text ∧ ¬ (c = '>' ∧ ['-', '-'] <:+ text)) := by
  constructor
  · intro isInside
    rcases List.prefix_concat_iff.1 isInside.begins with same | begins
    · -- The text is no longer than the two dashes.
      obtain ⟨first, second⟩ :=
        List.append_singleton_inj.1 (show ['-'] ++ ['-'] = text ++ [c] from same)
      exact Or.inl ⟨first.symm, second.symm⟩
    · refine Or.inr ⟨⟨begins, fun closed => isInside.unclosed ?_⟩, fun closes =>
        isInside.unclosed ?_⟩
      · exact List.infix_concat_iff.2 (Or.inr closed)
      · exact List.infix_concat_iff.2 (Or.inl (triple_suffix_concat.2 ⟨closes.1.symm, closes.2⟩))
  · rintro (⟨rfl, rfl⟩ | ⟨isInside, stays⟩)
    · exact ⟨by decide, by decide⟩
    · refine ⟨isInside.begins.trans (List.prefix_append text [c]), fun closed => ?_⟩
      rcases List.infix_concat_iff.1 closed with last | earlier
      · obtain ⟨isClose, dashes⟩ := triple_suffix_concat.1 last
        exact stays ⟨isClose.symm, dashes⟩
      · exact isInside.unclosed earlier

/-- The last character of an escaped text is the last one inside the escape. -/
theorem exists_concat_of_inside {before inside : List Char}
    (same : text ++ [c] = before ++ '<' :: '!' :: inside) (isInside : Inside inside) :
    ∃ front, inside = front ++ [c] ∧ text = before ++ '<' :: '!' :: front := by
  -- What is inside begins with two dashes, so it has a last character.
  rcases List.eq_nil_or_concat inside with rfl | ⟨front, last, rfl⟩
  · exact absurd isInside.begins (by decide)
  · rw [List.concat_eq_append] at same ⊢
    have split : text ++ [c] = (before ++ '<' :: '!' :: front) ++ [last] := by simpa using same
    obtain ⟨sameFront, sameLast⟩ := List.append_singleton_inj.1 split
    exact ⟨front, by rw [sameLast], sameFront⟩

/-- The inside of an escape is long enough to hold the last two characters of the text. -/
theorem Inside.suffix {before inside : List Char} (isInside : Inside inside) {b : Char}
    (isSuffix : [a, b] <:+ before ++ '<' :: '!' :: inside) : [a, b] <:+ inside := by
  have insideLast : inside <:+ before ++ '<' :: '!' :: inside :=
    ⟨before ++ ['<', '!'], by simp⟩
  exact List.suffix_of_suffix_length_le isSuffix insideLast isInside.begins.length_le

/-- One more character escapes a text with the second dash of `<!--`, or leaves it escaped unless it
ends a `-->`. -/
theorem escaped_concat :
    Escaped (text ++ [c]) ↔
      (c = '-' ∧ ['<', '!', '-'] <:+ text) ∨
      (Escaped text ∧ ¬ (c = '>' ∧ ['-', '-'] <:+ text)) := by
  -- The last character opens the comment, or it is one inside and does not close it.
  constructor
  · rintro ⟨before, inside, same, isInside⟩
    obtain ⟨front, rfl, rfl⟩ := exists_concat_of_inside same isInside
    rcases inside_concat.1 isInside with ⟨rfl, isDash⟩ | ⟨wasInside, stays⟩
    · exact Or.inl ⟨isDash, before, rfl⟩
    · refine Or.inr ⟨⟨before, front, rfl, wasInside⟩, fun closes => stays ⟨closes.1, ?_⟩⟩
      exact wasInside.suffix closes.2
  · rintro (⟨rfl, before, rfl⟩ | ⟨⟨before, inside, rfl, isInside⟩, stays⟩)
    · exact ⟨before, ['-', '-'], by simp, by decide, by decide⟩
    · refine ⟨before, inside ++ [c], by simp,
        inside_concat.2 (Or.inr ⟨isInside, fun closes => stays ⟨closes.1, ?_⟩⟩)⟩
      exact closes.2.trans ⟨before ++ ['<', '!'], by simp⟩

/-- A text ends in a `<` and the name of a script. -/
def EndsInScript (text : List Char) : Prop :=
  ∃ name, name.map Char.toLower = scriptName ∧ '<' :: name <:+ text

/-- The characters in the name of a script are its letters. -/
theorem toLower_mem_scriptName (isScript : name.map Char.toLower = scriptName) (mem : c ∈ name) :
    c.toLower ∈ scriptName := by
  rw [← isScript]
  exact List.mem_map_of_mem mem

/-- One more character escapes a text doubly if it ends the name in a start tag of a script, or
leaves it so unless it ends a `-->`. -/
theorem doublyEscaped_concat :
    DoublyEscaped (text ++ [c]) ↔
      (endsName c = true ∧ Escaped text ∧ EndsInScript text) ∨
        (DoublyEscaped text ∧ ¬ (c = '>' ∧ ['-', '-'] <:+ text)) := by
  constructor
  · rintro ⟨before, inside, same, isInside, name, mark, isScript, ends, opens⟩
    obtain ⟨front, rfl, rfl⟩ := exists_concat_of_inside same isInside
    rcases inside_concat.1 isInside with ⟨rfl, rfl⟩ | ⟨wasInside, stays⟩
    · -- No tag fits into the two dashes.
      have dashes : ∀ d ∈ ['-'] ++ ['-'], d = '-' := by decide
      exact absurd (dashes '<' (opens.subset List.mem_cons_self)) (by decide)
    · rcases List.infix_concat_iff.1 opens with last | earlier
      · obtain ⟨rfl, opensAtEnd⟩ := (concat_suffix_concat _).1 last
        refine Or.inl ⟨ends, ⟨before, front, rfl, wasInside⟩, name, isScript, ?_⟩
        exact opensAtEnd.trans ⟨before ++ ['<', '!'], by simp⟩
      · refine Or.inr ⟨⟨before, front, rfl, wasInside, name, mark, isScript, ends, earlier⟩,
          fun closes => ?_⟩
        exact stays ⟨closes.1, wasInside.suffix closes.2⟩
  · rintro (⟨ends, ⟨before, inside, rfl, isInside⟩, name, isScript, opens⟩ |
      ⟨⟨before, inside, rfl, isInside, name, mark, isScript, ends, opens⟩, stays⟩)
    · have insideLast : inside <:+ before ++ '<' :: '!' :: inside := ⟨before ++ ['<', '!'], by simp⟩
      have noDash : '-' ∉ '<' :: name := by
        intro mem
        rcases List.mem_cons.1 mem with same | inName
        · exact absurd same (by decide)
        · exact absurd (toLower_mem_scriptName isScript inName) (by decide)
      have hasDash : '-' ∈ inside := isInside.begins.subset List.mem_cons_self
      -- The tag stands inside the escape, since it has no room for the dashes with which that
      -- begins.
      have opensInside : '<' :: name <:+ inside := by
        rcases List.suffix_or_suffix_of_suffix opens insideLast with tag | dashes
        · exact tag
        · exact absurd (dashes.subset hasDash) noDash
      have stays : ¬ (c = '>' ∧ ['-', '-'] <:+ inside) := by
        rintro ⟨-, dashes⟩
        have last : ['-'] <:+ inside := (List.suffix_cons '-' ['-']).trans dashes
        exact noDash (last_mem last opensInside)
      refine ⟨before, inside ++ [c], by simp, inside_concat.2 (Or.inr ⟨isInside, stays⟩), name, c,
        isScript, ends, ?_⟩
      exact List.infix_concat_iff.2 (Or.inl ((concat_suffix_concat _).2 ⟨rfl, opensInside⟩))
    · refine ⟨before, inside ++ [c], by simp,
        inside_concat.2 (Or.inr ⟨isInside, fun closes => stays ⟨closes.1, ?_⟩⟩), name, mark,
        isScript, ends, List.infix_concat_iff.2 (Or.inr opens)⟩
      exact closes.2.trans ⟨before ++ ['<', '!'], by simp⟩

end Escapes

section Tracking

/-- What is known of a text that leaves a script at a depth. -/
def Depth.Fits : Depth → List Char → Prop
  | .plain, text => ¬ Escaped text
  | .escaped, text => Escaped text ∧ ¬ DoublyEscaped text
  | .doubled, text => DoublyEscaped text

/-- A text ends in a `<` with nothing but letters behind it. -/
def EndsInName (text : List Char) : Prop :=
  ∃ name, (∀ c ∈ name, c.isAlpha = true) ∧ '<' :: name <:+ text

/-- What a state knows of the text that was read. No state of an end tag is reached as long as no
`</` comes. -/
def Scanning.Tracks (text : List Char) : Scanning → Prop
  | .text depth => depth.Fits text ∧ ¬ ['<'] <:+ text ∧
    (depth = .plain → ¬ ['<', '!'] <:+ text ∧ ¬ ['<', '!', '-'] <:+ text) ∧
    (depth ≠ .plain → ¬ ['-'] <:+ text) ∧ (depth = .escaped → ¬ EndsInName text)
  | .dash depth => depth ≠ .plain ∧ depth.Fits text ∧ ['-'] <:+ text ∧ ¬ ['-', '-'] <:+ text
  | .dashes depth => depth ≠ .plain ∧ depth.Fits text ∧ ['-', '-'] <:+ text
  | .less depth => depth.Fits text ∧ ['<'] <:+ text
  | .escapeStart => Depth.plain.Fits text ∧ ['<', '!'] <:+ text
  | .escapeStartDash => Depth.plain.Fits text ∧ ['<', '!', '-'] <:+ text
  | .doubleEscapeStart name => Depth.escaped.Fits text ∧ ∃ c letters,
    (∀ d ∈ c :: letters, d.isAlpha = true) ∧
    (c :: letters).map Char.toLower = name ∧ '<' :: c :: letters <:+ text
  | .endTagOpen _ | .endTagName _ _ | .doubleEscapeEnd _ | .closed => False

variable {depth : Depth}

/-- A text at a depth stays there unless one more character begins an escape, ends it or ends the
name of a script. -/
theorem Depth.Fits.concat (fits : depth.Fits text)
    (opens : depth = .plain → ¬ (c = '-' ∧ ['<', '!', '-'] <:+ text))
    (closes : depth ≠ .plain → ¬ (c = '>' ∧ ['-', '-'] <:+ text))
    (names : depth = .escaped → ¬ (endsName c = true ∧ EndsInScript text)) :
    depth.Fits (text ++ [c]) := by
  cases depth with
  | plain =>
    intro escaped
    rcases escaped_concat.1 escaped with begins | ⟨already, -⟩
    · exact opens rfl begins
    · exact fits already
  | escaped =>
    -- The escape goes on, and only the end of the name of a script could double it.
    refine ⟨escaped_concat.2 (Or.inr ⟨fits.1, closes nofun⟩), fun doubly => ?_⟩
    rcases doublyEscaped_concat.1 doubly with ⟨ends, -, named⟩ | ⟨already, -⟩
    · exact names rfl ⟨ends, named⟩
    · exact fits.2 already
  | doubled => exact doublyEscaped_concat.2 (Or.inr ⟨fits, closes nofun⟩)

/-- Only a letter continues a name, and only a `<` begins one. -/
@[simp] theorem endsInName_concat :
    EndsInName (text ++ [c]) ↔ c = '<' ∨ (c.isAlpha = true ∧ EndsInName text) := by
  -- The last character is the bracket itself or one more letter of the name.
  constructor
  · rintro ⟨name, letters, isSuffix⟩
    rcases List.eq_nil_or_concat name with rfl | ⟨front, last, rfl⟩
    · exact Or.inl (List.singleton_suffix_append_singleton_iff.1 isSuffix).symm
    · rw [List.concat_eq_append] at letters isSuffix
      obtain ⟨rfl, begun⟩ := (concat_suffix_concat ('<' :: front)).1 isSuffix
      exact Or.inr ⟨letters last (by simp), front, fun d mem => letters d (by simp [mem]), begun⟩
  · rintro (rfl | ⟨isLetter, name, letters, begun⟩)
    · exact ⟨[], by simp, by simp⟩
    · refine ⟨name ++ [c], ?_, (concat_suffix_concat ('<' :: name)).2 ⟨rfl, begun⟩⟩
      exact List.forall_mem_append.2 ⟨letters, List.forall_mem_singleton.2 isLetter⟩

/-- The name of a script is made of letters. -/
theorem isAlpha_of_toLower_mem (mem : c.toLower ∈ scriptName) : c.isAlpha = true := by
  have letters : ∀ d ∈ scriptName, d.isAlpha = true := by decide
  unfold Char.toLower at mem
  split at mem
  · -- Only a capital letter is changed.
    rename_i capital
    exact Bool.or_eq_true_iff.2 (Or.inl (decide_eq_true capital))
  · exact letters c mem

theorem EndsInScript.endsInName (ends : EndsInScript text) : EndsInName text := by
  obtain ⟨name, isScript, isSuffix⟩ := ends
  exact ⟨name, fun c mem => isAlpha_of_toLower_mem (toLower_mem_scriptName isScript mem), isSuffix⟩

/-- A name of a script ends in a letter. -/
theorem EndsInScript.isAlpha (ends : EndsInScript (text ++ [c])) : c.isAlpha = true := by
  obtain ⟨name, isScript, isSuffix⟩ := ends
  rcases List.eq_nil_or_concat name with rfl | ⟨front, last, rfl⟩
  · exact absurd isScript (by decide)
  · rw [List.concat_eq_append] at isScript isSuffix
    obtain ⟨rfl, -⟩ := (concat_suffix_concat ('<' :: front)).1 isSuffix
    exact isAlpha_of_toLower_mem (toLower_mem_scriptName isScript (by simp))

/-- A character that is read afresh is tracked if it continues nothing. -/
theorem tracks_fresh (fits : depth.Fits (text ++ [c]))
    (mark : depth = .plain → ¬ (c = '!' ∧ ['<'] <:+ text) ∧ ¬ (c = '-' ∧ ['<', '!'] <:+ text))
    (dash : depth ≠ .plain → ¬ (c = '-' ∧ ['-'] <:+ text))
    (name : depth = .escaped → ¬ (c.isAlpha = true ∧ EndsInName text)) :
    (Scanning.fresh depth c).Tracks (text ++ [c]) := by
  unfold Scanning.fresh
  split
  · -- A `<` begins something new wherever it stands.
    rename_i isLess
    exact ⟨fits, by simp [isLess]⟩
  · rename_i notLess
    split
    · rename_i isDash
      refine ⟨isDash.2, fits, by simp [isDash.1], fun two => dash isDash.2 ⟨isDash.1, ?_⟩⟩
      exact (pair_suffix_concat.1 two).2
    · rename_i notDash
      refine ⟨fits, by simpa [eq_comm] using notLess, fun isPlain => ?_, fun notPlain isDash =>
        ?_, fun isEscaped ends => ?_⟩
      · obtain ⟨notBang, notBangDash⟩ := mark isPlain
        refine ⟨fun two => notBang ?_, fun three => notBangDash ?_⟩
        · obtain ⟨isBang, begun⟩ := pair_suffix_concat.1 two
          exact ⟨isBang.symm, begun⟩
        · obtain ⟨isDash, begun⟩ := triple_suffix_concat.1 three
          exact ⟨isDash.symm, begun⟩
      · exact notDash ⟨(List.singleton_suffix_append_singleton_iff.1 isDash).symm, notPlain⟩
      · exact (endsInName_concat.1 ends).elim notLess (name isEscaped)

/-- A letter does not end a name. -/
theorem endsName_of_isAlpha (isLetter : c.isAlpha = true) : endsName c = false := by
  have noLetters : ∀ d ∈ ['\t', '\n', '\x0c', ' ', '/', '>'], ¬ d.isAlpha = true := by decide
  refine Bool.eq_false_iff.2 fun ends => noLetters c ?_ isLetter
  exact List.contains_iff_mem.1 ends

/-- Names of tags that end a text are the same. -/
theorem name_unique {other : List Char} (letters : ∀ c ∈ name, c.isAlpha = true)
    (lettersOther : ∀ c ∈ other, c.isAlpha = true) (ends : '<' :: name <:+ text)
    (endsOther : '<' :: other <:+ text) : name = other := by
  -- Of two endings one ends the other, and the `<` of the shorter one is no letter of the longer
  -- one.
  have shorter : ∀ {short long : List Char}, (∀ c ∈ long, c.isAlpha = true) →
      '<' :: short <:+ '<' :: long →
        short = long := by
    intro short long isName isSuffix
    rcases List.suffix_cons_iff.1 isSuffix with same | within
    · exact (List.cons.inj same).2
    · exact absurd (isName '<' (within.subset List.mem_cons_self)) (by decide)
  rcases List.suffix_or_suffix_of_suffix ends endsOther with within | within
  · exact shorter lettersOther within
  · exact (shorter letters within).symm

/-- Behind a dash a text stays at its depth unless a second dash came before and the escape is
closed. -/
theorem Depth.Fits.concat_dash {front : List Char} (fits : depth.Fits (front ++ ['-']))
    (notPlain : depth ≠ .plain) (stays : ¬ (c = '>' ∧ ['-'] <:+ front)) :
    depth.Fits (front ++ ['-'] ++ [c]) := by
  refine fits.concat (fun isPlain => absurd isPlain notPlain) (fun _ closes => stays ⟨closes.1, ?_⟩)
    fun _ ends => ?_
  · exact (pair_suffix_concat.1 closes.2).2
  · -- No name ends in a dash.
    exact absurd ends.2.isAlpha (by decide)

/-- Behind one dash in escaped text. -/
theorem tracks_step_dash (tracks : (Scanning.dash depth).Tracks text) (c : Char) :
    ((Scanning.dash depth).step c).Tracks (text ++ [c]) := by
  obtain ⟨notPlain, fits, ⟨front, rfl⟩, notTwo⟩ := tracks
  -- One dash does not close an escape, so the text stays where it is whatever comes.
  have notBefore : ¬ ['-'] <:+ front := fun before => notTwo (pair_suffix_concat.2 ⟨rfl, before⟩)
  have fitsOn := fits.concat_dash notPlain (c := c) fun closes => notBefore closes.2
  rw [Scanning.step]
  split
  · rename_i isDash
    exact ⟨notPlain, fitsOn, by simp [isDash]⟩
  · rename_i notDash
    refine tracks_fresh fitsOn (fun isPlain => absurd isPlain notPlain)
      (fun _ dash => notDash dash.1) fun _ letter => ?_
    simp at letter

/-- Behind two or more dashes in escaped text, where a `>` ends every escape. -/
theorem tracks_step_dashes (tracks : (Scanning.dashes depth).Tracks text) (c : Char) :
    ((Scanning.dashes depth).step c).Tracks (text ++ [c]) := by
  obtain ⟨notPlain, fits, two⟩ := tracks
  obtain ⟨front, rfl⟩ : ['-'] <:+ text := (List.suffix_cons '-' ['-']).trans two
  rw [Scanning.step]
  split
  · rename_i isDash
    exact ⟨notPlain, fits.concat_dash notPlain (by simp [isDash]), by simp [isDash]⟩
  · rename_i notDash
    split
    · rename_i isClose
      subst isClose
      -- The text is plain again, even if it was escaped doubly.
      have unescaped : Depth.plain.Fits (front ++ ['-'] ++ ['>']) := by
        intro escaped
        rcases escaped_concat.1 escaped with begins | ⟨-, stays⟩
        · exact absurd begins.1 (by decide)
        · exact stays ⟨rfl, two⟩
      show (Scanning.fresh .plain '>').Tracks _
      exact tracks_fresh unescaped (by simp) (by simp) (by simp)
    · rename_i notClose
      have fitsOn := fits.concat_dash notPlain (c := c) fun closes => notClose closes.1
      refine tracks_fresh fitsOn (fun isPlain => absurd isPlain notPlain)
        (fun _ dash => notDash dash.1) fun _ letter => ?_
      simp at letter

/-- Behind a `<` a text stays at its depth. -/
theorem Depth.Fits.concat_less {front : List Char} (fits : depth.Fits (front ++ ['<'])) (c : Char) :
    depth.Fits (front ++ ['<'] ++ [c]) :=
  fits.concat (fun _ begins => by simp at begins) (fun _ closes => by simp at closes)
    fun _ ends => absurd ends.2.isAlpha (by decide)

/-- Behind a `<`, where a `!` may begin an escape and a letter the name of a tag. -/
theorem tracks_step_less (tracks : (Scanning.less depth).Tracks text) (notSlash : c ≠ '/') :
    ((Scanning.less depth).step c).Tracks (text ++ [c]) := by
  obtain ⟨fits, front, rfl⟩ := tracks
  have fitsOn := fits.concat_less c
  -- What a `<` can begin depends on how deep the text is escaped.
  cases depth with
  | plain =>
    rw [Scanning.step, if_neg notSlash]
    split
    · rename_i isBang
      exact ⟨fitsOn, by simp [isBang]⟩
    · rename_i notBang
      exact tracks_fresh fitsOn (fun _ => ⟨fun bang => notBang bang.1, by simp⟩) (by simp) (by simp)
  | escaped =>
    rw [Scanning.step, if_neg notSlash]
    split
    · rename_i isLetter
      exact ⟨fitsOn, c, [], by simpa using isLetter, rfl, by simp⟩
    · rename_i notLetter
      exact tracks_fresh fitsOn (by simp) (by simp) fun _ letter => notLetter letter.1
  | doubled =>
    rw [Scanning.step, if_neg notSlash]
    exact tracks_fresh fitsOn (by simp) (by simp) (by simp)

/-- Behind a `<!` in plain text. -/
theorem tracks_step_escapeStart (tracks : Scanning.escapeStart.Tracks text) (c : Char) :
    (Scanning.escapeStart.step c).Tracks (text ++ [c]) := by
  obtain ⟨fits, begun⟩ := tracks
  obtain ⟨front, rfl⟩ : ['!'] <:+ text := (List.suffix_cons '<' ['!']).trans begun
  -- Two dashes are missing, so that the next character begins no escape.
  have fitsOn : Depth.plain.Fits (front ++ ['!'] ++ [c]) :=
    fits.concat (by simp) (by simp) (by simp)
  rw [Scanning.step]
  split
  · rename_i isDash
    exact ⟨fitsOn, triple_suffix_concat.2 ⟨isDash.symm, begun⟩⟩
  · rename_i notDash
    exact tracks_fresh fitsOn (fun _ => ⟨by simp, fun dash => notDash dash.1⟩) (by simp) (by simp)

/-- Behind a `<!-` in plain text, where a second dash begins an escape. -/
theorem tracks_step_escapeStartDash (tracks : Scanning.escapeStartDash.Tracks text) (c : Char) :
    (Scanning.escapeStartDash.step c).Tracks (text ++ [c]) := by
  obtain ⟨fits, begun⟩ := tracks
  obtain ⟨front, rfl⟩ : ['-'] <:+ text := (List.suffix_append ['<', '!'] ['-']).trans begun
  rw [Scanning.step]
  split
  · rename_i isDash
    subst isDash
    refine ⟨by decide, ⟨escaped_concat.2 (Or.inl ⟨rfl, begun⟩), fun doubly => ?_⟩, by simp⟩
    -- Nothing was escaped before, and a dash ends no name.
    rcases doublyEscaped_concat.1 doubly with ⟨ends, -⟩ | ⟨already, -⟩
    · exact absurd ends (by decide)
    · exact fits already.escaped
  · rename_i notDash
    have fitsOn : Depth.plain.Fits (front ++ ['-'] ++ [c]) :=
      fits.concat (fun _ begins => notDash begins.1) (by simp) (by simp)
    exact tracks_fresh fitsOn (by simp) (by simp) (by simp)

/-- Behind the character that ends a name nothing is under way. -/
theorem tracks_text_of_endsName (ends : endsName c = true) (notPlain : depth ≠ .plain)
    (fits : depth.Fits (text ++ [c])) : (Scanning.text depth).Tracks (text ++ [c]) := by
  -- A character that ends a name is neither a bracket, a dash nor a letter.
  have notLess : c ≠ '<' := by
    rintro rfl
    exact absurd ends (by decide)
  have notDash : c ≠ '-' := by
    rintro rfl
    exact absurd ends (by decide)
  have notLetter : ¬ c.isAlpha = true := by
    intro isLetter
    rw [endsName_of_isAlpha isLetter] at ends
    exact absurd ends (by decide)
  have isFresh : Scanning.fresh depth c = .text depth := by simp [Scanning.fresh, notLess, notDash]
  rw [← isFresh]
  exact tracks_fresh fits (fun isPlain => absurd isPlain notPlain) (fun _ dash => notDash dash.1)
    fun _ letter => notLetter letter.1

/-- Behind a `<` and letters in escaped text, where the name of a script escapes the text doubly. -/
theorem tracks_step_doubleEscapeStart (tracks : (Scanning.doubleEscapeStart name).Tracks text)
    (c : Char) : ((Scanning.doubleEscapeStart name).step c).Tracks (text ++ [c]) := by
  obtain ⟨fits, first, letters, isName, rfl, begun⟩ := tracks
  -- The text ends in letters, so no escape is closed by the next character.
  have noDash : ¬ ['-'] <:+ text := by
    intro last
    rcases List.mem_cons.1 (last_mem last begun) with same | mem
    · exact absurd same (by decide)
    · exact absurd (isName '-' mem) (by decide)
  have noClose : ¬ (c = '>' ∧ ['-', '-'] <:+ text) :=
    fun closes => noDash ((List.suffix_cons '-' ['-']).trans closes.2)
  rw [Scanning.step]
  split
  · rename_i ends
    split
    · rename_i isScript
      refine tracks_text_of_endsName ends (by decide)
        (doublyEscaped_concat.2 (Or.inl ⟨ends, fits.1, ?_⟩))
      exact ⟨first :: letters, isScript, begun⟩
    · rename_i notScript
      refine tracks_text_of_endsName ends (by decide)
        (fits.concat (by simp) (fun _ => noClose) fun _ named => ?_)
      -- The name of a script at the end of the text would be the name that was read.
      obtain ⟨other, isScript, endsOther⟩ := named.2
      have lettersOther : ∀ d ∈ other, d.isAlpha = true :=
        fun d mem => isAlpha_of_toLower_mem (toLower_mem_scriptName isScript mem)
      rw [name_unique isName lettersOther begun endsOther] at notScript
      exact notScript isScript
  · rename_i stays
    have fitsOn : Depth.escaped.Fits (text ++ [c]) :=
      fits.concat (by simp) (fun _ => noClose) fun _ named => stays named.1
    split
    · rename_i isLetter
      refine ⟨fitsOn, first, letters ++ [c], ?_, by simp, ?_⟩
      · rw [← List.cons_append]
        exact List.forall_mem_append.2 ⟨isName, List.forall_mem_singleton.2 isLetter⟩
      · exact (concat_suffix_concat ('<' :: first :: letters)).2 ⟨rfl, begun⟩
    · rename_i notLetter
      exact tracks_fresh fitsOn (by simp) (fun _ dash => noDash dash.2) fun _ letter =>
        notLetter letter.1

/-- Each character that does not make a `</` is tracked. -/
theorem Scanning.Tracks.step (tracks : state.Tracks text) (noTag : ['<'] <:+ text → c ≠ '/') :
    (state.step c).Tracks (text ++ [c]) := by
  cases state with
  | text depth =>
    -- Nothing is under way that a character could complete.
    obtain ⟨fits, notLess, notMark, notDash, notName⟩ := tracks
    refine tracks_fresh (fits.concat ?_ ?_ ?_) ?_ ?_ ?_
    · exact fun isPlain begins => (notMark isPlain).2 begins.2
    · exact fun notPlain closes => notDash notPlain ((List.suffix_cons '-' ['-']).trans closes.2)
    · exact fun isEscaped ends => notName isEscaped ends.2.endsInName
    · exact fun isPlain => ⟨fun bang => notLess bang.2, fun dash => (notMark isPlain).1 dash.2⟩
    · exact fun notPlain dash => notDash notPlain dash.2
    · exact fun isEscaped letter => notName isEscaped letter.2
  | dash depth => exact tracks_step_dash tracks c
  | dashes depth => exact tracks_step_dashes tracks c
  | less depth => exact tracks_step_less tracks (noTag tracks.2)
  | escapeStart => exact tracks_step_escapeStart tracks c
  | escapeStartDash => exact tracks_step_escapeStartDash tracks c
  | doubleEscapeStart name => exact tracks_step_doubleEscapeStart tracks c
  | endTagOpen | endTagName | doubleEscapeEnd | closed => exact tracks.elim

/-- A text without a `</` is tracked from the beginning to its end. -/
theorem tracks_run (noTag : ¬ ['<', '/'] <:+: text) :
    (Scanning.run (.text .plain) text).Tracks text := by
  -- The induction takes characters from the end, where the step is made.
  induction text using List.reverseRecOn with
  | nil =>
    have unescaped : ¬ Escaped [] := by
      rintro ⟨before, inside, same, -⟩
      simp at same
    exact ⟨unescaped, by simp, by simp, by simp, by simp⟩
  | append_singleton text c ih =>
    have tracks := ih fun earlier => noTag (List.infix_concat_iff.2 (Or.inr earlier))
    rw [Scanning.run_append]
    refine tracks.step fun less isSlash => noTag (List.infix_concat_iff.2 (Or.inl ?_))
    exact pair_suffix_concat.2 ⟨isSlash.symm, less⟩

/-- The depth of a state is that of the text that was read. -/
theorem Scanning.Tracks.fits (tracks : state.Tracks text) : state.depth.Fits text := by
  cases state with
  | text | less | escapeStart | escapeStartDash | doubleEscapeStart => exact tracks.1
  | dash | dashes => exact tracks.2.1
  | endTagOpen | endTagName | doubleEscapeEnd | closed => exact tracks.elim

/-- A script is not closed while a text is tracked. -/
theorem Scanning.Tracks.ne_closed (tracks : state.Tracks text) : state ≠ .closed := by
  rintro rfl
  exact tracks

/-- A character that continues nothing leaves the text at its depth. -/
theorem Scanning.Tracks.step_semicolon (tracks : state.Tracks text) :
    state.step ';' = .text state.depth := by
  cases state with
  | less depth => cases depth <;> rfl
  -- A semicolon is no letter, ends no name and belongs to no mark.
  | text | dash | dashes | escapeStart | escapeStartDash | doubleEscapeStart => rfl
  | endTagOpen | endTagName | doubleEscapeEnd | closed => exact tracks.elim

/-- A text is read as doubly escaped just when it is. -/
theorem Depth.Fits.doubled_iff (fits : depth.Fits text) :
    depth = .doubled ↔ DoublyEscaped text := by
  cases depth with
  | plain => exact ⟨nofun, fun doubly => absurd doubly.escaped fits⟩
  | escaped => exact ⟨nofun, fun doubly => absurd doubly fits.2⟩
  | doubled => exact ⟨fun _ => fits, fun _ => rfl⟩

end Tracking

end Lineage.Page
