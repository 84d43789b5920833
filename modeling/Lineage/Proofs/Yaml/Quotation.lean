import Lineage.Proofs.Yaml.Plain
import Mathlib.Algebra.Group.Nat.Defs

/-! What a text written between quotes is read back as. -/

namespace Lineage.Yaml

open Lineage.Text

@[simp] theorem prepend_some (front text rest : List Char) :
    prepend front (some (text, rest)) = some (front ++ text, rest) :=
  rfl

/-- Two texts in front are one. -/
theorem prepend_prepend (front more : List Char) (read : Option (List Char × List Char)) :
    prepend front (prepend more read) = prepend (front ++ more) read := by
  cases read with
  | none => rfl
  | some read => simp [prepend]

/-- Spaces only prolong the pause. -/
theorem readQuotation_spaces (double : Bool) (pause : Pause) (count : Nat) (rest : List Char) :
    readQuotation double (.after pause) (List.replicate count ' ' ++ rest) =
      readQuotation double (.after (pause.spaces count)) rest := by
  induction count generalizing pause with
  | zero => rfl
  | succ count ih =>
    rw [List.replicate_succ, List.cons_append, readQuotation, if_pos (by decide), ih]
    rfl

variable {c letter : Char} {rest breaks : List Char} {indent : Nat} {pause : Pause}

/-- At a break the pause takes in another line, unless a document mark follows. -/
theorem readQuotation_break (breaks : isBreak c = true) (noMark : isMark rest = false)
    (double : Bool) (pause : Pause) :
    readQuotation double (.after pause) (c :: rest) = readQuotation double
      (.after (pause.lineEnd c)) rest := by
  have notSpace : c ≠ ' ' := ne_of_class breaks (by decide)
  have notTab : c ≠ '\t' := ne_of_class breaks (by decide)
  have notReturn : c ≠ '\r' := ne_of_class breaks (by decide)
  rw [readQuotation, if_neg (by simp [notSpace, notTab]), if_neg (by simp [notReturn]),
    if_pos (by simp [endsLine, breaks]), if_neg (by simp [noMark])]

/-- No document mark begins with a break. -/
theorem isMark_append (all : ∀ c ∈ breaks, isBreak c = true) (noMark : isMark rest = false) :
    isMark (breaks ++ rest) = false := by
  cases breaks with
  | nil => exact noMark
  | cons c breaks => exact isMark_cons (by simp [isSeparation, all c List.mem_cons_self]) _

/-- Further breaks are further lines of the pause. -/
theorem readQuotation_breaks (all : ∀ c ∈ breaks, isBreak c = true) (noMark : isMark rest = false)
    (double : Bool) (first : Option Char) (later : List Char) :
    readQuotation double (.after (.lines first later)) (breaks ++ rest) =
      readQuotation double (.after (.lines first (later ++ breaks.map normalBreak))) rest := by
  induction breaks generalizing later with
  | nil => simp
  | cons c breaks ih =>
    obtain ⟨isBreak, all⟩ := List.forall_mem_cons.1 all
    rw [List.cons_append, readQuotation_break isBreak (isMark_append all noMark), Pause.lineEnd,
      ih all]
    simp

/-- A character that stands for itself between single quotes. -/
theorem readQuotation_solid (solid : isSolid c = true) (notQuote : c ≠ '\'') (pause : Pause)
    (rest : List Char) :
    readQuotation false (.after pause) (c :: rest) =
      prepend (pause.text ++ [c]) (readQuotation false (.after .nothing) rest) := by
  have notSpace : c ≠ ' ' := ne_of_class solid (by decide)
  have notTab : c ≠ '\t' := ne_of_class solid (by decide)
  have notReturn : c ≠ '\r' := ne_of_class solid (by decide)
  rw [readQuotation, if_neg (by simp [notSpace, notTab]), if_neg (by simp [notReturn]),
    if_neg (by simp [endsLine_of_isSolid solid]), if_neg (by simp [notQuote]),
      if_neg (by simp [notQuote])]

/-- A quote written twice between single quotes. -/
theorem readQuotation_quoteTwice (pause : Pause) (rest : List Char) :
    readQuotation false (.after pause) ('\'' :: '\'' :: rest) =
      prepend (pause.text ++ ['\'']) (readQuotation false (.after .nothing) rest) := by
  rw [← prepend_prepend]
  rfl

/-- A quote that no other one follows ends the text between single quotes. -/
theorem readQuotation_close (alone : rest.head? ≠ some '\'') (pause : Pause) :
    readQuotation false (.after pause) ('\'' :: rest) = some (pause.text, rest) := by
  rw [readQuotation, if_neg (by decide), if_neg (by simp), if_neg (by decide),
    if_neg (by simp [alone]), if_pos (by decide)]

/-- A word is read back, with the pause before it. -/
theorem readQuotation_word {word : List Char} (solid : ∀ c ∈ word, isSolid c = true)
    (nonempty : word ≠ []) (pause : Pause) (rest : List Char) :
    readQuotation false (.after pause) (doubleQuotes word ++ rest) =
      prepend (pause.text ++ word) (readQuotation false (.after .nothing) rest) := by
  induction word generalizing pause with
  | nil => exact absurd rfl nonempty
  | cons c word ih =>
    obtain ⟨solidHere, solidBehind⟩ := List.forall_mem_cons.1 solid
    have first : readQuotation false (.after pause) (doubleQuotes (c :: word) ++ rest) =
        prepend (pause.text ++ [c]) (readQuotation false (.after .nothing)
          (doubleQuotes word ++ rest)) := by
      -- Only a quote is written twice.
      by_cases isQuote : c = '\''
      · subst isQuote
        exact readQuotation_quoteTwice pause _
      · have written : doubleQuotes (c :: word) = c :: doubleQuotes word := by
          simp [doubleQuotes, isQuote]
        rw [written, List.cons_append, readQuotation_solid solidHere isQuote]
    rw [first]
    cases word with
    | nil => rfl
    | cons d word =>
      rw [ih solidBehind (List.cons_ne_nil d word), prepend_prepend]
      simp [Pause.text]

/-- What breaks between single quotes are read back as. A next-line character in front of the others
is lost and one that stands alone becomes a space; elsewhere it becomes a line feed. -/
def rereadBreaks : List Char → List Char
  | [] => []
  | first :: later =>
    if first.toNat == 0x85 then
      if later.isEmpty then [' '] else later.map normalBreak
    else (first :: later).map normalBreak

/-- What a stretch between single quotes is read back as. -/
def Stretch.reread : Stretch → List Char
  | .breaks text => rereadBreaks text
  | .word text => text
  | .spaces count => List.replicate count ' '

/-- What a row of stretches between single quotes is read back as. -/
def rereadOf (row : List Stretch) : List Char :=
  row.flatMap Stretch.reread

/-- Breaks and the indentation behind them make a pause that stands for what they are read back
as. -/
theorem readQuotation_foldedBreaks (nonempty : breaks ≠ []) (all : ∀ c ∈ breaks, isBreak c = true)
    (positive : 0 < indent) (rest : List Char) :
    ∃ first later, readQuotation false (.after .nothing) (foldedBreaks indent breaks ++ rest) =
      readQuotation false (.after (.lines first later)) rest ∧
        (Pause.lines first later).text = rereadBreaks breaks := by
  obtain ⟨c, breaks, rfl⟩ := List.exists_cons_of_ne_nil nonempty
  have noMark := isMark_replicate positive rest
  by_cases isFeed : c = '\n'
  · -- The line feed is doubled: the first is dropped, and all the breaks stay.
    subst isFeed
    refine ⟨some '\n', ('\n' :: breaks).map normalBreak, ?_, by simp [Pause.text, rereadBreaks]⟩
    have written : foldedBreaks indent ('\n' :: breaks) ++ rest =
        '\n' :: (('\n' :: breaks) ++ (List.replicate indent ' ' ++ rest)) := by
      simp [foldedBreaks]
    rw [written, readQuotation_break (by decide) (isMark_append all noMark), Pause.lineEnd_nothing,
      readQuotation_breaks all noMark, readQuotation_spaces, Pause.spaces_lines]
    rfl
  · obtain ⟨isBreak, all⟩ := List.forall_mem_cons.1 all
    refine ⟨some (normalBreak c), breaks.map normalBreak, ?_, ?_⟩
    · have written : foldedBreaks indent (c :: breaks) ++ rest =
          c :: (breaks ++ (List.replicate indent ' ' ++ rest)) := by
        simp [foldedBreaks, isFeed]
      rw [written, readQuotation_break isBreak (isMark_append all noMark), Pause.lineEnd_nothing,
        readQuotation_breaks all noMark, readQuotation_spaces, Pause.spaces_lines]
      rfl
    · by_cases isNext : c.toNat = 0x85
      · simp [Pause.text, rereadBreaks, normalBreak, isNext]
      · -- The separators of lines and paragraphs stand for themselves.
        have stays : normalBreak c = c := by
          simp [Yaml.isBreak, isFeed, isNext] at isBreak
          simp [normalBreak, isBreak]
        simp [Pause.text, rereadBreaks, isNext, stays, isFeed]

/-- A row of stretches between single quotes is read back, from the middle of it on. -/
theorem readQuotation_foldSingle {indent : Nat} (positive : 0 < indent) {rest : List Char}
    (alone : rest.head? ≠ some '\'') {row : List Stretch} (alternates : Alternates row)
    (printable : ∀ c ∈ textOf row, isPlainChar c = true) {column : Nat} {isFirst : Bool}
    {pause : Pause} (stands : pause = .nothing ∨ row.head?.all Stretch.isWord = true) :
    readQuotation false (.after pause) (foldSingle indent column isFirst row ++ '\'' :: rest) =
      some (pause.text ++ rereadOf row, rest) := by
  -- The pause before the row is general: a gap is read into it, and what comes behind the gap
  -- delivers its text.
  induction row generalizing column isFirst pause with
  | nil => simp [foldSingle, readQuotation_close alone, rereadOf]
  | cons stretch row ih =>
    rw [textOf_cons] at printable
    obtain ⟨printableHere, printableBehind⟩ := List.forall_mem_append.1 printable
    replace ih := @ih alternates.tail printableBehind
    -- Behind a gap comes a word or the closing quote.
    have wordNext : stretch.isWord = false → row.head?.all Stretch.isWord = true := by
      intro isGap
      cases row with
      | nil => rfl
      | cons next row => simpa [isGap] using alternates.next
    have unpaused : stretch.isWord = false → pause = .nothing := by
      intro isGap
      rcases stands with isNothing | isWord
      · exact isNothing
      · simp [isGap] at isWord
    have reread : rereadOf (stretch :: row) = stretch.reread ++ rereadOf row := List.flatMap_cons
    rw [reread]
    cases stretch with
    | word text =>
      have solid := isSolid_of_isProper alternates.head printableHere
      rw [foldSingle, List.append_assoc, readQuotation_word solid alternates.head.1, ih (.inl rfl)]
      simp [Pause.text, Stretch.reread]
    | spaces count =>
      rw [unpaused rfl, foldSingle]
      split
      · rename_i folded
        have single : count = 1 := by
          simp only [Bool.and_eq_true] at folded
          simpa using folded.1.1.1
        rw [newLine, List.cons_append, List.cons_append, List.append_assoc,
          readQuotation_break (by decide) (isMark_replicate positive _), Pause.lineEnd_nothing,
            readQuotation_spaces,
          Pause.spaces_lines, ih (.inr (wordNext rfl))]
        simp [Pause.text, Stretch.reread, single, normalBreak]
      · rw [List.append_assoc, readQuotation_spaces, Pause.spaces_nothing alternates.head,
          ih (.inr (wordNext rfl))]
        simp [Pause.text, Stretch.reread]
    | breaks text =>
      obtain ⟨first, later, read, stood⟩ :=
        readQuotation_foldedBreaks alternates.head.1 alternates.head.2 positive
        (foldSingle indent indent false row ++ '\'' :: rest)
      rw [unpaused rfl, foldSingle, List.append_assoc, read, ih (.inr (wordNext rfl)), stood]
      rfl

/-- A character that stands for itself between double quotes. -/
theorem readQuotation_doubleChar (own : isDoubleChar c = true) (notSpace : c ≠ ' ') (pause : Pause)
    (rest : List Char) :
    readQuotation true (.after pause) (c :: rest) =
      prepend (pause.text ++ [c]) (readQuotation true (.after .nothing) rest) := by
  -- The character is none of those with a meaning; the breaks among them are compared by their
  -- points.
  have notTab : c ≠ '\t' := ne_of_class own (by decide)
  have notReturn : c ≠ '\r' := ne_of_class own (by decide)
  have notBackslash : c ≠ '\\' := ne_of_class own (by decide)
  have notQuote : c ≠ '"' := ne_of_class own (by decide)
  have notEnd : endsLine c = false := by
    have notFeed : c ≠ '\n' := ne_of_class own (by decide)
    have notNext : c.toNat ≠ 0x85 := by
      intro isNext
      simp [isDoubleChar, isNext] at own
    have notLine : c.toNat ≠ 0x2028 := by
      intro isLine
      simp [isDoubleChar, isLine] at own
    have notParagraph : c.toNat ≠ 0x2029 := by
      intro isParagraph
      simp [isDoubleChar, isParagraph] at own
    simp [endsLine, isBreak, notReturn, notFeed, notNext, notLine, notParagraph]
  rw [readQuotation, if_neg (by simp [notSpace, notTab]), if_neg (by simp [notReturn]),
    if_neg (by simp [notEnd]), if_neg (by simp [notBackslash]), if_neg (by simp [notQuote])]

/-- A backslash between double quotes escapes what follows. -/
theorem readQuotation_backslash (pause : Pause) (rest : List Char) :
    readQuotation true (.after pause) ('\\' :: rest) = prepend pause.text
      (readQuotation true .escape rest) := by
  rw [readQuotation, if_neg (by decide), if_neg (by simp), if_neg (by decide), if_pos (by simp)]

/-- An escaped line feed and the indentation behind it are dropped. -/
theorem readQuotation_fold (positive : 0 < indent) (pause : Pause) (rest : List Char) :
    readQuotation true (.after pause) ('\\' :: newLine indent ++ rest) =
      prepend pause.text (readQuotation true (.after (.lines none [])) rest) := by
  -- The backslash before the line end takes it away, and the spaces behind it do not count.
  rw [newLine, List.cons_append, List.cons_append, readQuotation_backslash, readQuotation,
    if_neg (by decide), if_neg (by simp), if_pos (by decide),
    if_neg (by simp [isMark_replicate positive]), readQuotation_spaces,
    Pause.spaces_lines]

/-- The letter behind a backslash is read as the character it was written for. -/
theorem unescaped?_of_escapeLetter? (written : escapeLetter? c = some letter) :
    unescaped? letter = some c ∧ escapeWidth? letter = none ∧ endsLine letter = false := by
  -- The table of letters is gone through once.
  have table :
      ∀ point ∈ [0x00, 0x07, 0x08, 0x09, 0x0A, 0x0B, 0x0C, 0x0D, 0x1B, 0x22, 0x5C, 0x85, 0x2028,
      0x2029], (escapeLetter? (Char.ofNat point)).all
      (fun letter => unescaped? letter == some (Char.ofNat point) &&
        escapeWidth? letter == none && !endsLine letter) = true := by
    decide
  have listed :
      c.toNat ∈ [0x00, 0x07, 0x08, 0x09, 0x0A, 0x0B, 0x0C, 0x0D, 0x1B, 0x22, 0x5C, 0x85, 0x2028,
      0x2029] := by
    by_contra unlisted
    simp only [List.mem_cons, List.not_mem_nil, or_false, not_or] at unlisted
    simp [escapeLetter?, unlisted] at written
  have here := table c.toNat listed
  rw [Char.ofNat_toNat, written] at here
  simpa [and_assoc] using here

theorem hexValue?_upper {digit : Nat} (small : digit < 16) :
    hexValue? (hexDigit .upper digit) = some digit := by
  have each : ∀ digit < 16, hexValue? (hexDigit .upper digit) = some digit := by decide
  exact each digit small

/-- Digits that others follow add up to their number. -/
theorem readQuotation_digits (width left value number : Nat) (rest : List Char) :
    readQuotation true (.code (width + (left + 1)) value) (hexDigits .upper width number ++ rest) =
      readQuotation true (.code (left + 1) (value * 16 ^ width + number % 16 ^ width)) rest := by
  induction width generalizing left number rest with
  | zero => simp [hexDigits, Nat.mod_one]
  | succ width ih =>
    -- The last digit is the lowest, so the digits before it are those of a sixteenth of the number.
    have lowest := hexValue?_upper (Nat.mod_lt number (by decide : 0 < 16))
    have count : width + 1 + (left + 1) = width + (left + 1 + 1) := by omega
    have sum : (value * 16 ^ width + number / 16 % 16 ^ width) * 16 + number % 16 =
        value * 16 ^ (width + 1) + number % 16 ^ (width + 1) := by
      rw [Nat.pow_succ, Nat.add_mul, Nat.mul_assoc, Nat.mul_comm (16 ^ width) 16, Nat.mod_mul]
      omega
    rw [hexDigits, List.append_assoc, count, ih, List.singleton_append, readQuotation, lowest]
    simp only [sum]
    rw [if_pos (by omega)]
    rfl

/-- The digits of a code point are read as its character. -/
theorem readQuotation_code {width : Nat} (fits : c.toNat < 16 ^ (width + 1)) (rest : List Char) :
    readQuotation true (.code (width + 1) 0) (hexDigits .upper (width + 1) c.toNat ++ rest) =
      prepend [c] (readQuotation true (.after .nothing) rest) := by
  -- The lowest digit is read last, and the point of the character is complete.
  have lowest := hexValue?_upper (Nat.mod_lt c.toNat (by decide : 0 < 16))
  have point : (0 * 16 ^ width + c.toNat / 16 % 16 ^ width) * 16 + c.toNat % 16 = c.toNat := by
    have small : c.toNat / 16 < 16 ^ width := by
      rw [Nat.pow_succ] at fits
      omega
    rw [Nat.mod_eq_of_lt small]
    omega
  rw [hexDigits, List.append_assoc, readQuotation_digits width 0, List.singleton_append,
    readQuotation, lowest]
  simp only [point]
  rw [if_neg (by omega), if_pos (by exact c.valid), Char.ofNat_toNat]

/-- A letter behind a backslash is read as the character it stands for. -/
theorem readQuotation_letter (meant : unescaped? letter = some c)
    (noWidth : escapeWidth? letter = none) (sameLine : endsLine letter = false) (rest : List Char) :
    readQuotation true .escape (letter :: rest) = prepend [c]
      (readQuotation true (.after .nothing) rest) := by
  have notReturn : letter ≠ '\r' := by
    rintro rfl
    exact absurd sameLine (by decide)
  rw [readQuotation, if_neg (by decide), if_neg (by simp [notReturn]), if_neg (by simp [sameLine]),
    noWidth, meant]

/-- A letter behind a backslash announces the digits of a code point. -/
theorem readQuotation_width {width : Nat} (announced : escapeWidth? letter = some width)
    (sameLine : endsLine letter = false) (rest : List Char) :
    readQuotation true .escape (letter :: rest) = readQuotation true (.code width 0) rest := by
  have notReturn : letter ≠ '\r' := by
    rintro rfl
    exact absurd sameLine (by decide)
  rw [readQuotation, if_neg (by decide), if_neg (by simp [notReturn]), if_neg (by simp [sameLine]),
    announced]

/-- An escape sequence is read back as its character. -/
theorem readQuotation_escaped (c : Char) (pause : Pause) (rest : List Char) :
    readQuotation true (.after pause) (escaped c ++ rest) =
      prepend (pause.text ++ [c]) (readQuotation true (.after .nothing) rest) := by
  rw [← prepend_prepend]
  unfold escaped
  split
  · rename_i letter written
    obtain ⟨meant, noWidth, sameLine⟩ := unescaped?_of_escapeLetter? written
    rw [List.cons_append, List.cons_append, List.nil_append, readQuotation_backslash,
      readQuotation_letter meant noWidth sameLine]
  · -- The number of digits goes by the size of the code point.
    have bounded : c.toNat < 16 ^ (7 + 1) := by
      have valid : c.toNat < 0xD800 ∨ 0xDFFF < c.toNat ∧ c.toNat < 0x110000 := c.valid
      omega
    split
    · rw [List.cons_append, List.cons_append, readQuotation_backslash,
        readQuotation_width rfl (by decide), readQuotation_code (by omega)]
    · split
      · rw [List.cons_append, List.cons_append, readQuotation_backslash,
          readQuotation_width rfl (by decide), readQuotation_code (by omega)]
      · rw [List.cons_append, List.cons_append, readQuotation_backslash,
          readQuotation_width rfl (by decide), readQuotation_code bounded]

/-- A character behind a fold is read back: a space there is escaped. -/
theorem readQuotation_afterFold (own : isDoubleChar c = true) (more rest : List Char) :
    readQuotation true (.after (.lines none [])) (leadingSpaceMark (c :: more) ++ c :: rest) =
      prepend [c] (readQuotation true (.after .nothing) rest) := by
  -- A space needs a backslash before it, and any other character stands for itself.
  by_cases isSpace : c = ' '
  · subst isSpace
    have written : leadingSpaceMark (' ' :: more) ++ ' ' :: rest = '\\' :: ' ' :: rest := by
      simp [leadingSpaceMark]
    rw [written, readQuotation_backslash, readQuotation_letter (c := ' ') rfl rfl (by decide),
      prepend_prepend]
    rfl
  · have written : leadingSpaceMark (c :: more) ++ c :: rest = c :: rest := by
      simp [leadingSpaceMark, isSpace]
    rw [written, readQuotation_doubleChar own isSpace]
    rfl

/-- A blank behind a pause belongs to it, unless there was a line end. -/
theorem Pause.text_blank (noLines : pause.hasLines = false) (c : Char) :
    (pause.blank c).text = pause.text ++ [c] := by
  cases pause with
  | nothing => rfl
  | blanks text => rfl
  | lines first later => cases noLines

/-- A text between double quotes is read back, from the middle of it on: within a line, or right
behind a fold. -/
theorem readQuotation_foldDouble {indent : Nat} (positive : 0 < indent) (room : indent < bestWidth)
    (rest : List Char)
    (content : List Char) {column : Nat} {isFirst afterEscape : Bool} {pause : Pause}
    {mark : List Char} (stands : pause.hasLines = false ∧ mark = [] ∨
      pause = .lines none [] ∧ mark = leadingSpaceMark content ∧ column ≤ bestWidth) :
    readQuotation true (.after pause)
      (mark ++ foldDouble indent column isFirst afterEscape content ++ '"' :: rest) =
      some (pause.text ++ content, rest) := by
  -- Behind a fold the pause would swallow a space, but there the space is marked.
  induction content generalizing column isFirst afterEscape pause mark with
  | nil =>
    have unmarked : mark = [] := by
      rcases stands with ⟨-, rfl⟩ | ⟨-, rfl, -⟩
      · rfl
      · rfl
    rw [unmarked, foldDouble]
    simp [readQuotation, endsLine, isBreak]
  | cons c content ih =>
    have behind : ∀ column isFirst afterEscape pause, pause.hasLines = false →
        readQuotation true (.after pause)
          (foldDouble indent column isFirst afterEscape content ++ '"' :: rest) =
          some (pause.text ++ content, rest) :=
      fun column isFirst afterEscape pause noLines =>
        @ih column isFirst afterEscape pause [] (.inl ⟨noLines, rfl⟩)
    rw [foldDouble]
    by_cases own : isDoubleChar c = true
    · rw [if_pos own]
      split
      · -- A fold before the character: the line was too wide, so none has just begun.
        rename_i folded
        have wide : bestWidth < column := by
          simp only [Bool.and_eq_true] at folded
          simpa using folded.2
        obtain ⟨-, rfl⟩ | ⟨-, -, narrow⟩ := stands
        · rw [List.nil_append, List.append_assoc, List.append_assoc, readQuotation_fold positive,
            List.cons_append, readQuotation_afterFold own, behind _ _ _ _ rfl]
          simp [Pause.text]
        · omega
      · obtain ⟨noLines, rfl⟩ | ⟨rfl, rfl, -⟩ := stands
        · rw [List.nil_append, List.cons_append]
          by_cases isSpace : c = ' '
          · subst isSpace
            have stillNone : (pause.blank ' ').hasLines = false := by
              cases pause with
              | nothing => rfl
              | blanks text => rfl
              | lines first later => exact noLines
            rw [readQuotation, if_pos (by decide), behind _ _ _ _ stillNone,
              Pause.text_blank noLines]
            simp
          · rw [readQuotation_doubleChar own isSpace, behind _ _ _ _ rfl]
            simp [Pause.text]
        · rw [List.append_assoc, List.cons_append, readQuotation_afterFold own, behind _ _ _ _ rfl]
          rfl
    · -- An escaped character is no space, so nothing marks it behind a fold.
      have unmarked : mark = [] := by
        obtain ⟨-, rfl⟩ | ⟨-, rfl, -⟩ := stands
        · rfl
        · have notSpace : c ≠ ' ' := by
            rintro rfl
            exact own (by decide)
          simp [leadingSpaceMark, notSpace]
      rw [if_neg own, unmarked, List.nil_append]
      dsimp only
      split
      · have narrow : indent + (leadingSpaceMark content).length ≤ bestWidth := by
          unfold leadingSpaceMark
          split
          · exact room
          · exact Nat.le_of_lt room
        rw [List.append_assoc, List.append_assoc, List.append_assoc, readQuotation_escaped,
          readQuotation_fold positive, ← List.append_assoc, ih (.inr ⟨rfl, rfl, narrow⟩)]
        simp [Pause.text]
      · rw [List.append_assoc, readQuotation_escaped, behind _ _ _ _ rfl]
        simp [Pause.text]

end Lineage.Yaml
