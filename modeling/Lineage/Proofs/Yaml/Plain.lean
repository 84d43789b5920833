import Lineage.Proofs.Text.Blank
import Lineage.Proofs.Yaml.Reader
import Mathlib.Data.List.Chain

/-! Stretches of a text, and that a text written without quotes is read back. -/

namespace Lineage.Yaml

open Lineage.Text

/-- The characters of a stretch. -/
def Stretch.text : Stretch → List Char
  | .word text => text
  | .spaces count => List.replicate count ' '
  | .breaks text => text

/-- The text of a row of stretches. -/
def textOf (row : List Stretch) : List Char :=
  row.flatMap Stretch.text

/-- Whether a stretch is a word. -/
def Stretch.isWord : Stretch → Bool
  | .word _ => true
  | _ => false

/-- A stretch has characters, all of its own kind. -/
def Stretch.IsProper : Stretch → Prop
  | .word text => text ≠ [] ∧ ∀ c ∈ text, c ≠ ' ' ∧ isBreak c = false
  | .spaces count => 0 < count
  | .breaks text => text ≠ [] ∧ ∀ c ∈ text, isBreak c = true

/-- Words and gaps take turns. -/
structure Alternates (row : List Stretch) : Prop where
  proper : ∀ stretch ∈ row, stretch.IsProper
  apart : row.IsChain fun one next => one.isWord ≠ next.isWord

/-- Whether one of two characters is a space and the other a break. -/
def areMixed (c d : Char) : Bool :=
  (c == ' ' && isBreak d) || (isBreak c && d == ' ')

variable {stretch : Stretch} {row : List Stretch} {text content rest : List Char} {c before : Char}
  {least column : Nat} {pause : Pause}

theorem Alternates.tail (alternates : Alternates (stretch :: row)) : Alternates row :=
  ⟨fun one listed => alternates.proper one (List.mem_cons_of_mem _ listed), alternates.apart.tail⟩

theorem Alternates.head (alternates : Alternates (stretch :: row)) : stretch.IsProper :=
  alternates.proper stretch List.mem_cons_self

/-- Another stretch of the same kind may stand in front. -/
theorem Alternates.replace {other : Stretch} (alternates : Alternates (stretch :: row))
    (proper : other.IsProper) (same : other.isWord = stretch.isWord) :
    Alternates (other :: row) := by
  -- Only the first stretch is exchanged, for one of the same kind.
  refine ⟨List.forall_mem_cons.2 ⟨proper, alternates.tail.proper⟩, ?_⟩
  have apart := alternates.apart
  cases row with
  | nil => exact List.isChain_singleton other
  | cons next row =>
    rw [List.isChain_cons_cons] at apart ⊢
    exact ⟨same ▸ apart.1, apart.2⟩

/-- A stretch of the other kind may come in front. -/
theorem Alternates.cons {next : Stretch} (alternates : Alternates (next :: row))
    (proper : stretch.IsProper) (apart : stretch.isWord ≠ next.isWord) :
    Alternates (stretch :: next :: row) :=
  ⟨List.forall_mem_cons.2 ⟨proper, alternates.proper⟩,
    List.isChain_cons_cons.2 ⟨apart, alternates.apart⟩⟩

theorem alternates_singleton (proper : stretch.IsProper) : Alternates [stretch] :=
  ⟨List.forall_mem_singleton.2 proper, List.isChain_singleton stretch⟩

/-- Behind a word comes a gap and behind a gap a word, if anything does. -/
theorem Alternates.next (alternates : Alternates (stretch :: row)) :
    row = [] ∨ row.head?.any Stretch.isWord = !stretch.isWord := by
  cases row with
  | nil => exact .inl rfl
  | cons next row =>
    have apart := (List.isChain_cons_cons.1 alternates.apart).1
    exact .inr (by simpa using Bool.eq_not_of_ne apart.symm)

/-- No word stands behind a word. -/
theorem Alternates.noWord (alternates : Alternates (.word text :: row)) :
    row.head?.any Stretch.isWord = false := by
  rcases alternates.next with rfl | noWord
  · rfl
  · exact noWord

theorem textOf_cons (stretch : Stretch) (row : List Stretch) :
    textOf (stretch :: row) = stretch.text ++ textOf row :=
  List.flatMap_cons

/-- One more character in front of the stretches is one more character in front of their text. -/
theorem textOf_consStretch (c : Char) (row : List Stretch) :
    textOf (consStretch c row) = c :: textOf row := by
  unfold consStretch
  split
  · -- A space begins or prolongs a run of spaces.
    rename_i isSpace
    have isSpace : c = ' ' := by simpa using isSpace
    subst isSpace
    split
    · simp [textOf_cons, Stretch.text, List.replicate_succ]
    · simp [textOf_cons, Stretch.text]
  · split <;> split <;> simp [textOf_cons, Stretch.text]

/-- The stretches of a text make up the text. -/
@[simp] theorem textOf_stretches (content : List Char) : textOf (stretches content) = content := by
  induction content with
  | nil => rfl
  | cons c content ih => exact (textOf_consStretch c _).trans (congrArg _ ih)

/-- Words and gaps take turns as long as spaces and breaks do not meet. -/
theorem alternates_stretches (unmixed : anyAdjacent areMixed content = false) :
    Alternates (stretches content) := by
  induction content with
  | nil => exact ⟨by simp [stretches], List.isChain_nil⟩
  | cons c content ih =>
    -- The first stretch of the rest tells which character comes next.
    have meets : ∀ d more, content = d :: more → areMixed c d = false := by
      rintro d more rfl
      simp only [anyAdjacent, Bool.or_eq_false_iff] at unmixed
      exact unmixed.1
    have rest : Alternates (stretches content) := by
      apply ih
      cases content with
      | nil => rfl
      | cons d more =>
        simp only [anyAdjacent, Bool.or_eq_false_iff] at unmixed
        exact unmixed.2
    have joined : textOf (stretches content) = content := textOf_stretches content
    show Alternates (consStretch c (stretches content))
    generalize stretches content = row at rest joined
    unfold consStretch
    split
    · rename_i isSpace
      have isSpace : c = ' ' := by simpa using isSpace
      subst isSpace
      cases row with
      | nil => exact alternates_singleton Nat.one_pos
      | cons stretch row =>
        cases stretch with
        | spaces count => exact rest.replace (Nat.succ_pos count) rfl
        | word text => exact rest.cons Nat.one_pos (by simp [Stretch.isWord])
        | breaks text =>
          obtain ⟨d, text, rfl⟩ := List.exists_cons_of_ne_nil rest.head.1
          have isBreak : isBreak d = true := rest.head.2 d List.mem_cons_self
          have apart := meets d _ (joined.symm.trans (textOf_cons _ _))
          simp [areMixed, isBreak] at apart
    · rename_i notSpace
      have notSpace : c ≠ ' ' := by simpa using notSpace
      split
      · rename_i isBreak
        have proper : (Stretch.breaks [c]).IsProper :=
          ⟨List.cons_ne_nil _ _, List.forall_mem_singleton.2 isBreak⟩
        cases row with
        | nil => exact alternates_singleton proper
        | cons stretch row =>
          cases stretch with
          | breaks text =>
            exact rest.replace ⟨List.cons_ne_nil _ _, List.forall_mem_cons.2 ⟨isBreak, rest.head.2⟩⟩
              rfl
          | word text => exact rest.cons proper (by simp [Stretch.isWord])
          | spaces count =>
            obtain ⟨count, rfl⟩ := Nat.exists_eq_succ_of_ne_zero (Nat.ne_of_gt rest.head)
            have apart := meets ' ' _ (joined.symm.trans (textOf_cons _ _))
            simp [areMixed, isBreak] at apart
      · rename_i notBreak
        have own : c ≠ ' ' ∧ isBreak c = false := ⟨notSpace, by simpa using notBreak⟩
        have proper : (Stretch.word [c]).IsProper :=
          ⟨List.cons_ne_nil _ _, List.forall_mem_singleton.2 own⟩
        cases row with
        | nil => exact alternates_singleton proper
        | cons stretch row =>
          cases stretch with
          | word text =>
            exact rest.replace ⟨List.cons_ne_nil _ _, List.forall_mem_cons.2 ⟨own, rest.head.2⟩⟩ rfl
          | spaces count => exact rest.cons proper (by simp [Stretch.isWord])
          | breaks text => exact rest.cons proper (by simp [Stretch.isWord])

/-- Characters of words that can stand unescaped. -/
def isSolid (c : Char) : Bool :=
  isPlainChar c && c != ' ' && !isBreak c

/-- The characters of a word are of this kind, if they can stand unescaped at all. -/
theorem isSolid_of_isProper (proper : (Stretch.word text).IsProper)
    (printable : ∀ c ∈ text, isPlainChar c = true) : ∀ c ∈ text, isSolid c = true := by
  intro c inside
  obtain ⟨notSpace, notBreak⟩ := proper.2 c inside
  simp [isSolid, printable c inside, notSpace, notBreak]

/-- No such character separates anything. -/
theorem isSeparation_of_isSolid (solid : isSolid c = true) : isSeparation c = false := by
  have notNull : c ≠ '\x00' := ne_of_class solid (by decide)
  have notSpace : c ≠ ' ' := ne_of_class solid (by decide)
  have notTab : c ≠ '\t' := ne_of_class solid (by decide)
  have notReturn : c ≠ '\r' := ne_of_class solid (by decide)
  have notBreak : isBreak c = false := by
    simp only [isSolid, Bool.and_eq_true] at solid
    simpa using solid.2
  simp [isSeparation, notNull, notSpace, notTab, notReturn, notBreak]

theorem endsLine_of_isSolid (solid : isSolid c = true) : endsLine c = false := by
  have notSeparation := isSeparation_of_isSolid solid
  simp only [isSeparation, Bool.or_eq_false_iff] at notSeparation
  simp [endsLine, notSeparation.1.2, notSeparation.2]

/-- A pause with several more spaces. -/
def Pause.spaces : Nat → Pause → Pause
  | 0, pause => pause
  | count + 1, pause => (pause.blank ' ').spaces count

/-- Spaces behind a line end do not count. -/
@[simp] theorem Pause.spaces_lines (count : Nat) (first : Option Char) (later : List Char) :
    (Pause.lines first later).spaces count = .lines first later := by
  induction count with
  | zero => rfl
  | succ count ih => exact ih

/-- Spaces behind blanks are more blanks. -/
theorem Pause.spaces_blanks (count : Nat) (text : List Char) :
    (Pause.blanks text).spaces count = .blanks (text ++ List.replicate count ' ') := by
  induction count generalizing text with
  | zero => simp [Pause.spaces]
  | succ count ih => simp [Pause.spaces, Pause.blank, ih, List.replicate_succ]

theorem Pause.spaces_nothing {count : Nat} (some : 0 < count) :
    Pause.nothing.spaces count = .blanks (List.replicate count ' ') := by
  obtain ⟨count, rfl⟩ := Nat.exists_eq_succ_of_ne_zero (Nat.ne_of_gt some)
  exact Pause.spaces_blanks count [' ']

/-- Spaces only prolong the pause. -/
theorem readPlain_spaces (least column : Nat) (pause : Pause) (before : List Char) (count : Nat)
    (rest : List Char) :
    readPlain least column pause before (List.replicate count ' ' ++ rest) =
      readPlain least (column + count) (pause.spaces count) before rest := by
  induction count generalizing column pause with
  | zero => rfl
  | succ count ih =>
    rw [List.replicate_succ, List.cons_append, readPlain, if_pos (by decide), ih, Nat.add_assoc,
      Nat.add_comm 1]
    rfl

/-- A character of a word is taken together with the pause before it, unless it has a meaning of its
own or stands too far out. -/
theorem readPlain_solid (solid : isSolid c = true) {before : List Char}
    (noColon : (c == ':' && separatedFrom rest) = false) (noComment : pause ≠ .nothing → c ≠ '#')
    (inside : pause.hasLines = true → least ≤ column) :
    readPlain least column pause before (c :: rest) =
      (pause.text ++ c :: (readPlain least (column + 1) .nothing rest rest).1,
        (readPlain least (column + 1) .nothing rest rest).2) := by
  -- The character is none of those that end the scalar.
  have notSpace : c ≠ ' ' := ne_of_class solid (by decide)
  have notTab : c ≠ '\t' := ne_of_class solid (by decide)
  have notReturn : c ≠ '\r' := ne_of_class solid (by decide)
  have quiet : (c == '#' && pause != .nothing) = false := by
    by_cases isNothing : pause = .nothing
    · simp [isNothing]
    · simp [noComment isNothing]
  have within : (pause.hasLines && column < least) = false := by
    cases ended : pause.hasLines with
    | false => rfl
    | true => simpa using inside ended
  rw [readPlain, if_neg (by simp [notSpace]), if_neg (by simp [notReturn]),
    if_neg (by simp [endsLine_of_isSolid solid]), if_neg]
  simp [notTab, noColon, quiet, within]

/-- What comes behind a word separates in the same way in two texts, so the same characters of the
word are indicators. -/
theorem separatedFrom_append {word one other : List Char} (first : separatedFrom one = true)
    (second : separatedFrom other = true) :
    separatedFrom (word ++ one) = separatedFrom (word ++ other) := by
  cases word with
  | nil => exact first.trans second.symm
  | cons c word => rfl

/-- A word without indicators is taken whole. -/
theorem readPlain_word {word : List Char} (solid : ∀ c ∈ word, isSolid c = true)
    (nonempty : word ≠ []) {start tail behind : List Char}
    (quiet : holdsIndicator before (word ++ behind) = false) (ends : separatedFrom behind = true)
    (endsToo : separatedFrom tail = true) (paused : pause ≠ .nothing → isSeparation before = true)
    (inside : pause.hasLines = true → least ≤ column) :
    readPlain least column pause start (word ++ tail) =
      (pause.text ++ word ++ (readPlain least (column + word.length) .nothing tail tail).1,
        (readPlain least (column + word.length) .nothing tail tail).2) := by
  -- Character by character; the pause stands before the first one only.
  induction word generalizing column pause start before with
  | nil => exact absurd rfl nonempty
  | cons c word ih =>
    simp only [List.cons_append, holdsIndicator, Bool.or_eq_false_iff] at quiet
    obtain ⟨⟨noColon, noSign⟩, quiet⟩ := quiet
    have noColon : (c == ':' && separatedFrom (word ++ tail)) = false := by
      rw [separatedFrom_append endsToo ends]
      exact noColon
    have noComment : pause ≠ .nothing → c ≠ '#' := by
      intro something isSign
      simp [isSign, paused something] at noSign
    rw [List.cons_append, readPlain_solid (solid c List.mem_cons_self) noColon noComment inside]
    cases word with
    | nil => simp
    | cons d word =>
      have unpaused : Pause.nothing ≠ .nothing → isSeparation c = true :=
        fun something => absurd rfl something
      have noLines : Pause.nothing.hasLines = true → least ≤ column + 1 := by simp [Pause.hasLines]
      rw [ih (List.forall_mem_cons.1 solid).2 (List.cons_ne_nil d word) quiet unpaused noLines,
        List.length_cons, Nat.add_assoc, Nat.add_comm 1]
      simp [Pause.text]

/-- Indicators behind a part of a text are indicators of the text. -/
theorem holdsIndicator_append {front behind : List Char}
    (quiet : holdsIndicator before (front ++ behind) = false) :
    holdsIndicator (front.getLastD before) behind = false := by
  induction front generalizing before with
  | nil => exact quiet
  | cons c front ih =>
    simp only [List.cons_append, holdsIndicator, Bool.or_eq_false_iff] at quiet
    rw [List.getLastD_cons]
    exact ih quiet.2

/-- Characters with which something can begin on a line. -/
def isOpening (c : Char) : Bool :=
  c != ' ' && c != '#' && !endsLine c

theorem endsLine_of_isOpening (opening : isOpening c = true) : endsLine c = false := by
  simp only [isOpening, Bool.and_eq_true] at opening
  simpa using opening.2

/-- What comes behind a line: nothing, or a line that begins further out than a column. -/
def BeginsBefore (column : Nat) (rest : List Char) : Prop :=
  rest = [] ∨ ∃ indent c more,
    rest = List.replicate indent ' ' ++ c :: more ∧ indent < column ∧ isOpening c = true

/-- A line that begins with a blank or a break holds no document mark. -/
theorem isMark_cons (separates : isSeparation c = true) (rest : List Char) :
    isMark (c :: rest) = false := by
  have notHyphen : c ≠ '-' := ne_of_class separates (by decide)
  have notPoint : c ≠ '.' := ne_of_class separates (by decide)
  simp [isMark, beginsLikeMark, notHyphen, notPoint]

theorem isMark_replicate {count : Nat} (positive : 0 < count) (rest : List Char) :
    isMark (List.replicate count ' ' ++ rest) = false := by
  obtain ⟨count, rfl⟩ := Nat.exists_eq_succ_of_ne_zero (Nat.ne_of_gt positive)
  exact isMark_cons (by decide) _

theorem Pause.lineEnd_nothing (c : Char) :
    Pause.nothing.lineEnd c = .lines (some (normalBreak c)) [] :=
  rfl

/-- At a line feed the pause takes in another line, unless a document mark follows. -/
theorem readPlain_lineFeed (least column : Nat) (pause : Pause) (before rest : List Char) :
    readPlain least column pause before ('\n' :: rest) =
      if isMark rest then ([], before) else readPlain least 0 (pause.lineEnd '\n') before rest := by
  rw [readPlain, if_neg (by decide), if_neg (by simp), if_pos (by decide)]

/-- An unquoted text ends where the next line begins too far out. -/
theorem readPlain_end (ends : BeginsBefore least rest) (column : Nat) :
    readPlain least column .nothing ('\n' :: rest) ('\n' :: rest) = ([], '\n' :: rest) := by
  -- The next line begins further out, or there is none.
  rw [readPlain_lineFeed]
  split
  · rfl
  · rcases ends with rfl | ⟨indent, c, more, rfl, further, opening⟩
    · rfl
    · have notSpace : c ≠ ' ' := ne_of_class opening (by decide)
      have notReturn : c ≠ '\r' := ne_of_class opening (by decide)
      have notEnd := endsLine_of_isOpening opening
      rw [readPlain_spaces, Pause.lineEnd_nothing, Pause.spaces_lines, readPlain,
        if_neg (by simp [notSpace]), if_neg (by simp [notReturn]), if_neg (by simp [notEnd]),
        if_pos]
      simp [Pause.hasLines, further]

/-- Where no word comes next, what is written begins with a separation, as the text itself does. -/
theorem separatedFrom_foldPlain (alternates : Alternates row)
    (unbroken : ∀ c ∈ textOf row, isBreak c = false) (noWord : row.head?.any Stretch.isWord = false)
    (indent column : Nat) (rest : List Char) :
    separatedFrom (textOf row) = true ∧ separatedFrom
      (foldPlain indent column row ++ '\n' :: rest) = true := by
  -- What follows is nothing or a space, as there are no breaks.
  cases row with
  | nil => exact ⟨rfl, rfl⟩
  | cons stretch row =>
    cases stretch with
    | word text => simp [Stretch.isWord] at noWord
    | spaces count =>
      obtain ⟨count, rfl⟩ := Nat.exists_eq_succ_of_ne_zero (Nat.ne_of_gt alternates.head)
      refine ⟨rfl, ?_⟩
      rw [foldPlain]
      split <;> rfl
    | breaks text =>
      obtain ⟨c, text, rfl⟩ := List.exists_cons_of_ne_nil alternates.head.1
      have isBreak := alternates.head.2 c List.mem_cons_self
      rw [unbroken c (by simp [textOf_cons, Stretch.text])] at isBreak
      cases isBreak

/-- A row of stretches written without quotes is read back, from the middle of it on. -/
theorem readPlain_foldPlain {least indent : Nat} (deep : least ≤ indent) (positive : 0 < indent)
    {rest : List Char}
    (ends : BeginsBefore least rest) {row : List Stretch} (alternates : Alternates row)
    (printable : ∀ c ∈ textOf row, isPlainChar c = true)
    (unbroken : ∀ c ∈ textOf row, isBreak c = false)
    (closed : (textOf row).getLast? ≠ some ' ') {before : Char}
    (quiet : holdsIndicator before (textOf row) = false)
    {written column : Nat} {pause : Pause} {start : List Char}
    (stands : pause = .nothing ∧ start = foldPlain indent written row ++ '\n' :: rest ∨
      row.head?.any Stretch.isWord = true ∧ isSeparation before = true ∧
        (pause.hasLines = true → least ≤ column)) :
    readPlain least column pause start (foldPlain indent written row ++ '\n' :: rest) =
      (pause.text ++ textOf row, '\n' :: rest) := by
  -- The pause before the row is general: a gap is read into it, and the word behind the gap
  -- delivers its text.
  induction row generalizing before written column pause start with
  | nil =>
    obtain ⟨rfl, rfl⟩ | ⟨noWord, -⟩ := stands
    · exact readPlain_end ends column
    · cases noWord
  | cons stretch row ih =>
    rw [textOf_cons] at printable unbroken quiet closed ⊢
    obtain ⟨printableHere, printableBehind⟩ := List.forall_mem_append.1 printable
    obtain ⟨unbrokenHere, unbrokenBehind⟩ := List.forall_mem_append.1 unbroken
    have closedBehind : (textOf row).getLast? ≠ some ' ' := by
      intro last
      exact closed (by simp [List.getLast?_append, last])
    have quietBehind := holdsIndicator_append quiet
    replace ih := @ih alternates.tail printableBehind unbrokenBehind closedBehind
    cases stretch with
    | word text =>
      have solid := isSolid_of_isProper alternates.head printableHere
      obtain ⟨separated, separatedToo⟩ :=
        separatedFrom_foldPlain alternates.tail unbrokenBehind alternates.noWord indent
          (written + text.length) rest
      have paused : pause ≠ .nothing → isSeparation before = true := by
        intro something
        rcases stands with ⟨isNothing, -⟩ | ⟨-, separates, -⟩
        · exact absurd isNothing something
        · exact separates
      have inside : pause.hasLines = true → least ≤ column := by
        rcases stands with ⟨rfl, -⟩ | ⟨-, -, inside⟩
        · simp [Pause.hasLines]
        · exact inside
      rw [foldPlain, List.append_assoc,
        readPlain_word solid alternates.head.1 quiet separated separatedToo paused inside,
        ih quietBehind (.inl ⟨rfl, rfl⟩)]
      simp [Pause.text, Stretch.text]
    | spaces count =>
      -- A gap comes behind a word, and another word comes behind the gap.
      obtain ⟨rfl, -⟩ | ⟨isWord, -⟩ := stands
      · have positiveCount : 0 < count := alternates.head
        have word : row.head?.any Stretch.isWord = true := by
          rcases alternates.next with rfl | word
          · obtain ⟨count, rfl⟩ := Nat.exists_eq_succ_of_ne_zero (Nat.ne_of_gt positiveCount)
            exact absurd (by simp [textOf, Stretch.text, List.replicate_succ']) closed
          · exact word
        have lastSpace : (Stretch.spaces count).text.getLastD before = ' ' := by
          obtain ⟨count, rfl⟩ := Nat.exists_eq_succ_of_ne_zero (Nat.ne_of_gt positiveCount)
          simp [Stretch.text, List.replicate_succ']
        rw [lastSpace] at quietBehind
        rw [foldPlain]
        split
        · -- A new line stands for a single space, and its indentation is not part of the text.
          rename_i folded
          have single : count = 1 := by
            simp only [Bool.and_eq_true] at folded
            simpa using folded.1
          have inside : (Pause.lines (some (normalBreak '\n')) []).hasLines = true →
              least ≤ 0 + indent := by
            intro _
            omega
          rw [newLine, List.cons_append, List.cons_append, List.append_assoc, readPlain_lineFeed,
            if_neg (by simp [isMark_replicate positive]), readPlain_spaces, Pause.lineEnd_nothing,
              Pause.spaces_lines,
            ih quietBehind (.inr ⟨word, by decide, inside⟩)]
          simp [Pause.text, Stretch.text, single, normalBreak]
        · have inside : (Pause.blanks (List.replicate count ' ')).hasLines = true →
              least ≤ column + count := by
            simp [Pause.hasLines]
          rw [List.append_assoc, readPlain_spaces, Pause.spaces_nothing positiveCount,
            ih quietBehind (.inr ⟨word, by decide, inside⟩)]
          simp [Pause.text, Stretch.text]
      · cases isWord
    | breaks text =>
      obtain ⟨c, text, rfl⟩ := List.exists_cons_of_ne_nil alternates.head.1
      have isBreak := alternates.head.2 c List.mem_cons_self
      rw [unbrokenHere c List.mem_cons_self] at isBreak
      cases isBreak

/-- What only double quotes can hold has a character to escape, or a space beside a break. -/
theorem needsDouble_eq_false (simple : needsDouble content = false) :
    (∀ c ∈ content, isPlainChar c = true) ∧ anyAdjacent areMixed content = false := by
  simp only [needsDouble, Bool.or_eq_false_iff] at simple
  exact ⟨by simpa using simple.1, simple.2⟩

/-- An unquoted text that is not reserved means itself. -/
theorem resolve?_of_unreserved (free : isReserved text = false) :
    resolve? text = some (.text (String.ofList text)) := by
  have unlisted : ∀ words, words ⊆ reservedWords → words.any (·.toList == text) = false := by
    intro words reserved
    simp only [isReserved, Bool.or_eq_false_iff, List.any_eq_false] at free
    exact List.any_eq_false.2 fun word listed => free.1.1.1 word (reserved listed)
  have noNumber : (isWhole wholeNumber text || isWhole pointNumber text) = false := by
    simp only [isReserved, Bool.or_eq_false_iff] at free
    simp [free.1.1.2, free.1.2]
  rw [resolve?, unlisted nullWords (by decide), unlisted (truthWords true) (by decide),
    unlisted (truthWords false) (by decide), noNumber, free]
  rfl

/-- A text that begins with no indicator is read as an unquoted one. -/
theorem readScalar_of_plain (solid : isSolid c = true)
    (noIndicator : beginsWithIndicator (c :: rest) = false) :
    readScalar least (c :: rest) =
      (resolve? (readPlain least 0 .nothing (c :: rest) (c :: rest)).1).map
      fun meant => (meant, (readPlain least 0 .nothing (c :: rest) (c :: rest)).2) := by
  -- The character opens no other kind of scalar.
  have unlisted : "#,[]\x7b\x7d&*!|>'\"%@`".toList.contains c = false := by
    simp only [beginsWithIndicator, Bool.or_eq_false_iff] at noIndicator
    exact noIndicator.1
  have notQuote : c ≠ '\'' := by
    rintro rfl
    exact absurd unlisted (by decide)
  have notDouble : c ≠ '"' := by
    rintro rfl
    exact absurd unlisted (by decide)
  have notBracket : c ≠ '[' := by
    rintro rfl
    exact absurd unlisted (by decide)
  have notBrace : c ≠ '{' := by
    rintro rfl
    exact absurd unlisted (by decide)
  unfold readScalar
  split <;> rename_i same
  · exact absurd (List.cons.inj same).1 notQuote
  · exact absurd (List.cons.inj same).1 notDouble
  · exact absurd (List.cons.inj same).1 notBracket
  · exact absurd (List.cons.inj same).1 notBrace
  · cases same
  · cases same
    rw [if_neg (by simp [isSeparation_of_isSolid solid, noIndicator])]

/-- A text that can stand without quotes. -/
structure IsBare (content : List Char) : Prop where
  printable : ∀ c ∈ content, isPlainChar c = true
  unmixed : anyAdjacent areMixed content = false
  unbroken : ∀ c ∈ content, isBreak c = false
  opened : content.head? ≠ some ' '
  closed : content.getLast? ≠ some ' '
  noIndicator : beginsWithIndicator content = false
  quiet : ∀ c rest, content = c :: rest → holdsIndicator c rest = false
  free : isReserved content = false

/-- A text that can be plain is bare. -/
theorem isBare_of_canBePlain (simple : needsDouble content = false)
    (plain : canBePlain content = true) : IsBare content := by
  simp only [canBePlain, Bool.and_eq_true, bne_iff_ne, Bool.not_eq_true'] at plain
  obtain ⟨⟨⟨⟨⟨⟨opened, closed⟩, unbroken⟩, -⟩, noIndicator⟩, quiet⟩, free⟩ := plain
  obtain ⟨printable, unmixed⟩ := needsDouble_eq_false simple
  refine ⟨printable, unmixed, by simpa using unbroken, opened, closed, noIndicator, ?_, free⟩
  rintro c rest rfl
  exact quiet

/-- Double quotes are for texts that need them, no quotes for those that can do without, single
quotes for the rest. -/
theorem styleOf_cases (content : List Char) :
    styleOf content = .double ∧ needsDouble content = true ∨
      styleOf content = .plain ∧ needsDouble content = false ∧ IsBare content ∨
      styleOf content = .single ∧ needsDouble content = false := by
  unfold styleOf
  split
  · rename_i needed
    exact .inl ⟨rfl, needed⟩
  · rename_i needless
    have simple : needsDouble content = false := by simpa using needless
    split
    · rename_i plain
      exact .inr (.inl ⟨rfl, simple, isBare_of_canBePlain simple plain⟩)
    · exact .inr (.inr ⟨rfl, simple⟩)

/-- Without spaces and breaks in front, the first stretch of a text is a word. -/
theorem exists_word_of_alternates (alternates : Alternates row) (joined : textOf row = c :: rest)
    (notSpace : c ≠ ' ') (notBreak : isBreak c = false) :
    ∃ word behind, row = .word (c :: word) :: behind ∧ rest = word ++ textOf behind := by
  -- The first stretch begins with the character, so it is a word.
  cases row with
  | nil => cases joined
  | cons stretch behind =>
    rw [textOf_cons] at joined
    cases stretch with
    | word text =>
      obtain ⟨d, word, rfl⟩ := List.exists_cons_of_ne_nil alternates.head.1
      obtain ⟨rfl, rfl⟩ := List.cons.inj joined
      exact ⟨word, behind, rfl, rfl⟩
    | spaces count =>
      obtain ⟨count, rfl⟩ := Nat.exists_eq_succ_of_ne_zero (Nat.ne_of_gt alternates.head)
      exact absurd (List.cons.inj joined).1.symm notSpace
    | breaks text =>
      obtain ⟨d, word, rfl⟩ := List.exists_cons_of_ne_nil alternates.head.1
      have isBreak := alternates.head.2 d List.mem_cons_self
      rw [(List.cons.inj joined).1, notBreak] at isBreak
      cases isBreak

/-- A text that can stand without quotes is read back. -/
theorem IsBare.readScalar (bare : IsBare content) {indent : Nat} (deep : least ≤ indent)
    (positive : 0 < indent) (ends : BeginsBefore least rest) (column : Nat) :
    ∃ c tail, foldPlain indent column (stretches content) ++ '\n' :: rest = c :: tail ∧
      isOpening c = true ∧
      readScalar least (c :: tail) = some (.text (String.ofList content), '\n' :: rest) := by
  have alternates := alternates_stretches bare.unmixed
  have joined := textOf_stretches content
  generalize stretches content = row at alternates joined
  cases content with
  | nil => exact absurd bare.free (by simp [isReserved, reservedWords])
  | cons c content =>
    have notSpace : c ≠ ' ' := by simpa using bare.opened
    have notBreak := bare.unbroken c List.mem_cons_self
    have solid : isSolid c = true := by
      simp [isSolid, bare.printable c List.mem_cons_self, notSpace, notBreak]
    obtain ⟨word, behind, rfl, split⟩ :=
      exists_word_of_alternates alternates joined notSpace notBreak
    have written : foldPlain indent column (.word (c :: word) :: behind) ++ '\n' :: rest =
        c :: (word ++ (foldPlain indent (column + (c :: word).length) behind ++ '\n' :: rest)) := by
      simp [foldPlain]
    -- The first character is an indicator in what is written only if it is one in the text.
    have unbroken : ∀ d ∈ textOf behind, isBreak d = false := by
      intro d inside
      exact bare.unbroken d (List.mem_cons_of_mem c (split ▸ List.mem_append_right word inside))
    obtain ⟨separated, separatedToo⟩ :=
      separatedFrom_foldPlain alternates.tail unbroken alternates.noWord indent
        (column + (c :: word).length) rest
    have noIndicator : beginsWithIndicator
        (c :: (word ++ (foldPlain indent (column + (c :: word).length) behind ++ '\n' :: rest))) =
          false := by
      rw [beginsWithIndicator, separatedFrom_append separatedToo separated, ← split]
      exact bare.noIndicator
    -- As the first character it is no comment sign, so any letter may be thought of in front.
    have quiet : holdsIndicator 'a' (textOf (.word (c :: word) :: behind)) = false := by
      have noColon : (c == ':' && separatedFrom content) = false := by
        by_contra isColon
        have unquiet := bare.noIndicator
        simp_all [beginsWithIndicator]
      rw [joined, holdsIndicator, noColon, bare.quiet c content rfl]
      simp [isSeparation, isBreak]
    have opening : isOpening c = true := by
      have notSign : c ≠ '#' := by
        rintro rfl
        exact absurd bare.noIndicator (by simp [beginsWithIndicator])
      simp [isOpening, notSpace, notSign, endsLine_of_isSolid solid]
    refine ⟨c, _, written, opening, ?_⟩
    rw [← joined] at bare
    rw [readScalar_of_plain solid noIndicator, ← written,
      readPlain_foldPlain deep positive ends alternates
      bare.printable bare.unbroken bare.closed quiet (.inl ⟨rfl, rfl⟩), joined]
    rw [joined] at bare
    exact congrArg (Option.map _) (resolve?_of_unreserved bare.free)

end Lineage.Yaml
