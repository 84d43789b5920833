import Lineage.Proofs.Yaml.Quotation

/-! A text in the style chosen for it: what it is read back as, and when that is the text itself. -/

namespace Lineage.Yaml

open Lineage.Text

/-- What a text is read back as, in the style in which it is written. -/
def reread (content : List Char) : List Char :=
  match styleOf content with
  | .single => rereadOf (stretches content)
  | _ => content

/-- The character that moves to the next line. -/
def nextLine : Char :=
  '\u0085'

variable {c : Char} {row : List Stretch}

/-- There are four characters that break lines. -/
theorem isBreak_iff : isBreak c = true ↔ c = '\n' ∨ c = nextLine ∨ c = '\u2028' ∨ c = '\u2029' := by
  have point : ∀ d : Char, c.toNat = d.toNat ↔ c = d := fun d => Char.toNat_inj
  simp only [isBreak, Bool.or_eq_true, beq_iff_eq, or_assoc]
  exact Iff.or Iff.rfl (Iff.or (point nextLine) (Iff.or (point '\u2028') (point '\u2029')))

/-- Only the next-line character is changed among the breaks. -/
theorem normalBreak_of_isBreak (breaks : isBreak c = true) (other : c ≠ nextLine) :
    normalBreak c = c := by
  rcases isBreak_iff.1 breaks with rfl | rfl | rfl | rfl
  · rfl
  · exact absurd rfl other
  · rfl
  · rfl

/-- No break is normalized to the next-line character. -/
theorem normalBreak_ne_nextLine (c : Char) : normalBreak c ≠ nextLine := by
  unfold normalBreak
  split
  · rename_i separator
    rintro rfl
    exact absurd separator (by decide)
  · decide

/-- Breaks without next-line characters are read back. -/
theorem rereadBreaks_eq {breaks : List Char} (all : ∀ c ∈ breaks, isBreak c = true)
    (without : nextLine ∉ breaks) :
    rereadBreaks breaks = breaks := by
  cases breaks with
  | nil => rfl
  | cons first later =>
    have kept : (first :: later).map normalBreak = (first :: later).map id := by
      apply List.map_congr_left
      intro c inside
      exact normalBreak_of_isBreak (all c inside) (fun same => without (same ▸ inside))
    have notNext : first.toNat ≠ 0x85 := by
      intro isNext
      exact without (List.mem_cons.2 (.inl (Char.toNat_inj.1 isNext).symm))
    simpa [rereadBreaks, notNext] using kept

/-- No next-line character is read back from breaks. -/
theorem nextLine_notMem_rereadBreaks (breaks : List Char) : nextLine ∉ rereadBreaks breaks := by
  -- Each break is normalized, and the first one is dropped if it is such a character.
  have normal : ∀ text : List Char, nextLine ∉ text.map normalBreak := by
    intro text inside
    obtain ⟨c, -, same⟩ := List.mem_map.1 inside
    exact normalBreak_ne_nextLine c same
  cases breaks with
  | nil => exact List.not_mem_nil
  | cons first later =>
    rw [rereadBreaks]
    split
    · split
      · decide
      · exact normal later
    · exact normal (first :: later)

/-- Between single quotes a row of stretches without next-line characters is read back. -/
theorem rereadOf_eq (alternates : Alternates row) (without : nextLine ∉ textOf row) :
    rereadOf row = textOf row := by
  -- Stretch by stretch; only breaks could be changed.
  induction row with
  | nil => rfl
  | cons stretch row ih =>
    rw [textOf_cons, List.mem_append, not_or] at without
    have behind := ih alternates.tail without.2
    have here : stretch.reread = stretch.text := by
      cases stretch with
      | word text => rfl
      | spaces count => rfl
      | breaks text => exact rereadBreaks_eq alternates.head.2 without.1
    rw [textOf_cons, ← here, ← behind]
    rfl

/-- Between single quotes no next-line character is read back. -/
theorem nextLine_notMem_rereadOf (alternates : Alternates row) : nextLine ∉ rereadOf row := by
  -- It is neither in a word nor a space, and breaks lose it.
  intro inside
  obtain ⟨stretch, listed, inside⟩ := List.mem_flatMap.1 inside
  have proper := alternates.proper stretch listed
  cases stretch with
  | word text => exact absurd (proper.2 nextLine inside).2 (by decide)
  | spaces count => exact absurd (List.eq_of_mem_replicate inside) (by decide)
  | breaks text => exact nextLine_notMem_rereadBreaks text inside

/-- A text is read back as itself if and only if it has no next-line character or needs double
quotes. -/
theorem reread_eq_iff (content : List Char) :
    reread content = content ↔ nextLine ∉ content ∨ needsDouble content = true := by
  -- Only in single quotes can such a character stand, and there it is changed.
  rcases styleOf_cases content with ⟨style, needed⟩ | ⟨style, -, bare⟩ | ⟨style, simple⟩
  · simp [reread, style, needed]
  · have without : nextLine ∉ content := by
      intro inside
      exact absurd (bare.unbroken nextLine inside) (by decide)
    simp [reread, style, without]
  · have alternates := alternates_stretches (needsDouble_eq_false simple).2
    have joined := textOf_stretches content
    simp only [reread, style, simple, Bool.false_eq_true, or_false]
    constructor
    · intro same
      rw [← same]
      exact nextLine_notMem_rereadOf alternates
    · intro without
      exact (rereadOf_eq alternates (joined.symm ▸ without)).trans joined

/-- In every style a blank comes first. -/
theorem exists_scalar (indent column : Nat) (text : String) :
    ∃ tail, scalar indent column text = ' ' :: tail := by
  rcases styleOf_cases text.toList with ⟨style, -⟩ | ⟨style, -⟩ | ⟨style, -⟩
  all_goals
    simp only [scalar, style]
    exact ⟨_, rfl⟩

/-- A text behind a blank is read back in the style in which it is written. -/
theorem readScalar_scalar {least indent : Nat} (deep : least ≤ indent) (positive : 0 < indent)
    (room : indent < bestWidth) {rest : List Char} (ends : BeginsBefore least rest) (column : Nat)
    (text : String) :
    ∃ c tail, scalar indent column text ++ '\n' :: rest = ' ' :: c :: tail ∧ isOpening c = true ∧
      readScalar least (c :: tail) = some
        (.text (String.ofList (reread text.toList)), '\n' :: rest) := by
  -- Each style has its own rules; in single quotes breaks are folded.
  rcases styleOf_cases text.toList with ⟨style, -⟩ | ⟨style, -, bare⟩ | ⟨style, simple⟩
  · have read : readQuotation true (.after .nothing)
        ([] ++ foldDouble indent (column + 2) true false text.toList ++ '"' :: '\n' :: rest) =
          some (Pause.nothing.text ++ text.toList, '\n' :: rest) :=
      readQuotation_foldDouble positive room _ _ (.inl ⟨rfl, rfl⟩)
    refine ⟨'"', foldDouble indent (column + 2) true false text.toList ++ '"' :: '\n' :: rest,
      ?_, by decide, ?_⟩
    · simp [scalar, style]
    · simp only [reread, style]
      exact congrArg (Option.map _) read
  · obtain ⟨c, tail, written, opening, read⟩ := bare.readScalar deep positive ends (column + 1)
    refine ⟨c, tail, ?_, opening, ?_⟩
    · simp [scalar, style, written]
    · simp only [reread, style]
      exact read
  · obtain ⟨printable, unmixed⟩ := needsDouble_eq_false simple
    have joined := textOf_stretches text.toList
    have read : readQuotation false (.after .nothing)
        (foldSingle indent (column + 2) true (stretches text.toList) ++ '\'' :: '\n' :: rest) =
          some (Pause.nothing.text ++ rereadOf (stretches text.toList), '\n' :: rest) :=
      readQuotation_foldSingle positive (by simp) (alternates_stretches unmixed) (by rwa [joined])
        (.inl rfl)
    refine ⟨'\'', foldSingle indent (column + 2) true (stretches text.toList) ++ '\'' :: '\n' ::
      rest, ?_, by decide, ?_⟩
    · simp [scalar, style]
    · simp only [reread, style]
      exact congrArg (Option.map _) read

/-- All the characters of a text may stand in a file. -/
def Readable (text : List Char) : Prop :=
  ∀ c ∈ text, isReadable c = true

theorem Readable.append {one other : List Char} (first : Readable one) (second : Readable other) :
    Readable (one ++ other) :=
  List.forall_mem_append.2 ⟨first, second⟩

theorem Readable.cons {text : List Char} (first : isReadable c = true) (rest : Readable text) :
    Readable (c :: text) :=
  List.forall_mem_cons.2 ⟨first, rest⟩

theorem readable_nil : Readable [] :=
  List.forall_mem_nil _

theorem readable_spaces (count : Nat) : Readable (List.replicate count ' ') := by
  intro c inside
  rw [List.eq_of_mem_replicate inside]
  decide

theorem readable_newLine (indent : Nat) : Readable (newLine indent) :=
  .cons (by decide) (readable_spaces indent)

theorem isReadable_of_isPlainChar (plain : isPlainChar c = true) : isReadable c = true := by
  simp only [isPlainChar, isReadable, Bool.or_eq_true, Bool.and_eq_true, decide_eq_true_eq,
    beq_iff_eq] at plain ⊢
  grind

theorem isReadable_of_isDoubleChar (own : isDoubleChar c = true) : isReadable c = true := by
  simp only [isDoubleChar, isReadable, Bool.or_eq_true, Bool.and_eq_true, decide_eq_true_eq,
    beq_iff_eq] at own ⊢
  grind

/-- A text without quotes is readable. -/
theorem readable_foldPlain (printable : ∀ c ∈ textOf row, isPlainChar c = true)
    (indent column : Nat) : Readable (foldPlain indent column row) := by
  -- Stretch by stretch; a fold is a new line.
  induction row generalizing column with
  | nil => exact readable_nil
  | cons stretch row ih =>
    rw [textOf_cons] at printable
    obtain ⟨printableHere, printableBehind⟩ := List.forall_mem_append.1 printable
    have here : Readable stretch.text :=
      fun c inside => isReadable_of_isPlainChar (printableHere c inside)
    cases stretch with
    | word text => exact .append here (ih printableBehind _)
    | breaks text => exact .append here (ih printableBehind _)
    | spaces count =>
      rw [foldPlain]
      split
      · exact .append (readable_newLine indent) (ih printableBehind _)
      · exact .append here (ih printableBehind _)

/-- A text in single quotes is readable. -/
theorem readable_foldSingle (printable : ∀ c ∈ textOf row, isPlainChar c = true)
    (indent column : Nat) (isFirst : Bool) : Readable (foldSingle indent column isFirst row) := by
  -- Stretch by stretch; quotes are doubled, and a fold is a new line.
  induction row generalizing column isFirst with
  | nil => exact readable_nil
  | cons stretch row ih =>
    rw [textOf_cons] at printable
    obtain ⟨printableHere, printableBehind⟩ := List.forall_mem_append.1 printable
    have here : Readable stretch.text :=
      fun c inside => isReadable_of_isPlainChar (printableHere c inside)
    cases stretch with
    | word text =>
      have doubled : Readable (doubleQuotes text) := by
        intro c inside
        obtain ⟨d, listed, inside⟩ := List.mem_flatMap.1 inside
        have same : c = d := by
          split at inside
          · simp_all
          · simpa using inside
        exact same ▸ here d listed
      exact .append doubled (ih printableBehind _ _)
    | breaks text =>
      have front : Readable (if text.head? == some '\n' then ['\n'] else []) := by
        split
        · exact .cons (by decide) readable_nil
        · exact readable_nil
      exact .append (.append (.append front here) (readable_spaces indent)) (ih printableBehind _ _)
    | spaces count =>
      rw [foldSingle]
      split
      · exact .append (readable_newLine indent) (ih printableBehind _ _)
      · exact .append here (ih printableBehind _ _)

/-- Digits are readable. -/
theorem readable_hexDigits (width number : Nat) : Readable (hexDigits .upper width number) := by
  induction width generalizing number with
  | zero => exact readable_nil
  | succ width ih =>
    have each : ∀ digit < 16, isReadable (hexDigit .upper digit) = true := by decide
    exact .append (ih _) (.cons (each _ (Nat.mod_lt number (by decide))) readable_nil)

/-- An escaped character is readable. -/
theorem readable_escaped (c : Char) : Readable (escaped c) := by
  -- It is a letter behind a backslash, or a letter and digits.
  unfold escaped
  split
  · rename_i letter written
    have letters : isReadable letter = true := by
      unfold escapeLetter? at written
      split at written <;> cases written <;> decide
    exact .cons (by decide) (.cons letters readable_nil)
  · split
    · exact .cons (by decide) (.cons (by decide) (readable_hexDigits _ _))
    · split
      · exact .cons (by decide) (.cons (by decide) (readable_hexDigits _ _))
      · exact .cons (by decide) (.cons (by decide) (readable_hexDigits _ _))

/-- A text in double quotes is readable. -/
theorem readable_foldDouble (indent column : Nat) (isFirst afterEscape : Bool)
    (content : List Char) :
    Readable (foldDouble indent column isFirst afterEscape content) := by
  -- Character by character; each stands for itself or is escaped, and a fold may follow.
  have marks : ∀ text, Readable (leadingSpaceMark text) := by
    intro text
    unfold leadingSpaceMark
    split
    · exact .cons (by decide) readable_nil
    · exact readable_nil
  have fold : Readable ('\\' :: newLine indent) := .cons (by decide) (readable_newLine indent)
  induction content generalizing column isFirst afterEscape with
  | nil => exact readable_nil
  | cons c content ih =>
    rw [foldDouble]
    dsimp only
    split
    · rename_i own
      have here := isReadable_of_isDoubleChar own
      split
      · exact .append (.append fold (marks _)) (.cons here (ih _ _ _))
      · exact .cons here (ih _ _ _)
    · split
      · exact .append (.append (.append (readable_escaped c) fold) (marks _)) (ih _ _ _)
      · exact .append (readable_escaped c) (ih _ _ _)

/-- What is written for a text may stand in a file. -/
theorem readable_scalar (indent column : Nat) (text : String) :
    Readable (scalar indent column text) := by
  -- Each style adds its quotes.
  have blank : isReadable ' ' = true := by decide
  have single : isReadable '\'' = true := by decide
  have double : isReadable '"' = true := by decide
  have printable : needsDouble text.toList = false → ∀ c ∈ textOf (stretches text.toList),
      isPlainChar c = true := by
    intro simple
    rw [textOf_stretches]
    exact (needsDouble_eq_false simple).1
  rcases styleOf_cases text.toList with ⟨style, -⟩ | ⟨style, simple, -⟩ | ⟨style, simple⟩
  · simp only [scalar, style]
    exact .append (.cons blank (.cons double (readable_foldDouble _ _ _ _ _)))
      (.cons double readable_nil)
  · simp only [scalar, style]
    exact .cons blank (readable_foldPlain (printable simple) _ _)
  · simp only [scalar, style]
    exact .append (.cons blank (.cons single (readable_foldSingle (printable simple) _ _ _)))
      (.cons single readable_nil)

end Lineage.Yaml
