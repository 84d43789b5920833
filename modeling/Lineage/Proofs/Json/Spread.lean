import Lineage.Proofs.Page.Script

/-! Data spread over lines is a notation of the data in ASCII. -/

namespace Lineage.Json

open Lineage.Page Lineage.Text

/-- A text of ASCII characters. -/
def Ascii (text : List Char) : Prop :=
  ∀ c ∈ text, c.toNat < 128

instance decidableAscii (text : List Char) : Decidable (Ascii text) :=
  decidableForallMem text

theorem Ascii.append {left right : List Char} (asciiLeft : Ascii left) (asciiRight : Ascii right) :
    Ascii (left ++ right) :=
  List.forall_mem_append.2 ⟨asciiLeft, asciiRight⟩

/-- Whatever a character is, it is written in ASCII. -/
theorem ascii_character (c : Char) : Ascii (character c) := by
  by_cases isOpen : c = '<'
  · subst isOpen
    decide
  · intro d mem
    have printable := (printable_character isOpen d mem).1.2
    omega

/-- A text between quotes is in ASCII. -/
theorem ascii_quotation (text : String) : Ascii (quotation text) := by
  have inside : Ascii (text.toList.flatMap character) := by
    intro d mem
    obtain ⟨c, -, written⟩ := List.mem_flatMap.1 mem
    exact ascii_character c d written
  have quote : Ascii ['"'] := by decide
  exact (quote.append inside).append quote

/-- A text between quotes spells the text. -/
theorem spells_flatMap_character (text : List Char) : Spells text (text.flatMap character) := by
  induction text with
  | nil => exact .nothing
  | cons c text ih => exact ih.character c

/-- The beginning of a line is blank. -/
theorem gap_newLine (depth : Nat) : Gap (newLine depth) := by
  intro c mem
  rcases List.mem_cons.1 mem with rfl | indent
  · rfl
  · rw [List.eq_of_mem_replicate indent]
    rfl

/-- Blanks are ASCII. -/
theorem Gap.ascii {text : List Char} (blank : Gap text) : Ascii text := by
  intro c mem
  have gap := blank c mem
  simp only [isGap, Bool.or_eq_true, beq_iff_eq] at gap
  rcases gap with ((rfl | rfl) | rfl) | rfl <;> decide

/-- Data that is notated in ASCII when it is spread, however far it is indented. -/
def SpreadsInAscii (data : Data) : Prop :=
  ∀ depth, Notates data (spread depth data) ∧ Ascii (spread depth data)

/-- Items on lines of their own are notated, with any blanks before the bracket that closes them. -/
theorem notates_spreadItems {item : Data} {more : List Data}
    (each : ∀ one ∈ item :: more, SpreadsInAscii one) (depth : Nat) {gap : List Char}
    (blank : Gap gap) :
    NotatesItems (item :: more) (spreadItems depth (item :: more) ++ gap) ∧
      Ascii (spreadItems depth (item :: more)) := by
  have line := gap_newLine depth
  induction more generalizing item with
  | nil =>
    obtain ⟨notates, ascii⟩ := each item List.mem_cons_self depth
    refine ⟨?_, line.ascii.append ascii⟩
    simpa [spreadItems] using NotatesItems.last line notates blank
  | cons next more ih =>
    obtain ⟨notates, ascii⟩ := each item List.mem_cons_self depth
    obtain ⟨notatesMore, asciiMore⟩ := ih fun one mem => each one (List.mem_cons_of_mem item mem)
    have comma : Ascii [','] := by decide
    refine ⟨?_, ((line.ascii.append ascii).append comma).append asciiMore⟩
    -- The blanks between two items are the line break, which stands behind the comma.
    simpa [spreadItems] using NotatesItems.more line notates Gap.nil notatesMore

/-- Fields on lines of their own are notated, with any blanks before the brace that closes them. -/
theorem notates_spreadFields {entry : String × Data} {more : List (String × Data)}
    (each : ∀ one ∈ entry :: more, SpreadsInAscii one.2) (depth : Nat) {gap : List Char}
    (blank : Gap gap) :
    NotatesFields (entry :: more) (spreadFields depth (entry :: more) ++ gap) ∧
      Ascii (spreadFields depth (entry :: more)) := by
  -- Field by field; each stands on a line of its own.
  have line := gap_newLine depth
  have colon : Ascii [':', ' '] := by decide
  have comma : Ascii [','] := by decide
  induction more generalizing entry with
  | nil =>
    obtain ⟨name, value⟩ := entry
    obtain ⟨notates, ascii⟩ := each (name, value) List.mem_cons_self depth
    refine ⟨?_, ((line.ascii.append (ascii_quotation name)).append colon).append ascii⟩
    have last :=
      NotatesFields.last line (spells_flatMap_character name.toList) Gap.nil Gap.space notates blank
    simpa [spreadFields, quotation] using last
  | cons next more ih =>
    obtain ⟨name, value⟩ := entry
    obtain ⟨notates, ascii⟩ := each (name, value) List.mem_cons_self depth
    obtain ⟨notatesMore, asciiMore⟩ := ih fun one mem => each one (List.mem_cons_of_mem _ mem)
    refine ⟨?_, ((((line.ascii.append (ascii_quotation name)).append colon).append
      ascii).append comma).append asciiMore⟩
    have more := NotatesFields.more line (spells_flatMap_character name.toList) Gap.nil Gap.space
      notates Gap.nil notatesMore
    simpa [spreadFields, quotation] using more

/-- Data without numbers is notated in ASCII when it is spread. -/
theorem spreadsInAscii_of_numberless {data : Data} (numberless : Numberless data) :
    SpreadsInAscii data := by
  induction numberless with
  | null => exact fun depth => ⟨by rw [spread]; exact .null, by rw [spread]; decide⟩
  | boolean value =>
    intro depth
    rw [spread]
    refine ⟨.boolean value, ?_⟩
    cases value <;> decide
  | text value =>
    intro depth
    rw [spread]
    exact ⟨.text (spells_flatMap_character value.toList), ascii_quotation value⟩
  | @list items _ each =>
    intro depth
    have left : Ascii ['['] := by decide
    have right : Ascii [']'] := by decide
    cases items with
    | nil =>
      rw [spread]
      exact ⟨.noItems Gap.nil, left.append right⟩
    | cons item more =>
      -- The items stand one step further in than the bracket that closes them.
      obtain ⟨notates, ascii⟩ := notates_spreadItems each (depth + 1) (gap_newLine depth)
      rw [spread]
      exact ⟨.list notates, ((left.append ascii).append (gap_newLine depth).ascii).append right⟩
  | @record fields _ each =>
    intro depth
    have left : Ascii ['{'] := by decide
    have right : Ascii ['}'] := by decide
    cases fields with
    | nil =>
      rw [spread]
      exact ⟨.noFields Gap.nil, left.append right⟩
    | cons entry more =>
      obtain ⟨notates, ascii⟩ := notates_spreadFields each (depth + 1) (gap_newLine depth)
      rw [spread]
      exact ⟨.record notates, ((left.append ascii).append (gap_newLine depth).ascii).append right⟩

end Lineage.Json
