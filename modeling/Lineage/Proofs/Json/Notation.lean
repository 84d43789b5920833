import Lineage.Json
import Lineage.Json.Reader
import Mathlib.Data.Option.Basic

/-! Which texts notate data, and that each of them is read as the data it notates. -/

namespace Lineage.Json

open Lineage.Text

/-- Each hexadecimal digit has its own value. -/
theorem hexValue?_hexDigit {digit : Nat} (small : digit < 16) :
    hexValue? (hexDigit .lower digit) = some digit := by
  have each : ∀ digit < 16, hexValue? (hexDigit .lower digit) = some digit := by decide
  exact each digit small

/-- Four hexadecimal digits have the value of the 16-bit unit that they write. -/
theorem hexNumber?_hexDigits {unit : Nat} (small : unit < 0x10000) :
    hexNumber? (hexDigits .lower 4 unit) = some unit := by
  -- From the lowest digit to the highest, each is what is left after a division.
  have first : hexValue? (hexDigit .lower (unit / 16 / 16 / 16 % 16)) = _ :=
    hexValue?_hexDigit (by omega)
  have second : hexValue? (hexDigit .lower (unit / 16 / 16 % 16)) = _ :=
    hexValue?_hexDigit (by omega)
  have third : hexValue? (hexDigit .lower (unit / 16 % 16)) = _ := hexValue?_hexDigit (by omega)
  have fourth : hexValue? (hexDigit .lower (unit % 16)) = _ := hexValue?_hexDigit (by omega)
  simp only [hexNumber?, hexDigits, List.nil_append, List.cons_append, List.foldl_cons,
    List.foldl_nil, first, second, third, fourth, Option.bind_eq_bind, Option.bind_some,
    Option.pure_def, Option.some.injEq]
  omega

/-- The code points of characters leave a gap for the surrogates. -/
theorem toNat_apart (c : Char) : c.toNat < 0xD800 ∨ 0xDFFF < c.toNat ∧ c.toNat < 0x110000 :=
  c.valid

/-- A character that stands for itself is no surrogate. -/
theorem joinSurrogates_cons (c : Char) (units : List Nat) :
    joinSurrogates (c.toNat :: units) = (joinSurrogates units).map (c :: ·) := by
  -- A character is no surrogate.
  have apart := toNat_apart c
  have notHigh : (0xD800 ≤ c.toNat && c.toNat < 0xDC00) = false := by simp; omega
  have notLow : (0xDC00 ≤ c.toNat && c.toNat < 0xE000) = false := by simp; omega
  cases units with
  | nil =>
    have neither : (0xD800 ≤ c.toNat && c.toNat < 0xE000) = false := by simp; omega
    simp [joinSurrogates, neither]
  | cons unit units =>
    rw [joinSurrogates, if_neg (by simp [notHigh]), if_neg (by simp [notLow]), Char.ofNat_toNat]
    cases joinSurrogates (unit :: units) with
    | none => rfl
    | some text => rfl

variable {c : Char} {text gap : List Char}

/-- The two surrogates of a character beyond 16 bits are joined again. -/
theorem joinSurrogates_pair (beyond : 0x10000 ≤ c.toNat) (units : List Nat) :
    joinSurrogates ((0xD800 + (c.toNat - 0x10000) / 0x400) ::
      (0xDC00 + (c.toNat - 0x10000) % 0x400) :: units) =
      (joinSurrogates units).map (c :: ·) := by
  -- The two units are a high and a low surrogate, and together they give the point back.
  have apart := toNat_apart c
  have isHigh : (0xD800 ≤ 0xD800 + (c.toNat - 0x10000) / 0x400 &&
      0xD800 + (c.toNat - 0x10000) / 0x400 < 0xDC00) = true := by simp; omega
  have isLow : (0xDC00 ≤ 0xDC00 + (c.toNat - 0x10000) % 0x400 &&
      0xDC00 + (c.toNat - 0x10000) % 0x400 < 0xE000) = true := by simp; omega
  have joined : 0x10000 + (0xD800 + (c.toNat - 0x10000) / 0x400 - 0xD800) * 0x400 +
      (0xDC00 + (c.toNat - 0x10000) % 0x400 - 0xDC00) = c.toNat := by omega
  rw [joinSurrogates, if_pos isHigh, isLow, joined, Char.ofNat_toNat]
  cases joinSurrogates units with
  | none => rfl
  | some text => rfl

/-- How the characters of a text may be spelled between quotes: each as itself, by a letter behind a
backslash, by its number, or by the numbers of its two surrogates. -/
inductive Spells : List Char → List Char → Prop where
  | nothing : Spells [] []
  | plain {c : Char} {text inside : List Char} : 32 ≤ c.toNat → c ≠ '"' → c ≠ '\\' →
    Spells text inside →
    Spells (c :: text) (c :: inside)
  | letter {letter c : Char} {text inside : List Char} : escape? letter = some c →
    Spells text inside →
    Spells (c :: text) ('\\' :: letter :: inside)
  | unit {c : Char} {text inside : List Char} : c.toNat < 0x10000 → Spells text inside →
    Spells (c :: text) (unit16 c.toNat ++ inside)
  | pair {c : Char} {text inside : List Char} : 0x10000 ≤ c.toNat → Spells text inside →
    Spells (c :: text) (unit16 (0xD800 + (c.toNat - 0x10000) / 0x400) ++
      (unit16 (0xDC00 + (c.toNat - 0x10000) % 0x400) ++ inside))

/-- The ways in which a character is written between quotes. -/
theorem character_cases (c : Char) :
    (∃ letter ∈ ['"', '\\', 'n', 'r', 't', 'f', 'b'], escape? letter = some c ∧
      character c = ['\\', letter]) ∨
      (32 ≤ c.toNat ∧ c.toNat < 127 ∧ c ≠ '"' ∧ c ≠ '\\' ∧ character c = [c]) ∨
      (c.toNat < 0x10000 ∧ character c = unit16 c.toNat) ∨
      (0x10000 ≤ c.toNat ∧ character c = unit16 (0xD800 + (c.toNat - 0x10000) / 0x400) ++
        unit16 (0xDC00 + (c.toNat - 0x10000) % 0x400)) := by
  -- Each letter is tried in turn, and only then the code point decides.
  by_cases quote : c = '"'
  · exact .inl ⟨'"', by decide, by subst quote; exact ⟨rfl, rfl⟩⟩
  by_cases backslash : c = '\\'
  · exact .inl ⟨'\\', by decide, by subst backslash; exact ⟨rfl, rfl⟩⟩
  by_cases newLine : c = '\n'
  · exact .inl ⟨'n', by decide, by subst newLine; exact ⟨rfl, rfl⟩⟩
  by_cases return_ : c = '\r'
  · exact .inl ⟨'r', by decide, by subst return_; exact ⟨rfl, rfl⟩⟩
  by_cases tab : c = '\t'
  · exact .inl ⟨'t', by decide, by subst tab; exact ⟨rfl, rfl⟩⟩
  by_cases feed : c = '\x0c'
  · exact .inl ⟨'f', by decide, by subst feed; exact ⟨rfl, rfl⟩⟩
  by_cases back : c = '\x08'
  · exact .inl ⟨'b', by decide, by subst back; exact ⟨rfl, rfl⟩⟩
  right
  have reached : character c = if 32 ≤ c.toNat && c.toNat < 127 then [c]
      else if c.toNat < 0x10000 then unit16 c.toNat
      else unit16 (0xD800 + (c.toNat - 0x10000) / 0x400) ++
        unit16 (0xDC00 + (c.toNat - 0x10000) % 0x400) := by
    simp [character, quote, backslash, newLine, return_, tab, feed, back]
  by_cases plain : 32 ≤ c.toNat ∧ c.toNat < 127
  · exact .inl ⟨plain.1, plain.2, quote, backslash, by simp [reached, plain]⟩
  · by_cases small : c.toNat < 0x10000
    · exact .inr (.inl ⟨small, by simp [reached, plain, small]⟩)
    · exact .inr (.inr ⟨Nat.le_of_not_lt small, by simp [reached, plain, small]⟩)

/-- What is written for a character spells it. -/
theorem Spells.character {inside : List Char} (c : Char) (spells : Spells text inside) :
    Spells (c :: text) (character c ++ inside) := by
  rcases character_cases c with
    ⟨letter, -, stands, written⟩ | ⟨visible, -, notQuote, notBackslash, written⟩ | ⟨small, written⟩
      | ⟨beyond, written⟩
  · rw [written]
    exact .letter stands spells
  · rw [written]
    exact .plain visible notQuote notBackslash spells
  · rw [written]
    exact .unit small spells
  · rw [written, List.append_assoc]
    exact .pair beyond spells

/-- A number behind a backslash is read as one unit. -/
theorem readUnits_unit16 {unit : Nat} (small : unit < 0x10000) (text : List Char) :
    readUnits (unit16 unit ++ text) = (readUnits text).map fun read =>
      (unit :: read.1, read.2) := by
  have value := hexNumber?_hexDigits small
  simp only [unit16, hexDigits, List.nil_append, List.cons_append] at value ⊢
  rw [readUnits, value]
  cases readUnits text with
  | none => rfl
  | some read => rfl

/-- A letter behind a backslash is read as the character it stands for. -/
theorem readUnits_letter {letter : Char} (stands : escape? letter = some c) (text : List Char) :
    readUnits ('\\' :: letter :: text) = (readUnits text).map fun read =>
      (c.toNat :: read.1, read.2) := by
  -- The letter of a number stands for no character.
  have notNumber : letter ≠ 'u' := by
    rintro rfl
    cases stands
  rw [readUnits]
  · rw [stands]
    cases readUnits text with
    | none => rfl
    | some read => rfl
  · intro _ _ _ _ _ isNumber
    exact absurd isNumber notNumber

/-- A plain character is read as itself. -/
theorem readUnits_plain (visible : 32 ≤ c.toNat) (notQuote : c ≠ '"') (notBackslash : c ≠ '\\')
    (text : List Char) :
    readUnits (c :: text) = (readUnits text).map fun read => (c.toNat :: read.1, read.2) := by
  have allowed : (decide (32 ≤ c.toNat) && c != '\\') = true := by simp [visible, notBackslash]
  rw [readUnits]
  · rw [allowed]
    cases readUnits text with
    | none => rfl
    | some read => rfl
  · exact notQuote
  · intro _ _ _ _ _ isBackslash
    exact absurd isBackslash notBackslash
  · intro _ _ isBackslash
    exact absurd isBackslash notBackslash

/-- What is spelled up to a quote is read back. -/
theorem Spells.readText {inside : List Char} (spells : Spells text inside) (rest : List Char) :
    readText (inside ++ '"' :: rest) = some (String.ofList text, rest) := by
  -- Each way to spell a character makes units that join to it, and the others follow.
  have general : ∃ units, readUnits (inside ++ '"' :: rest) = some (units, rest) ∧
      joinSurrogates units = some text := by
    induction spells with
    | nothing => exact ⟨[], by simp [readUnits], rfl⟩
    | @plain c _ _ visible notQuote notBackslash _ ih =>
      obtain ⟨units, read, joined⟩ := ih
      refine ⟨c.toNat :: units, ?_, ?_⟩
      · rw [List.cons_append, readUnits_plain visible notQuote notBackslash, read]
        rfl
      · rw [joinSurrogates_cons, joined]
        rfl
    | @letter _ c _ _ stands _ ih =>
      obtain ⟨units, read, joined⟩ := ih
      refine ⟨c.toNat :: units, ?_, ?_⟩
      · rw [List.cons_append, List.cons_append, readUnits_letter stands, read]
        rfl
      · rw [joinSurrogates_cons, joined]
        rfl
    | @unit c _ _ small _ ih =>
      obtain ⟨units, read, joined⟩ := ih
      refine ⟨c.toNat :: units, ?_, ?_⟩
      · rw [List.append_assoc, readUnits_unit16 small, read]
        rfl
      · rw [joinSurrogates_cons, joined]
        rfl
    | @pair c _ _ beyond _ ih =>
      obtain ⟨units, read, joined⟩ := ih
      have apart := toNat_apart c
      refine ⟨(0xD800 + (c.toNat - 0x10000) / 0x400) :: (0xDC00 + (c.toNat - 0x10000) % 0x400) ::
        units, ?_, ?_⟩
      · rw [List.append_assoc, List.append_assoc, readUnits_unit16 (by omega),
          readUnits_unit16 (by omega), read]
        rfl
      · rw [joinSurrogates_pair beyond, joined]
        rfl
  obtain ⟨units, read, joined⟩ := general
  simp [Json.readText, read, joined]

/-- The blanks that may stand between the parts of a notation. -/
def isGap (c : Char) : Bool :=
  c == ' ' || c == '\t' || c == '\n' || c == '\r'

/-- A text of such blanks alone. -/
def Gap (text : List Char) : Prop :=
  ∀ c ∈ text, isGap c = true

theorem Gap.nil : Gap [] := by
  simp [Gap]

theorem Gap.space : Gap [' '] :=
  List.forall_mem_singleton.2 rfl

theorem Gap.append {left right : List Char} (blankLeft : Gap left) (blankRight : Gap right) :
    Gap (left ++ right) :=
  List.forall_mem_append.2 ⟨blankLeft, blankRight⟩

/-- Blanks are skipped up to the first character that is none. -/
theorem skipBlanks_gap (blank : Gap gap) (solid : isGap c = false) (rest : List Char) :
    skipBlanks (gap ++ c :: rest) = c :: rest := by
  show List.dropWhile isGap (gap ++ c :: rest) = c :: rest
  rw [List.dropWhile_append_of_pos blank]
  exact List.dropWhile_cons_of_neg (by simp [solid])

mutual

/-- A text notates data. Numbers have no notation here, since graphs hold none. -/
inductive Notates : Data → List Char → Prop where
  | null : Notates .null ['n', 'u', 'l', 'l']
  | boolean (value : Bool) : Notates (.boolean value) (truth value)
  | text {value : String} {inside : List Char} : Spells value.toList inside →
    Notates (.text value) ('"' :: (inside ++ ['"']))
  | noItems {gap : List Char} : Gap gap → Notates (.list []) ('[' :: (gap ++ [']']))
  | list {items : List Data} {inside : List Char} : NotatesItems items inside →
    Notates (.list items) ('[' :: (inside ++ [']']))
  | noFields {gap : List Char} : Gap gap → Notates (.record []) ('{' :: (gap ++ ['}']))
  | record {fields : List (String × Data)} {inside : List Char} : NotatesFields fields inside →
    Notates (.record fields) ('{' :: (inside ++ ['}']))

/-- A text notates one or more items with commas between them. -/
inductive NotatesItems : List Data → List Char → Prop where
  | last {item : Data} {front one back : List Char} : Gap front → Notates item one → Gap back →
    NotatesItems [item] (front ++ (one ++ back))
  | more {item : Data} {items : List Data} {front one back rest : List Char} : Gap front →
    Notates item one →
    Gap back → NotatesItems items rest →
      NotatesItems (item :: items) (front ++ (one ++ (back ++ ',' :: rest)))

/-- A text notates one or more fields with commas between them. -/
inductive NotatesFields : List (String × Data) → List Char → Prop where
  | last {name : String} {value : Data} {front inside gap middle one back : List Char} : Gap front →
    Spells name.toList inside → Gap gap → Gap middle → Notates value one → Gap back →
    NotatesFields [(name, value)]
      (front ++ '"' :: (inside ++ '"' :: (gap ++ ':' :: (middle ++ (one ++ back)))))
  | more {name : String} {value : Data} {fields : List (String × Data)}
    {front inside gap middle one back rest : List Char} : Gap front →
    Spells name.toList inside → Gap gap → Gap middle → Notates value one → Gap back →
      NotatesFields fields rest →
    NotatesFields ((name, value) :: fields)
      (front ++ '"' :: (inside ++ '"' ::
        (gap ++ ':' :: (middle ++ (one ++ (back ++ ',' :: rest))))))

end

/-- Blanks may stand before items. -/
theorem NotatesItems.gap_append {items : List Data} (notates : NotatesItems items text)
    (blank : Gap gap) : NotatesItems items (gap ++ text) := by
  cases notates with
  | last front one back =>
    rw [← List.append_assoc]
    exact .last (blank.append front) one back
  | more front one back more =>
    rw [← List.append_assoc]
    exact .more (blank.append front) one back more

/-- Blanks may stand before fields. -/
theorem NotatesFields.gap_append {fields : List (String × Data)}
    (notates : NotatesFields fields text) (blank : Gap gap) :
    NotatesFields fields (gap ++ text) := by
  cases notates with
  | last front spells before behind one back =>
    rw [← List.append_assoc]
    exact .last (blank.append front) spells before behind one back
  | more front spells before behind one back more =>
    rw [← List.append_assoc]
    exact .more (blank.append front) spells before behind one back more

/-- A notation begins with a character that is neither blank nor closes anything. -/
theorem Notates.head {data : Data} (notates : Notates data text) :
    ∃ c rest, text = c :: rest ∧ isGap c = false ∧ c ≠ ']' := by
  cases notates with
  | boolean value => cases value <;> exact ⟨_, _, rfl, by decide⟩
  | null | text | noItems | list | noFields | record => exact ⟨_, _, rfl, by decide⟩

/-- Blanks before a notation are skipped. -/
theorem Notates.skipBlanks {data : Data} (notates : Notates data text) {front : List Char}
    (blank : Gap front) (rest : List Char) :
    skipBlanks (front ++ (text ++ rest)) = text ++ rest := by
  obtain ⟨c, more, rfl, solid, -⟩ := notates.head
  exact skipBlanks_gap blank solid (more ++ rest)

/-- Items do not begin with the bracket that closes a list. -/
theorem NotatesItems.notClosed {items : List Data} (notates : NotatesItems items text)
    (rest after : List Char) : Json.skipBlanks (text ++ rest) ≠ ']' :: after := by
  cases notates with
  | last blank one _ | more blank one _ _ =>
    obtain ⟨c, more, rfl, solid, notClosing⟩ := one.head
    rw [List.append_assoc, List.append_assoc, List.cons_append, skipBlanks_gap blank solid]
    intro same
    exact notClosing (List.cons.inj same).1

/-- Fields do not begin with the brace that closes a record. -/
theorem NotatesFields.notClosed {fields : List (String × Data)}
    (notates : NotatesFields fields text) (rest after : List Char) :
    Json.skipBlanks (text ++ rest) ≠ '}' :: after := by
  cases notates with
  | last blank | more blank =>
    rw [List.append_assoc, List.cons_append, skipBlanks_gap blank (by decide)]
    intro same
    exact absurd (List.cons.inj same).1 (by decide)

mutual

/-- What notates data is read as that data. Each nesting has a character for each call that it
takes. -/
theorem Notates.readValue {data : Data} {text : List Char} (notates : Notates data text)
    {fuel : Nat} {front : List Char} (blank : Gap front) (rest : List Char)
    (enough : text.length ≤ fuel) :
    readValue fuel (front ++ (text ++ rest)) = some (data, rest) := by
  -- By the form of the data; items and fields are read by the lemmas below, with less fuel.
  obtain ⟨fuel, rfl⟩ : ∃ less, fuel = less + 1 := by
    obtain ⟨c, more, rfl, -⟩ := notates.head
    exact ⟨fuel - 1, by simp at enough; omega⟩
  rw [Json.readValue, notates.skipBlanks blank]
  match notates with
  | .null => rfl
  | .boolean true => rfl
  | .boolean false => rfl
  | .text spells => simp [spells.readText]
  | .noItems gap => simp [skipBlanks_gap gap (c := ']') (by decide)]
  | .list items =>
    have read := items.readItems rest (show _ < fuel by simp at enough; omega)
    simp only [List.cons_append, List.append_assoc, List.nil_append]
    split
    · next closed => exact absurd closed (items.notClosed _ _)
    · rw [read]
      rfl
  | .noFields gap => simp [skipBlanks_gap gap (c := '}') (by decide)]
  | .record fields =>
    have read := fields.readFields rest (show _ < fuel by simp at enough; omega)
    simp only [List.cons_append, List.append_assoc, List.nil_append]
    split
    · next closed => exact absurd closed (fields.notClosed _ _)
    · rw [read]
      rfl

/-- Items are read up to the bracket behind them. -/
theorem NotatesItems.readItems {items : List Data} {text : List Char}
    (notates : NotatesItems items text) {fuel : Nat} (rest : List Char)
    (enough : text.length < fuel) :
    readItems fuel (text ++ ']' :: rest) = some (items, rest) := by
  -- The first item is read, and then a comma or the bracket decides.
  obtain ⟨fuel, rfl⟩ : ∃ less, fuel = less + 1 := ⟨fuel - 1, by omega⟩
  match notates with
  | .last blank one back =>
    simp only [List.length_append] at enough
    simp only [List.append_assoc, Json.readItems]
    rw [one.readValue blank _ (by omega), Option.bind_eq_bind, Option.bind_some,
      skipBlanks_gap back (by decide)]
    rfl
  | .more blank one back more =>
    simp only [List.length_append, List.length_cons] at enough
    simp only [List.append_assoc, List.cons_append, Json.readItems]
    rw [one.readValue blank _ (by omega), Option.bind_eq_bind, Option.bind_some,
      skipBlanks_gap back (by decide)]
    simp only [more.readItems rest (show _ < fuel by omega)]
    rfl

/-- Fields are read up to the brace behind them. -/
theorem NotatesFields.readFields {fields : List (String × Data)} {text : List Char}
    (notates : NotatesFields fields text) {fuel : Nat} (rest : List Char)
    (enough : text.length < fuel) :
    readFields fuel (text ++ '}' :: rest) = some (fields, rest) := by
  -- The name, the colon and the value are read, and then a comma or the brace decides.
  obtain ⟨fuel, rfl⟩ : ∃ less, fuel = less + 1 := ⟨fuel - 1, by omega⟩
  match notates with
  | .last blank spells gap middle one back =>
    simp only [List.length_append, List.length_cons] at enough
    simp only [List.append_assoc, List.cons_append, Json.readFields,
      skipBlanks_gap blank (c := '"') (by decide)]
    rw [spells.readText, Option.bind_eq_bind, Option.bind_some]
    simp only [skipBlanks_gap gap (c := ':') (by decide)]
    rw [one.readValue middle _ (by omega), Option.bind_eq_bind, Option.bind_some,
      skipBlanks_gap back (by decide)]
    simp
  | .more blank spells gap middle one back more =>
    simp only [List.length_append, List.length_cons] at enough
    simp only [List.append_assoc, List.cons_append, Json.readFields,
      skipBlanks_gap blank (c := '"') (by decide)]
    rw [spells.readText, Option.bind_eq_bind, Option.bind_some]
    simp only [skipBlanks_gap gap (c := ':') (by decide)]
    rw [one.readValue middle _ (by omega), Option.bind_eq_bind, Option.bind_some,
      skipBlanks_gap back (by decide)]
    simp only [more.readFields rest (show _ < fuel by omega)]
    simp

end

/-- Whole texts that notate data are read as that data. -/
theorem Notates.parse? {data : Data} (notates : Notates data text) : parse? text = some data := by
  have read := notates.readValue Gap.nil [] (show text.length ≤ 2 * text.length + 2 by omega)
  rw [List.append_nil, List.nil_append] at read
  rw [Json.parse?, read]
  rfl

end Lineage.Json
