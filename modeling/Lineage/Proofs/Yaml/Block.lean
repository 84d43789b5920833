import Lineage.Proofs.Yaml.Reread
import Lineage.Yaml

/-! What data written in block style is read back as, from its lines. -/

namespace Lineage

section Entries

variable {κ α : Type} [DecidableEq κ]

/-- A new name comes last. -/
theorem putEntry_of_notMem {name : κ} (value : α) {entries : List (κ × α)}
    (fresh : name ∉ entries.map Prod.fst) :
    putEntry name value entries = entries ++ [(name, value)] := by
  induction entries with
  | nil => rfl
  | cons entry entries ih =>
    obtain ⟨known, old⟩ := entry
    simp only [List.map_cons, List.mem_cons, not_or] at fresh
    rw [putEntry, if_neg (Ne.symm fresh.1), ih fresh.2]
    rfl

/-- Entries with distinct names stay as they are. -/
theorem Table.entries_ofEntries {entries : List (κ × α)} (distinct : (entries.map Prod.fst).Nodup) :
    (Table.ofEntries entries).entries = entries := by
  -- Each entry is put behind those before it, as its name is new.
  have general : ∀ (entries : List (κ × α)) (table : Table κ α),
      ((table.entries ++ entries).map Prod.fst).Nodup →
        (entries.foldl (fun table entry => table.put entry.1 entry.2) table).entries =
          table.entries ++ entries := by
    intro entries
    induction entries with
    | nil => simp
    | cons entry entries ih =>
      intro table distinct
      have fresh : entry.1 ∉ table.entries.map Prod.fst := by
        intro known
        rw [List.map_append, List.nodup_append] at distinct
        exact distinct.2.2 _ known _ (by simp) rfl
      have put : (table.put entry.1 entry.2).entries = table.entries ++ [entry] :=
        putEntry_of_notMem entry.2 fresh
      rw [List.foldl_cons, ih _ (by simpa [put] using distinct), put]
      simp
  exact general entries Table.empty distinct

end Entries

namespace Yaml

open Lineage.Text

variable {c : Char} {rest : List Char} {indent fuel : Nat} {content meant : List (String × Data)}

/-- A place at which something begins is not left. -/
theorem nextPlace_opening (opening : isOpening c = true) (column : Nat) (fresh : Bool)
    (rest : List Char) : nextPlace false column fresh (c :: rest) = ⟨c :: rest, column, fresh⟩ := by
  have notSpace : c ≠ ' ' := ne_of_class opening (by decide)
  have notSign : c ≠ '#' := ne_of_class opening (by decide)
  have notEnd := endsLine_of_isOpening opening
  rw [nextPlace, if_neg (by simp [notEnd]), if_neg (by simp [notSign]), if_neg (by simp [notSpace])]

/-- Spaces are passed, and the column grows with them. -/
theorem nextPlace_spaces (column : Nat) (fresh : Bool) (count : Nat) (rest : List Char) :
    nextPlace false column fresh (List.replicate count ' ' ++ rest) = nextPlace false
      (column + count) fresh rest := by
  induction count generalizing column with
  | zero => rfl
  | succ count ih =>
    rw [List.replicate_succ, List.cons_append, nextPlace, if_neg (by decide), if_neg (by decide),
      if_pos (by decide), ih, Nat.add_assoc, Nat.add_comm 1]

/-- The next place behind a line feed is the first character of the next line that is no space. -/
theorem nextPlace_line (opening : isOpening c = true) (column : Nat) (fresh : Bool) (indent : Nat)
    (rest : List Char) :
    nextPlace false column fresh
      ('\n' :: (List.replicate indent ' ' ++ c :: rest)) = ⟨c :: rest, indent, true⟩ := by
  rw [nextPlace, if_pos (by decide), nextPlace_spaces, nextPlace_opening opening, Nat.zero_add]

/-- What may follow a value of a record at a column: nothing, or a line that begins no further in
and no item there. -/
def Follows (column : Nat) (rest : List Char) : Prop :=
  rest = [] ∨ ∃ indent c more, rest = List.replicate indent ' ' ++ c :: more ∧ isOpening c = true ∧
    (indent < column ∨ indent = column ∧ beginsItem (c :: more) = false)

/-- What begins further out follows a value. -/
theorem BeginsBefore.follows {column : Nat} (begins : BeginsBefore column rest) :
    Follows column rest := by
  rcases begins with rfl | ⟨indent, c, more, rfl, further, opening⟩
  · exact .inl rfl
  · exact .inr ⟨indent, c, more, rfl, opening, .inl further⟩

/-- What follows a value begins before the next column. -/
theorem Follows.beginsBefore {column : Nat} (follows : Follows column rest) :
    BeginsBefore (column + 1) rest := by
  rcases follows with rfl | ⟨indent, c, more, rfl, opening, outside⟩
  · exact .inl rfl
  · exact .inr ⟨indent, c, more, rfl, by omega, opening⟩

/-- Letters of the alphabet. -/
def isLetter (c : Char) : Bool :=
  let point := c.toNat
  (0x41 ≤ point && point ≤ 0x5A) || (0x61 ≤ point && point ≤ 0x7A)

/-- Letters are solid. -/
theorem isSolid_of_isLetter (letter : isLetter c = true) : isSolid c = true := by
  have notSpace : c ≠ ' ' := ne_of_class letter (by decide)
  have notFeed : c ≠ '\n' := ne_of_class letter (by decide)
  simp only [isLetter, Bool.or_eq_true, Bool.and_eq_true, decide_eq_true_eq] at letter
  have printable : isPlainChar c = true := by
    simp only [isPlainChar, Bool.or_eq_true, Bool.and_eq_true, decide_eq_true_eq]
    omega
  have notBreak : isBreak c = false := by
    simp only [isBreak, Bool.or_eq_false_iff, beq_eq_false_iff_ne]
    exact ⟨⟨⟨notFeed, by omega⟩, by omega⟩, by omega⟩
  simp [isSolid, printable, notSpace, notBreak]

theorem isOpening_of_isLetter (letter : isLetter c = true) : isOpening c = true := by
  have notSpace : c ≠ ' ' := ne_of_class letter (by decide)
  have notSign : c ≠ '#' := ne_of_class letter (by decide)
  simp [isOpening, notSpace, notSign, endsLine_of_isSolid (isSolid_of_isLetter letter)]

/-- A letter begins no item. -/
theorem beginsItem_of_isLetter (letter : isLetter c = true) (rest : List Char) :
    beginsItem (c :: rest) = false := by
  have notHyphen : c ≠ '-' := ne_of_class letter (by decide)
  unfold beginsItem
  split
  · rename_i same
    exact absurd (List.cons.inj same).1 notHyphen
  · rfl

/-- Letters begin with no indicator. -/
theorem beginsWithIndicator_of_isLetter (letter : isLetter c = true) (rest : List Char) :
    beginsWithIndicator (c :: rest) = false := by
  have unlisted : "#,[]\x7b\x7d&*!|>'\"%@`".toList.contains c = false := by
    rw [List.contains_eq_any_beq, List.any_eq_false]
    have others : ∀ d ∈ "#,[]\x7b\x7d&*!|>'\"%@`".toList, isLetter d = false := by decide
    intro d listed same
    rw [eq_of_beq same] at letter
    simp [others d listed] at letter
  have notQuestion : c ≠ '?' := ne_of_class letter (by decide)
  have notColon : c ≠ ':' := ne_of_class letter (by decide)
  have notHyphen : c ≠ '-' := ne_of_class letter (by decide)
  rw [beginsWithIndicator, unlisted]
  simp [notQuestion, notColon, notHyphen]

/-- A word of letters is taken whole. -/
theorem readPlain_letters {word : List Char} (letters : ∀ c ∈ word, isLetter c = true)
    (least column : Nat) (tail : List Char) :
    readPlain least column .nothing (word ++ tail) (word ++ tail) =
      (word ++ (readPlain least (column + word.length) .nothing tail tail).1,
        (readPlain least (column + word.length) .nothing tail tail).2) := by
  induction word generalizing column with
  | nil => rfl
  | cons c word ih =>
    obtain ⟨letter, letters⟩ := List.forall_mem_cons.1 letters
    have notColon : c ≠ ':' := ne_of_class letter (by decide)
    have notSign : c ≠ '#' := ne_of_class letter (by decide)
    rw [List.cons_append, readPlain_solid (isSolid_of_isLetter letter) (by simp [notColon])
      (fun _ => notSign)
      (by simp [Pause.hasLines]), ih letters, List.length_cons, Nat.add_assoc, Nat.add_comm 1]
    rfl

/-- Words that can be the names of fields without quotes. -/
def isFieldName (name : String) : Bool :=
  !name.toList.isEmpty && name.toList.all isLetter && name.toList.length ≤ 1024 &&
    !isReserved name.toList

/-- A word of letters is read without quotes, up to something that ends it. -/
theorem readScalar_letters {word : List Char} (nonempty : word ≠ [])
    (letters : ∀ c ∈ word, isLetter c = true) {least : Nat} {tail : List Char}
    (ends : ∀ column, readPlain least column .nothing tail tail = ([], tail)) :
    readScalar least (word ++ tail) = (resolve? word).map fun meant => (meant, tail) := by
  obtain ⟨c, word, rfl⟩ := List.exists_cons_of_ne_nil nonempty
  have letter := letters c List.mem_cons_self
  rw [List.cons_append, readScalar_of_plain (isSolid_of_isLetter letter)
    (beginsWithIndicator_of_isLetter letter _), ← List.cons_append, readPlain_letters letters, ends,
    List.append_nil]

/-- The name of a field begins with a letter. -/
theorem exists_letter {name : String} (proper : isFieldName name = true) :
    ∃ c word, name.toList = c :: word ∧ isLetter c = true := by
  simp only [isFieldName, Bool.and_eq_true, Bool.not_eq_true', List.all_eq_true,
    List.isEmpty_eq_false_iff] at proper
  obtain ⟨c, word, same⟩ := List.exists_cons_of_ne_nil proper.1.1.1
  exact ⟨c, word, same, proper.1.1.2 c (same ▸ List.mem_cons_self)⟩

/-- The name of a field is read up to its colon. -/
theorem readName_name {name : String} (proper : isFieldName name = true) {content : List Char}
    (separated : separatedFrom content = true) (least column : Nat) :
    readName least column (name.toList ++ ':' :: content) = some (name, content) := by
  -- The letters are read up to the colon, and the name is no word with a meaning of its own.
  obtain ⟨c, word, split, letter⟩ := exists_letter proper
  simp only [isFieldName, Bool.and_eq_true, Bool.not_eq_true', decide_eq_true_eq, List.all_eq_true,
    List.isEmpty_eq_false_iff] at proper
  obtain ⟨⟨⟨nonempty, letters⟩, short⟩, free⟩ := proper
  have ends : ∀ column, readPlain least column .nothing (':' :: content) (':' :: content) =
      ([], ':' :: content) := by
    intro column
    rw [readPlain, if_neg (by decide), if_neg (by simp), if_neg (by decide),
      if_pos (by simp [separated])]
  have noMark : isMark (name.toList ++ ':' :: content) = false := by
    have notHyphen : c ≠ '-' := ne_of_class letter (by decide)
    have notPoint : c ≠ '.' := ne_of_class letter (by decide)
    rw [split, List.cons_append]
    simp [isMark, beginsLikeMark, notHyphen, notPoint]
  have sameLine : name.toList.any endsLine = false := by
    rw [List.any_eq_false]
    intro c inside
    simp [endsLine_of_isSolid (isSolid_of_isLetter (letters c inside))]
  rw [readName, if_neg (by simp [noMark]), readScalar_letters nonempty letters ends,
    resolve?_of_unreserved free]
  simp [separated, sameLine, short]

-- Both hold by definition; the equations that `rw` would make for the whole family take far longer
-- to find.
theorem value_text (indent column : Nat) (content : String) :
    value indent column (.text content) = scalar (indent + 2) column content ++ ['\n'] :=
  rfl

theorem value_list (indent column : Nat) (first : Data) (more : List Data) :
    value indent column (.list (first :: more)) = '\n' :: items indent (first :: more) :=
  rfl

/-- What is written behind the colon of a field is separated from it. -/
theorem separatedFrom_value (indent column : Nat) (data : Data) (rest : List Char) :
    separatedFrom (value indent column data ++ rest) = true := by
  cases data with
  | null => rfl
  | boolean truth => cases truth <;> rfl
  | number written => rfl
  | text content =>
    obtain ⟨tail, written⟩ := exists_scalar (indent + 2) column content
    rw [value_text, written]
    rfl
  | list items => cases items <;> rfl
  | record fields => cases fields <;> rfl

/-- The value of a field is written so that it may stand in a file, and it is read back as the given
data whatever follows. Each call of the reader has a character of its own. -/
structure ReadsAs (indent : Nat) (data meant : Data) : Prop where
  readable : ∀ column, Readable (value indent column data)
  read : ∀ column fuel rest, (value indent column data).length ≤ fuel → Follows indent rest →
    readValue fuel indent (value indent column data ++ rest) = some (meant, '\n' :: rest)

/-- A value on the line of its name is read as a scalar. -/
theorem readValue_scalar (opening : isOpening c = true) (fuel column : Nat) (rest : List Char) :
    readValue (fuel + 1) column (' ' :: c :: rest) = readScalar (column + 1) (c :: rest) := by
  have place : nextPlace false 0 false (' ' :: c :: rest) = ⟨c :: rest, 1, false⟩ := by
    rw [← nextPlace_opening opening]
    exact nextPlace_spaces 0 false 1 (c :: rest)
  rw [readValue, place]
  rfl

/-- The value that is nothing is read back. -/
theorem readsAs_null (indent : Nat) : ReadsAs indent .null .null where
  readable := fun _ => (by decide : ∀ c ∈ " null\n".toList, isReadable c = true)
  read := by
    intro column fuel rest enough follows
    obtain ⟨fuel, rfl⟩ := Nat.exists_eq_add_of_lt (Nat.lt_of_lt_of_le (by decide : 0 < 6) enough)
    have read : readScalar (indent + 1) ("null".toList ++ '\n' :: rest) = _ :=
      readScalar_letters (by decide) (by decide) (readPlain_end follows.beginsBefore)
    have isNull : resolve? "null".toList = some .null := rfl
    rw [Nat.zero_add]
    exact (readValue_scalar (by decide) fuel indent _).trans
      (read.trans (congrArg (Option.map _) isNull))

/-- A text is read back as its style allows, as long as its lines have room. -/
theorem readsAs_text (room : indent + 2 < bestWidth) (content : String) :
    ReadsAs indent (.text content) (.text (String.ofList (reread content.toList))) where
  -- The text is written behind a space, and what is read is the text as it is reread.
  readable := fun column => .append (readable_scalar _ _ _) (.cons (by decide) readable_nil)
  read := by
    intro column fuel rest enough follows
    obtain ⟨c, tail, written, opening, read⟩ :=
      readScalar_scalar (Nat.le_succ (indent + 1)) (Nat.succ_pos _) room
      follows.beginsBefore column content
    have text : value indent column (.text content) ++ rest = ' ' :: c :: tail := by
      rw [value_text, List.append_assoc]
      exact written
    obtain ⟨fuel, rfl⟩ : ∃ less, fuel = less + 1 := by
      rw [value_text, List.length_append, List.length_singleton] at enough
      exact ⟨fuel - 1, by omega⟩
    rw [text, readValue_scalar opening, read]

/-- A field keeps its name, and its value is read back as the given data. -/
structure FieldReadsAs (indent : Nat) (field other : String × Data) : Prop where
  proper : isFieldName field.1 = true
  named : field.1 = other.1
  value : ReadsAs indent field.2 other.2

/-- The fields of a record begin with the name of the first. -/
theorem fields_cons (indent : Nat) (field : String × Data) (more : List (String × Data)) :
    fields indent (field :: more) = field.1.toList ++ ':' ::
      (value indent (indent + field.1.length + 1) field.2 ++
      if more.isEmpty then [] else padding indent ++ fields indent more) := by
  -- Behind the last field no padding is written.
  obtain ⟨name, data⟩ := field
  cases more with
  | nil => simp [fields]
  | cons next more => simp [fields]

/-- Fields begin with a letter. -/
theorem exists_letter_fields (alike : List.Forall₂ (FieldReadsAs indent) content meant)
    (nonempty : content ≠ []) :
    ∃ c rest, fields indent content = c :: rest ∧ isLetter c = true := by
  cases alike with
  | nil => exact absurd rfl nonempty
  | cons here alike =>
    obtain ⟨c, word, split, letter⟩ := exists_letter here.proper
    rw [fields_cons, split]
    exact ⟨c, _, rfl, letter⟩

/-- The fields of a record are read back one after the other. -/
theorem readFields_fields (alike : List.Forall₂ (FieldReadsAs indent) content meant)
    (nonempty : content ≠ []) (least : Nat) (enough : (fields indent content).length ≤ fuel)
    (ends : BeginsBefore indent rest) :
    readFields fuel least indent (fields indent content ++ rest) = some (meant, '\n' :: rest) := by
  -- What follows a value is the next field at the same column, or for the last field what follows
  -- the record.
  induction alike generalizing fuel least with
  | nil => exact absurd rfl nonempty
  | @cons field other more others here alike ih =>
    obtain ⟨otherName, meantHere⟩ := other
    obtain rfl : field.1 = otherName := here.named
    rw [fields_cons] at enough ⊢
    simp only [List.length_append, List.length_cons] at enough
    obtain ⟨fuel, rfl⟩ : ∃ less, fuel = less + 1 := ⟨fuel - 1, by omega⟩
    rw [List.append_assoc, List.cons_append, List.append_assoc, readFields,
      readName_name here.proper (separatedFrom_value _ _ _ _)]
    simp only [Option.bind_eq_bind, Option.bind_some]
    cases alike with
    | nil =>
      rw [List.isEmpty_nil, if_pos rfl, List.nil_append,
        here.value.read _ fuel _ (by omega) ends.follows]
      simp only [Option.bind_some]
      rw [if_pos]
      · rfl
      · rcases ends with rfl | ⟨column, c, behind, rfl, further, opening⟩
        · rfl
        · simp [nextPlace_line opening, further]
    | @cons next second further seconds nextHere alike =>
      obtain ⟨c, behind, begins, letter⟩ :=
        exists_letter_fields (.cons nextHere alike) (List.cons_ne_nil _ _)
      have opening := isOpening_of_isLetter letter
      have follows : Follows indent (List.replicate indent ' ' ++ c :: (behind ++ rest)) :=
        .inr ⟨indent, c, behind ++ rest, rfl, opening, .inr ⟨rfl, beginsItem_of_isLetter letter _⟩⟩
      have enoughBehind : (fields indent (next :: further)).length ≤ fuel := by
        rw [List.isEmpty_cons, if_neg (by decide), List.length_append] at enough
        omega
      have read := ih (List.cons_ne_nil _ _) (indent + 1) enoughBehind
      rw [begins, List.cons_append] at read
      rw [List.isEmpty_cons, if_neg (by decide), padding, begins, List.append_assoc,
        List.cons_append, here.value.read _ fuel _ (by omega) follows]
      simp only [Option.bind_some]
      rw [nextPlace_line opening, if_neg (by simp), if_pos (by simp), read]
      rfl

/-- An item is a record whose fields are read back as those of another record. -/
structure ItemReadsAs (indent : Nat) (item other : Data) : Prop where
  exists_fields : ∃ content meant, item = .record content ∧ other = .record meant ∧ content ≠ [] ∧
    (meant.map Prod.fst).Nodup ∧ List.Forall₂ (FieldReadsAs (indent + 2)) content meant

/-- The first field stands on the line of the hyphen. -/
theorem ItemReadsAs.exists_item {item other : Data} (reads : ItemReadsAs indent item other) :
    ∃ content meant, Yaml.item indent item = ' ' :: fields (indent + 2) content ∧
      other = .record meant ∧
      content ≠ [] ∧ (meant.map Prod.fst).Nodup ∧ List.Forall₂
        (FieldReadsAs (indent + 2)) content meant := by
  obtain ⟨content, meant, rfl, same, nonempty, distinct, alike⟩ := reads.exists_fields
  refine ⟨content, meant, ?_, same, nonempty, distinct, alike⟩
  obtain ⟨entry, more, rfl⟩ := List.exists_cons_of_ne_nil nonempty
  rfl

/-- An item that is written begins an item. -/
theorem ItemReadsAs.beginsItem {item other : Data} (reads : ItemReadsAs indent item other)
    (rest : List Char) : beginsItem ('-' :: (Yaml.item indent item ++ rest)) = true := by
  obtain ⟨content, meant, written, -⟩ := reads.exists_item
  rw [written]
  rfl

/-- Fields at a place are read as a record. -/
theorem readNode_fields (alike : List.Forall₂ (FieldReadsAs indent) content meant)
    (nonempty : content ≠ []) (distinct : (meant.map Prod.fst).Nodup) (least : Nat)
    (enough : (fields indent content).length < fuel) (ends : BeginsBefore indent rest) :
    readNode fuel least ⟨fields indent content ++ rest, indent, true⟩ = some
      (.record meant, '\n' :: rest) := by
  -- What is there is no item but a field, and then all fields are read.
  obtain ⟨fuel, rfl⟩ : ∃ less, fuel = less + 1 := ⟨fuel - 1, by omega⟩
  have read := readFields_fields alike nonempty least (Nat.le_of_lt_succ enough) ends
  obtain ⟨c, behind, begins, letter⟩ := exists_letter_fields alike nonempty
  have noItem : beginsItem (fields indent content ++ rest) = false := by
    rw [begins]
    exact beginsItem_of_isLetter letter _
  cases alike with
  | nil => exact absurd rfl nonempty
  | @cons field other more others here alike =>
    have named : (readName least indent (fields indent (field :: more) ++ rest)).isSome = true := by
      rw [fields_cons, List.append_assoc, List.cons_append, List.append_assoc,
        readName_name here.proper (separatedFrom_value _ _ _ _)]
      rfl
    rw [readNode, if_neg (by simp [noItem]), if_pos named, read]
    simp only [Option.bind_eq_bind, Option.bind_some, Table.entries_ofEntries distinct]
    rfl

/-- One item is read back, and then the list ends or goes on with what comes next. -/
theorem readItems_item {first second : Data} (here : ItemReadsAs indent first second)
    (enough : (item indent first).length ≤ fuel) {tail : List Char}
    (ends : BeginsBefore (indent + 2) tail) {next : Place}
    (reached : nextPlace false 0 false ('\n' :: tail) = next) :
    readItems (fuel + 1) indent ('-' :: (item indent first ++ tail)) =
      if next.rest.isEmpty || (next.fresh &&
          (next.column < indent || (next.column == indent && !beginsItem next.rest))) then
        some ([second], '\n' :: tail)
      else if next.fresh && next.column == indent then
        (readItems fuel indent next.rest).map fun read => (second :: read.1, read.2)
      else none := by
  -- The fields of the item are read two columns further in, and what follows decides about more
  -- items.
  obtain ⟨content, meant, written, rfl, nonempty, distinct, alike⟩ := here.exists_item
  obtain ⟨c, behind, begins, letter⟩ := exists_letter_fields alike nonempty
  have place : nextPlace false (indent + 1) true (' ' :: (fields (indent + 2) content ++ tail)) =
      ⟨fields (indent + 2) content ++ tail, indent + 2, true⟩ := by
    rw [begins, List.cons_append, ← nextPlace_opening (isOpening_of_isLetter letter)]
    exact nextPlace_spaces (indent + 1) true 1 _
  have inside : ¬ ((fields (indent + 2) content ++ tail).isEmpty || decide (indent + 2 ≤ indent)) =
      true := by
    simp [begins]
  rw [written, List.length_cons] at enough
  rw [written, readItems, List.tail_cons, List.cons_append, place, if_neg inside,
    readNode_fields alike nonempty distinct _ (by omega) ends]
  simp only [Option.bind_eq_bind, Option.bind_some, reached]
  split
  · rfl
  · split
    · cases readItems fuel indent next.rest <;> rfl
    · rfl

/-- The items of a list are read back one after the other. -/
theorem readItems_items {first second : Data} {more others : List Data}
    (here : ItemReadsAs indent first second) (alike : List.Forall₂ (ItemReadsAs indent) more others)
    (enough : ('-' :: (item indent first ++ items indent more)).length ≤ fuel)
    (follows : Follows indent rest) :
    readItems fuel indent ('-' :: (item indent first ++ (items indent more ++ rest))) =
      some (second :: others, '\n' :: rest) := by
  -- The next hyphen stands further out than the fields of an item, so it ends them.
  induction alike generalizing first second fuel with
  | nil =>
    simp only [List.length_cons, List.length_append] at enough
    obtain ⟨fuel, rfl⟩ : ∃ less, fuel = less + 1 := ⟨fuel - 1, by omega⟩
    rw [items, List.nil_append]
    rcases follows with rfl | ⟨column, c, behind, rfl, opening, outside⟩
    · rw [readItems_item here (by omega) (.inl rfl) rfl]
      rfl
    · rw [readItems_item here (by omega) (.inr ⟨column, c, behind, rfl, by omega, opening⟩)
        (nextPlace_line opening _ _ _ _), if_pos]
      rcases outside with further | ⟨same, noItem⟩
      · simp [further]
      · simp [same, noItem]
  | @cons next third more others nextHere alike ih =>
    have written : items indent (next :: more) ++ rest =
        List.replicate indent ' ' ++ '-' :: (item indent next ++ (items indent more ++ rest)) := by
      simp [items, padding]
    rw [items] at enough
    simp only [List.length_cons, List.length_append] at enough
    obtain ⟨fuel, rfl⟩ : ∃ less, fuel = less + 1 := ⟨fuel - 1, by omega⟩
    have enoughBehind : ('-' :: (item indent next ++ items indent more)).length ≤ fuel := by
      simp only [List.length_cons, List.length_append]
      omega
    have behind := ih nextHere enoughBehind
    have hyphen : beginsItem ('-' :: (item indent next ++ (items indent more ++ rest))) = true :=
      nextHere.beginsItem _
    rw [written, readItems_item here (by omega) (.inr ⟨indent, '-', _, rfl, by omega, by decide⟩)
      (nextPlace_line (by decide) _ _ _ _), if_neg (by simp [hyphen]), if_pos (by simp), behind]
    rfl

/-- Fields that are read back may stand in a file. -/
theorem readable_fields (alike : List.Forall₂ (FieldReadsAs indent) content meant) :
    Readable (fields indent content) := by
  -- Names are letters, and values are readable one by one.
  induction alike with
  | nil => exact readable_nil
  | @cons field other more others here alike ih =>
    have name : Readable field.1.toList := by
      have proper := here.proper
      simp only [isFieldName, Bool.and_eq_true, List.all_eq_true] at proper
      intro c inside
      have solid := isSolid_of_isLetter (proper.1.1.2 c inside)
      simp only [isSolid, Bool.and_eq_true] at solid
      exact isReadable_of_isPlainChar solid.1.1
    have behind : Readable (if more.isEmpty then [] else padding indent ++ fields indent more) := by
      split
      · exact readable_nil
      · exact .append (readable_spaces indent) ih
    rw [fields_cons]
    exact .append name (.cons (by decide) (.append (here.value.readable _) behind))

/-- Items that are read back may stand in a file. -/
theorem readable_items {content meant : List Data}
    (alike : List.Forall₂ (ItemReadsAs indent) content meant) :
    Readable (items indent content) := by
  induction alike with
  | nil => exact readable_nil
  | @cons first second more others here alike ih =>
    obtain ⟨entries, meantEntries, written, -, -, -, alikeEntries⟩ := here.exists_item
    have item : Readable (item indent first) := by
      rw [written]
      exact .cons (by decide) (readable_fields alikeEntries)
    exact .append (.append (readable_spaces indent) (.cons (by decide) item)) ih

/-- A list of records is read back item by item. -/
theorem readsAs_list {content meant : List Data}
    (alike : List.Forall₂ (ItemReadsAs indent) content meant) :
    ReadsAs indent (.list content) (.list meant) where
  -- An empty list is written on the line of its name, and any other on the lines below it.
  readable := by
    intro column
    cases alike with
    | nil => exact (by decide : ∀ c ∈ " []\n".toList, isReadable c = true)
    | cons here alike => exact .cons (by decide) (readable_items (.cons here alike))
  read := by
    intro column fuel rest enough follows
    cases alike with
    | nil =>
      obtain ⟨fuel, rfl⟩ := Nat.exists_eq_add_of_lt (Nat.lt_of_lt_of_le (by decide : 0 < 4) enough)
      rw [Nat.zero_add]
      exact readValue_scalar (by decide) fuel indent (']' :: '\n' :: rest)
    | @cons first second more others here alike =>
      rw [value_list, items] at enough ⊢
      simp only [padding, List.length_cons, List.length_append, List.length_replicate] at enough
      obtain ⟨fuel, rfl⟩ : ∃ less, fuel = less + 1 := ⟨fuel - 1, by omega⟩
      have written :
          '\n' :: (padding indent ++ '-' :: item indent first ++ items indent more) ++ rest =
            '\n' :: (List.replicate indent ' ' ++ '-' ::
              (item indent first ++ (items indent more ++ rest))) := by
        simp [padding]
      have enoughItems : ('-' :: (item indent first ++ items indent more)).length ≤ fuel := by
        simp only [List.length_cons, List.length_append]
        omega
      rw [written, readValue, nextPlace_line (by decide), if_neg (by simp), if_neg (by simp),
        if_pos (by simp [here.beginsItem]), readItems_items here alike enoughItems follows]
      rfl

/-- A record whose fields are read back is read back from the document it makes. -/
theorem parse?_document (alike : List.Forall₂ (FieldReadsAs 0) content meant)
    (nonempty : content ≠ []) (distinct : (meant.map Prod.fst).Nodup) :
    parse? (document (.record content)) = some (.record meant) := by
  -- The document begins in the first column, without a mark.
  have written : document (.record content) = fields 0 content := by
    obtain ⟨entry, more, rfl⟩ := List.exists_cons_of_ne_nil nonempty
    rfl
  have readable : (fields 0 content).all isReadable = true :=
    List.all_eq_true.2 (readable_fields alike)
  have enough : (fields 0 content).length < 3 * (fields 0 content).length + 3 := by omega
  have read := readNode_fields alike nonempty distinct 0 enough (.inl rfl)
  obtain ⟨c, behind, begins, letter⟩ := exists_letter_fields alike nonempty
  have noMark : (fields 0 content).head?.any (·.toNat == 0xFEFF) = false := by
    simp only [isLetter, Bool.or_eq_true, Bool.and_eq_true, decide_eq_true_eq] at letter
    have other : c.toNat ≠ 0xFEFF := by omega
    simp [begins, other]
  have start : nextPlace false 0 true (fields 0 content) = ⟨fields 0 content, 0, true⟩ := by
    rw [begins, nextPlace_opening (isOpening_of_isLetter letter)]
  have something : (fields 0 content).isEmpty = false := by simp [begins]
  rw [List.append_nil] at read
  rw [written, parse?, if_neg (by simp [readable]), noMark]
  simp only [Bool.false_eq_true, if_false, start, something, read]
  rfl

end Yaml

end Lineage
