import Lineage.Proofs.Java.Member.Reading

/-! A search for methods finds all that stand in a row, each of them once and in order. -/

namespace Lineage.Java

open Lineage.Text

/-- What a search for methods finds where it begins: a header with its ending, and what is kept of
the header. -/
structure Findable where
  header : List Char
  ending : Ending
  read : List Char → MethodHeader
  kept : Option (List Char × List Char)
  marked : header.getLast? = some ending.mark
  prefers : ∀ {offset before rest}, MayPrecedeMethod before →
    Reader.methodHeader.Prefers offset before header rest (read rest)
  keeps : ∀ rest, keptHeader (read rest) = kept

/-- The text of what can be found: its header and its ending. -/
def Findable.text (item : Findable) : List Char :=
  item.header ++ item.ending.behind

/-- A search for methods passes over what stands behind the first character of an ending. -/
theorem allFrom_ending (ending : Ending) (offset : Nat) (rest : List Char) :
    Reader.methodHeader.allFrom offset (some ending.mark) 0 (ending.behind ++ rest) =
      Reader.methodHeader.allFrom (offset + ending.behind.length)
        (ending.behind.getLast?.or (some ending.mark)) 0 rest := by
  cases ending with
  | semicolon => rfl
  | block inner plain =>
    -- The parameters of a method that began in the block would lie beyond its closing brace.
    have braceStops : ¬ Reader.Unbroken '}' := by decide
    have passed :=
      Reader.reaches_methodHeader.allFrom_append plain braceStops (by decide) offset (some '{') rest
    simpa [Ending.behind, Ending.mark, Nat.add_assoc] using passed

namespace Findable

/-- A method may follow behind what is found. -/
theorem mayPrecede (item : Findable) (before : Option Char) :
    MayPrecedeMethod (item.text.getLast?.or before) := by
  rw [text, List.getLast?_append, item.marked]
  cases item.ending with
  | semicolon => rfl
  | block inner plain =>
    rw [Ending.behind, List.getLast?_append, List.getLast?_singleton]
    rfl

/-- The search goes on behind what is found. -/
theorem allFrom_append (item : Findable) {offset : Nat} {before : Option Char}
    (started : MayPrecedeMethod before) (rest : List Char) :
    Reader.methodHeader.allFrom offset before 0 (item.text ++ rest) =
      ⟨offset, .beyond offset before item.header (item.ending.behind ++ rest),
          item.read (item.ending.behind ++ rest)⟩ ::
        Reader.methodHeader.allFrom (offset + item.text.length)
          (item.text.getLast?.or before) 0 rest := by
  -- A header holds the first character of its ending, so it is not empty.
  have headed : item.header ≠ [] := by
    intro empty
    have last := item.marked
    simp [empty] at last
  rw [text, List.append_assoc, Text.Reader.allFrom_prefers headed (item.prefers started),
    item.marked, Option.some_or, allFrom_ending, List.length_append, Nat.add_assoc,
    List.getLast?_append, item.marked, Option.or_assoc,
    Option.some_or]

end Findable

/-- What stands in a row with blanks between is found in order. -/
theorem allFrom_row (items : List (Findable × Blanks)) {offset : Nat} {before : Option Char}
    (started : MayPrecedeMethod before) :
    (Reader.methodHeader.allFrom offset before 0
      (items.flatMap fun item => item.1.text ++ item.2.text)).filterMap
        (fun found => keptHeader found.value) = items.filterMap (·.1.kept) := by
  induction items generalizing offset before with
  | nil => rfl
  | cons item items ih =>
    -- Blanks follow, and behind them the next one may begin.
    have startedNext := (item.1.mayPrecede before).append_blanks item.2.blank
    rw [List.flatMap_cons, List.append_assoc, item.1.allFrom_append started,
      allFrom_methodHeader_blanks item.2.blank, List.filterMap_cons, List.filterMap_cons,
        ih startedNext]
    simp only [item.1.keeps]

/-- Of what can be found in a row all that is kept is found. -/
theorem methodHeaders_row (lead : Blanks) (items : List (Findable × Blanks)) :
    methodHeaders (lead.text ++ items.flatMap fun item => item.1.text ++ item.2.text) =
      items.filterMap (·.1.kept) := by
  have started : MayPrecedeMethod none := rfl
  rw [methodHeaders, Text.Reader.all, allFrom_methodHeader_blanks lead.blank]
  exact allFrom_row items (started.append_blanks lead.blank)

theorem Typed.getLast?_text (typed : Typed) :
    typed.text.getLast? = some typed.signature.ending.mark := by
  simp [Typed.text, Signature.header, Signature.behindName, Signature.behindParameters,
    List.getLast?_append, List.getLast?_cons]

/-- A method is found and kept. -/
def Member.findable (member : Member) : Findable where
  header := member.header
  ending := member.typed.signature.ending
  read := Reader.typedRead member.typed
  kept := some (member.typed.signature.name.text, member.typed.signature.parameters)
  marked := by simp [Member.header, List.getLast?_append, member.typed.getLast?_text]
  prefers := Reader.prefers_member member
  keeps := keptHeader_typed (ReturnType.notMem member.noKeyword)

/-- In a text made of methods with blanks around them, exactly these methods are found, each with
its name and its parameters, in the order in which they stand. -/
theorem methodHeaders_members (lead : Blanks) (members : List (Member × Blanks)) :
    methodHeaders (lead.text ++ members.flatMap fun member => member.1.text ++ member.2.text) =
      members.map fun member =>
        (member.1.typed.signature.name.text, member.1.typed.signature.parameters) := by
  have found := methodHeaders_row lead (members.map fun member => (member.1.findable, member.2))
  rw [List.flatMap_map, List.filterMap_map] at found
  rw [← List.filterMap_eq_map]
  exact found

example :
    let text := "<T> T id(T x); public static a.B<C> [] f() [] throws D, e.F ".toList ++
      "\x7b return; \x7d int g ();".toList
    methodHeaders text = [("id".toList, "T x".toList), ("f".toList, []), ("g".toList, [])] := by
  decide +kernel

end Lineage.Java
