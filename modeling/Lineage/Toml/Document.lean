import Lineage.Table
import Lineage.Toml.Number
import Lineage.Toml.Text

/-! TOML documents. -/

namespace Lineage.Toml

open Lineage.Settings Step

/-- The entries of a table in the order in which they came. -/
abbrev Entries := List (String × Value)

/-- Changes the table behind a path of keys, and makes the tables on the way that are missing. With
`intoLists` the last table of a list stands for the list. There is no change if something else than
a table is in the way. -/
def changeAt (intoLists : Bool) (change : Entries → Option Entries) :
    List String → Entries → Option Entries
  | [], entries => change entries
  | name :: path, entries =>
    match entries.lookup name with
    | none => do
      let inner ← changeAt intoLists change path []
      return putEntry name (.table inner) entries
    | some (.table known) => do
      let inner ← changeAt intoLists change path known
      return putEntry name (.table inner) entries
    | some (.list items) =>
      match intoLists, items.getLast? with
      | true, some (.table known) => do
        let inner ← changeAt intoLists change path known
        return putEntry name (.list (items.dropLast ++ [.table inner])) entries
      | _, _ => none
    | some _ => none

/-- A new entry, unless the table has one of the same name. -/
def addNew (name : String) (value : Value) (entries : Entries) : Option Entries :=
  if (entries.lookup name).isSome then none else some (entries ++ [(name, value)])

/-- One more table at the end of the list with a given name, which is made if it is missing. -/
def addToList (name : String) (entries : Entries) : Option Entries :=
  match entries.lookup name with
  | none => some (entries ++ [(name, .list [.table []])])
  | some (.list items) => some (putEntry name (.list (items ++ [.table []])) entries)
  | some _ => none

/-- Whether a value is a list or a table, so that no later line may add to it. -/
def Value.isClosed : Value → Bool
  | .list _ => true
  | .table _ => true
  | _ => false

/-- Whether a path or a beginning of it is among the closed ones. -/
def isWithin (closed : List (List String)) (path : List String) : Bool :=
  closed.any (·.isPrefixOf path)

/-- A change that may be impossible. -/
def orMalformed {α : Type} (result : Option α) : Step α :=
  match result with
  | none => malformed
  | some value => return value

/-- The key of an entry and the sign behind it. -/
def keyAndSign : Step (List String) := do
  let path ← key
  expect ['=']
  skipAll isTomlBlank
  return path

/-- A value that is none of texts, truth values, arrays and inline tables. -/
def plainValue : Step Value := do
  let text ← get
  let place : Text.Cursor := .start text
  -- Days, times and numbers all begin with digits, so the longer forms are tried first.
  match (momentText place).head? with
  | some ((date, rest), after) =>
    if !isDay date then malformed
    set after.rest
    match rest with
    | none => return .date date
    | some (clock, offset) => return .moment date clock offset
  | none =>
    match (clockText place).head? with
    | some (clock, after) =>
      set after.rest
      return .time clock
    | none =>
      match (numberText place).head? with
      | some (number, after) =>
        set after.rest
        match number.value with
        | .ok value => return value
        | .error count => throw (.tooManyDigits count)
      | none => do
        let sign ← takeAll fun c => c == '+' || c == '-'
        if 1 < sign.length then malformed
        else if ← sees ['i', 'n', 'f'] then
          advance 3
          return .float (.infinite (sign == ['-']))
        else if ← sees ['n', 'a', 'n'] then
          advance 3
          return .float .nan
        else malformed

mutual

/-- A value of any type. The first argument bounds the nesting. -/
def value : Nat → Step Value
  | 0 => malformed
  | budget + 1 => do
    if ← sees ['"', '"', '"'] then
      advance 3
      return .text (String.ofList (← multilineText '"'))
    else if ← sees ['"'] then
      advance 1
      return .text (String.ofList (← quotedText))
    else if ← sees ['\'', '\'', '\''] then
      advance 3
      return .text (String.ofList (← multilineText '\''))
    else if ← sees ['\''] then
      advance 1
      return .text (String.ofList (← literalText))
    else if ← sees ['t', 'r', 'u', 'e'] then
      advance 4
      return .boolean true
    else if ← sees ['f', 'a', 'l', 's', 'e'] then
      advance 5
      return .boolean false
    else if ← sees ['['] then
      advance 1
      return .list (← arrayItems budget)
    else if ← sees ['{'] then
      advance 1
      skipAll isTomlBlank
      if ← sees ['}'] then
        advance 1
        return .table []
      else return .table (← inlineEntries budget [] [])
    else plainValue

/-- The items of an array up to its closing bracket. A comma may follow the last one. -/
def arrayItems : Nat → Step (List Value)
  | 0 => malformed
  | budget + 1 => do
    skipGaps ((← get).length + 1)
    if ← sees [']'] then
      advance 1
      return []
    else
      let item ← value budget
      skipGaps ((← get).length + 1)
      if ← sees [']'] then
        advance 1
        return [item]
      else
        expect [',']
        return item :: (← arrayItems budget)

/-- The entries of an inline table up to its closing brace, together with those read before. No
comma follows the last one, and nothing is added to a list or a table in it. -/
def inlineEntries : Nat → Entries → List (List String) → Step Entries
  | 0, _, _ => malformed
  | budget + 1, entries, closed => do
    let path ← keyAndSign
    let content ← value budget
    if isWithin closed path then malformed
    let grown ← orMalformed
      (changeAt false (addNew (path.getLast?.getD "") content) path.dropLast entries)
    skipAll isTomlBlank
    if ← sees ['}'] then
      advance 1
      return grown
    else
      expect [',']
      skipAll isTomlBlank
      inlineEntries budget grown (if Value.isClosed content then path :: closed else closed)

end

/-- A document as far as it is read: its entries, the tables that may not be opened again, the
values that may not be added to, and the tables that the current section has opened by dotted
keys. -/
structure Document where
  entries : Entries
  opened : List (List String)
  closed : List (List String)
  pending : List (List String)

/-- A section may no longer open what the keys of the section before it have opened. -/
def Document.endSection (document : Document) : Document :=
  { document with opened := document.pending ++ document.opened, pending := [] }

/-- The section of a table begins. -/
def openTable (document : Document) : Step (Document × List String) := do
  advance 1
  skipAll isTomlBlank
  let path ← key
  if document.opened.contains path || isWithin document.closed path then malformed
  let entries ← orMalformed (changeAt true some path document.entries)
  expect [']']
  return ({ document with entries, opened := path :: document.opened }, path)

/-- The section of one more table of a list begins. What was known of the tables before it no longer
counts. -/
def openListItem (document : Document) : Step (Document × List String) := do
  advance 2
  skipAll isTomlBlank
  let path ← key
  if isWithin document.closed path then malformed
  let entries ← orMalformed
    (changeAt true (addToList (path.getLast?.getD "")) path.dropLast document.entries)
  expect [']', ']']
  -- The new table starts afresh, so its parts may be opened again.
  let within := fun (known : List String) => path.isPrefixOf known
  return ({ document with
    entries
    opened := path :: document.opened.filter (!within ·)
    closed := document.closed.filter (!within ·) }, path)

/-- The paths of the tables that a dotted key opens below a section. -/
def pathsBelow (header path : List String) : List (List String) :=
  (List.range (path.length - 1)).map fun count => header ++ path.take (count + 1)

/-- An entry of the current section. -/
def addEntry (document : Document) (header : List String) : Step Document := do
  let path ← keyAndSign
  let content ← value ((← get).length + 1)
  let between := pathsBelow header path
  -- A dotted key cannot reach into a table that has a section of its own.
  if between.any document.opened.contains then malformed
  let parent := header ++ path.dropLast
  if isWithin document.closed parent then malformed
  let entries ← orMalformed (changeAt true (addNew (path.getLast?.getD "") content) parent
    document.entries)
  return { document with
    entries
    pending := between ++ document.pending
    closed := if Value.isClosed content then
      (header ++ path) :: document.closed else document.closed }

/-- The statement that begins with a given character: an entry, the beginning of a section, or
nothing before a comment. -/
def statement (document : Document) (header : List String) (c : Char) :
    Step (Document × List String) := do
  if isBareKeyChar c || c == '"' || c == '\'' then
    return (← addEntry document header, header)
  else if ← sees ['[', '['] then openListItem document.endSection
  else if c == '[' then openTable document.endSection
  else if c == '#' then return (document, header)
  else malformed

/-- The lines that are left. The first argument bounds their number. -/
def statements : Nat → Document → List String → Step Document
  | 0, _, _ => malformed
  | budget + 1, document, header => do
    skipAll isTomlBlank
    match ← peek with
    | none => return document
    | some '\n' =>
      advance 1
      statements budget document header
    | some c =>
      let (grown, current) ← statement document header c
      skipAll isTomlBlank
      skipComment
      match ← peek with
      | none => return grown
      | some '\n' =>
        advance 1
        statements budget grown current
      | some _ => malformed

/-- A carriage return before a line feed does not count. -/
def joinLineEnds : List Char → List Char
  | '\r' :: '\n' :: rest => '\n' :: joinLineEnds rest
  | c :: rest => c :: joinLineEnds rest
  | [] => []

/-- The entries of a document. Arrays and tables may lie in each other to any depth; a limit on how
deep calls may be nested is not part of the reading. -/
def parse (text : List Char) : Except Fault Entries :=
  let source := joinLineEnds text
  match (statements (source.length + 1) ⟨[], [], [], []⟩ []).run source with
  | .ok (document, _) => .ok document.entries
  | .error fault => .error fault

end Lineage.Toml
