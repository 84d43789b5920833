import Lineage.Data
import Lineage.Table
import Lineage.Yaml.Scalar

/-!
Data read from YAML in block style, by the rules of version 1.1 of the language.

Indentation decides what belongs to what; a list of a record may begin at the column of the record.
Lines of plain and quoted texts are folded: one end of a line is read as a space, and of more the
first is left out. Between double quotes the escapes of this version are read. A plain word that is
one of the types of `Lineage.Yaml.isReserved` is read as that type. Directives, document marks,
tags, anchors, aliases, block scalars, explicit keys and bracketed collections that are not empty
are refused.
-/

namespace Lineage.Yaml

open Lineage.Text

/-- Characters that a file may hold. -/
def isReadable (c : Char) : Bool :=
  let point := c.toNat
  c == '\t' || c == '\n' || c == '\r' || (0x20 ≤ point && point ≤ 0x7E) || point == 0x85 ||
    (0xA0 ≤ point && point ≤ 0xD7FF) || (0xE000 ≤ point && point ≤ 0xFFFD) || 0x10000 ≤ point

/-- Characters at which a line ends. A carriage return and a line feed behind it end it together. -/
def endsLine (c : Char) : Bool :=
  c == '\r' || isBreak c

/-- What the end of a line is read as: the separators of lines and paragraphs stay, all others
become a line feed. -/
def normalBreak (c : Char) : Char :=
  if c.toNat == 0x2028 || c.toNat == 0x2029 then c else '\n'

/-- Whether a line begins with the mark for the start or the end of a document. -/
def isMark (line : List Char) : Bool :=
  beginsLikeMark line && separatedFrom (line.drop 3)

/-- What lies between two words: nothing, blanks within a line, or ends of lines, of which the first
is missing if it was escaped. -/
inductive Pause where
  | nothing
  | blanks (text : List Char)
  | lines (first : Option Char) (later : List Char)
  deriving DecidableEq, Repr

/-- The text that a pause stands for. A single line feed is folded into a space, and of several the
first is dropped. -/
def Pause.text : Pause → List Char
  | .nothing => []
  | .blanks text => text
  | .lines none later => later
  | .lines (some first) later =>
    if first == '\n' then
      if later.isEmpty then [' '] else later
    else first :: later

/-- A pause with one more blank. Blanks around the ends of lines do not count. -/
def Pause.blank (c : Char) : Pause → Pause
  | .nothing => .blanks [c]
  | .blanks text => .blanks (text ++ [c])
  | .lines first later => .lines first later

/-- A pause with one more end of a line. -/
def Pause.lineEnd (c : Char) : Pause → Pause
  | .lines first later => .lines first (later ++ [normalBreak c])
  | _ => .lines (some (normalBreak c)) []

/-- Whether a line has ended in a pause. -/
def Pause.hasLines : Pause → Bool
  | .lines _ _ => true
  | _ => false

/-- Where the reading of a quotation stands: behind a pause, behind a character that escapes the
next one, or among the digits of a code point, with how many are to come and the value of those
before. -/
inductive Stage where
  | after (pause : Pause)
  | escape
  | code (left value : Nat)
  deriving DecidableEq, Repr

/-- The character for a letter behind a backslash. -/
def unescaped? : Char → Option Char
  | '0' => some '\x00'
  | 'a' => some '\x07'
  | 'b' => some '\x08'
  | 't' => some '\t'
  | '\t' => some '\t'
  | 'n' => some '\n'
  | 'v' => some '\x0b'
  | 'f' => some '\x0c'
  | 'r' => some '\r'
  | 'e' => some '\x1b'
  | ' ' => some ' '
  | '"' => some '"'
  | '\\' => some '\\'
  | '/' => some '/'
  | 'N' => some '\u0085'
  | '_' => some '\u00a0'
  | 'L' => some '\u2028'
  | 'P' => some '\u2029'
  | _ => none

/-- How many digits of a code point follow a letter behind a backslash. -/
def escapeWidth? : Char → Option Nat
  | 'x' => some 2
  | 'u' => some 4
  | 'U' => some 8
  | _ => none

/-- What was read, with more text in front. -/
def prepend (front : List Char) (read : Option (List Char × List Char)) :
    Option (List Char × List Char) :=
  read.map fun (text, rest) => (front ++ text, rest)

/-- The text up to the closing quote, and what follows the quote. -/
def readQuotation (double : Bool) : Stage → List Char → Option (List Char × List Char)
  | _, [] => none
  | .after pause, c :: rest =>
    if c == ' ' || c == '\t' then readQuotation double (.after (pause.blank c)) rest
    else if c == '\r' && rest.head? == some '\n' then readQuotation double (.after pause) rest
    else if endsLine c then
      if isMark rest then none else readQuotation double (.after (pause.lineEnd c)) rest
    -- A single quote is escaped by another one in front.
    else if (if double then c == '\\' else c == '\'' && rest.head? == some '\'') then
      prepend pause.text (readQuotation double .escape rest)
    else if c == (if double then '"' else '\'') then some (pause.text, rest)
    else prepend (pause.text ++ [c]) (readQuotation double (.after .nothing) rest)
  | .escape, c :: rest =>
    if !double then prepend [c] (readQuotation double (.after .nothing) rest)
    else if c == '\r' && rest.head? == some '\n' then readQuotation double .escape rest
    else if endsLine c then
      if isMark rest then none else readQuotation double (.after (.lines none [])) rest
    else
      match escapeWidth? c, unescaped? c with
      | some width, _ => readQuotation double (.code width 0) rest
      | none, some meant => prepend [meant] (readQuotation double (.after .nothing) rest)
      | none, none => none
  | .code left value, c :: rest =>
    match hexValue? c with
    | none => none
    | some digit =>
      let point := value * 16 + digit
      if 1 < left then readQuotation double (.code (left - 1) point) rest
      else if point.isValidChar then
        prepend [Char.ofNat point] (readQuotation double (.after .nothing) rest)
      else none

/-- The unquoted text at the front of what is left, from a column on, and what follows it: `before`
is what is left where the current pause began. Further lines belong to the text if they begin at
`least` or further in. -/
def readPlain (least column : Nat) (pause : Pause) (before : List Char) :
    List Char → List Char × List Char
  | [] => ([], before)
  | c :: rest =>
    if c == ' ' then readPlain least (column + 1) (pause.blank c) before rest
    else if c == '\r' && rest.head? == some '\n' then readPlain least column pause before rest
    else if endsLine c then
      if isMark rest then ([], before) else readPlain least 0 (pause.lineEnd c) before rest
    else if c == '\t' || (c == ':' && separatedFrom rest) || (c == '#' && pause != .nothing) ||
        (pause.hasLines && column < least) then ([], before)
    else
      let read := readPlain least (column + 1) .nothing rest rest
      (pause.text ++ c :: read.1, read.2)

/-- The words for null. -/
def nullWords : List String :=
  ["~", "null", "Null", "NULL", ""]

/-- The words for the truth values. -/
def truthWords : Bool → List String
  | true => ["yes", "Yes", "YES", "true", "True", "TRUE", "on", "On", "ON"]
  | false => ["no", "No", "NO", "false", "False", "FALSE", "off", "Off", "OFF"]

/-- What an unquoted text means. Times, the merge key and the default value are refused. -/
def resolve? (text : List Char) : Option Data :=
  if nullWords.any (·.toList == text) then some .null
  else if (truthWords true).any (·.toList == text) then some (.boolean true)
  else if (truthWords false).any (·.toList == text) then some (.boolean false)
  else if isWhole wholeNumber text || isWhole pointNumber text then
    some (.number (String.ofList text))
  else if isReserved text then none
  else some (.text (String.ofList text))

/-- A text, quoted or not, or an empty collection, and what follows it. -/
def readScalar (least : Nat) (text : List Char) : Option (Data × List Char) :=
  match text with
  | '\'' :: rest => (readQuotation false (.after .nothing) rest).map fun (content, after) =>
      (.text (String.ofList content), after)
  | '"' :: rest => (readQuotation true (.after .nothing) rest).map fun (content, after) =>
      (.text (String.ofList content), after)
  | '[' :: ']' :: rest => some (.list [], rest)
  | '{' :: '}' :: rest => some (.record [], rest)
  | [] => none
  | c :: rest =>
    if isSeparation c || beginsWithIndicator (c :: rest) then none
    else
      let read := readPlain least 0 .nothing text text
      (resolve? read.1).map fun meant => (meant, read.2)

/-- The name of a field, which fits on a line and in 1024 characters, and what follows its colon. -/
def readName (least column : Nat) (text : List Char) : Option (String × List Char) :=
  if column == 0 && isMark text then none
  else
    match readScalar least text with
    | some (.text name, after) =>
      match after.dropWhile (· == ' ') with
      | ':' :: rest =>
        let written := text.take (text.length - (rest.length + 1))
        if separatedFrom rest && !written.any endsLine && written.length ≤ 1024 then
          some (name, rest) else none
      | _ => none
    | _ => none

/-- A place where something can begin: what is left there, its column, and whether it is the first
of its line. The column is only kept for such a place, and behind a hyphen. -/
structure Place where
  rest : List Char
  column : Nat
  fresh : Bool

/-- The next place behind spaces, comments and ends of lines. -/
def nextPlace (inComment : Bool) (column : Nat) (fresh : Bool) : List Char → Place
  | [] => ⟨[], column, fresh⟩
  | c :: rest =>
    if endsLine c then nextPlace false 0 true rest
    else if inComment || c == '#' then nextPlace true (column + 1) fresh rest
    else if c == ' ' then nextPlace false (column + 1) fresh rest
    else ⟨c :: rest, column, fresh⟩

/-- Whether an item of a list begins here: a hyphen that stands alone. -/
def beginsItem : List Char → Bool
  | '-' :: rest => separatedFrom rest
  | _ => false

mutual

/-- What stands at a place, and what follows it. The first argument bounds the recursion. -/
def readNode : Nat → Nat → Place → Option (Data × List Char)
  | 0, _, _ => none
  | fuel + 1, least, place =>
    if beginsItem place.rest then do
      let (items, after) ← readItems fuel place.column place.rest
      return (.list items, after)
    else if (readName least place.column place.rest).isSome then do
      let (fields, after) ← readFields fuel least place.column place.rest
      return (.record (Table.ofEntries fields).entries, after)
    else if place.column == 0 && isMark place.rest then none
    else readScalar least place.rest

/-- The items whose hyphens stand at a column, from the first hyphen on, and what follows them. -/
def readItems : Nat → Nat → List Char → Option (List Data × List Char)
  | 0, _, _ => none
  | fuel + 1, column, text => do
    let place := nextPlace false (column + 1) true text.tail
    let (item, after) ←
      if place.rest.isEmpty || place.column ≤ column then some (.null, text.tail)
      else readNode fuel (column + 1) place
    let next := nextPlace false 0 false after
    if next.rest.isEmpty || (next.fresh &&
        (next.column < column || (next.column == column && !beginsItem next.rest))) then
      return ([item], after)
    else if next.fresh && next.column == column then do
      let (items, last) ← readItems fuel column next.rest
      return (item :: items, last)
    else none

/-- The fields whose names begin at a column, from the first name on, and what follows them. -/
def readFields : Nat → Nat → Nat → List Char → Option (List (String × Data) × List Char)
  | 0, _, _, _ => none
  | fuel + 1, least, column, text => do
    let (name, content) ← readName least column text
    let (value, after) ← readValue fuel column content
    let next := nextPlace false 0 false after
    if next.rest.isEmpty || (next.fresh && next.column < column) then
      return ([(name, value)], after)
    else if next.fresh && next.column == column then do
      let (fields, last) ← readFields fuel (column + 1) column next.rest
      return ((name, value) :: fields, last)
    else none

/-- The value of a field whose name begins at a column, and what follows it. A list may begin at the
same column, and a value may be missing. -/
def readValue : Nat → Nat → List Char → Option (Data × List Char)
  | 0, _, _ => none
  | fuel + 1, column, text =>
    let place := nextPlace false 0 false text
    if place.rest.isEmpty then some (.null, text)
    else if !place.fresh then readScalar (column + 1) place.rest
    else if place.column == column && beginsItem place.rest then do
      let (items, after) ← readItems fuel column place.rest
      return (.list items, after)
    else if place.column ≤ column then some (.null, text)
    else readNode fuel (column + 1) place

end

/-- The data that a whole text holds, by the rules that this module lists. A text opens at most
three calls for each of its characters. -/
def parse? (text : List Char) : Option Data :=
  if !text.all isReadable then none
  else
    -- A byte order mark may stand in front.
    let start :=
      nextPlace false 0 true (if text.head?.any (·.toNat == 0xFEFF) then text.tail else text)
    if start.rest.isEmpty then some .null
    else do
      let (data, after) ← readNode (3 * text.length + 3) 0 start
      if (nextPlace false 0 false after).rest.isEmpty then return data else none

end Lineage.Yaml
