import Lineage.Text.Hex
import Lineage.Yaml.Resolution

/-!
Texts in YAML: which style a text needs, and where its lines are folded.

A text is plain if version 1.1 of the language reads it back as this text, in single quotes if it
cannot be plain and has nothing to escape, and in double quotes otherwise. Escapes are those that
this version lists. Literal and folded blocks are never written.
-/

namespace Lineage.Yaml

open Lineage.Text

/-- Lines are folded once they are wider than this. -/
def bestWidth : Nat :=
  80

/-- Characters that break a line. -/
def isBreak (c : Char) : Bool :=
  c == '\n' || c.toNat == 0x85 || c.toNat == 0x2028 || c.toNat == 0x2029

/-- Characters that separate an indicator from what surrounds it. -/
def isSeparation (c : Char) : Bool :=
  c == '\x00' || c == ' ' || c == '\t' || c == '\r' || isBreak c

/-- Characters that can stand unescaped in a file: the printable ones, without byte order marks. -/
def isPlainChar (c : Char) : Bool :=
  let point := c.toNat
  c == '\n' || (0x20 ≤ point && point ≤ 0x7E) || point == 0x85 ||
    ((0xA0 ≤ point && point ≤ 0xD7FF) || (0xE000 ≤ point && point ≤ 0xFFFD && point != 0xFEFF) ||
      (0x10000 ≤ point && point < 0x10FFFF))

/-- Whether a text begins with what marks the start or the end of a document. -/
def beginsLikeMark : List Char → Bool
  | '-' :: '-' :: '-' :: _ => true
  | '.' :: '.' :: '.' :: _ => true
  | _ => false

/-- Whether nothing or a separation comes next. -/
def separatedFrom (rest : List Char) : Bool :=
  rest.head?.all isSeparation

/-- Whether the first character of a text has a meaning of its own at that place. -/
def beginsWithIndicator : List Char → Bool
  | [] => false
  | c :: rest =>
    "#,[]\x7b\x7d&*!|>'\"%@`".toList.contains c ||
      ((c == '?' || c == ':' || c == '-') && separatedFrom rest)

/-- Whether a colon that ends a word or a number sign that begins one stands in a text, behind the
given character. -/
def holdsIndicator (before : Char) : List Char → Bool
  | [] => false
  | c :: rest =>
    (c == ':' && separatedFrom rest) || (c == '#' && isSeparation before) || holdsIndicator c rest

/-- Whether two characters that follow each other satisfy a condition somewhere in a text. -/
def anyAdjacent (p : Char → Char → Bool) : List Char → Bool
  | c :: d :: rest => p c d || anyAdjacent p (d :: rest)
  | _ => false

/-- The styles in which a text can be written. -/
inductive Style where
  | plain
  | single
  | double
  deriving DecidableEq, Repr

/-- Whether only double quotes can hold a text: it has characters to escape, or spaces beside a
break. -/
def needsDouble (text : List Char) : Bool :=
  text.any (!isPlainChar ·) ||
    anyAdjacent (fun c d => (c == ' ' && isBreak d) || (isBreak c && d == ' ')) text

/-- Whether a text can stand without quotes: it has no spaces at its ends, no breaks and no
indicators, and it would not be read as something else. -/
def canBePlain (text : List Char) : Bool :=
  text.head? != some ' ' && text.getLast? != some ' ' && !text.any isBreak &&
    !beginsLikeMark text &&
    !beginsWithIndicator text && !(match text with
      | [] => false
      | c :: rest => holdsIndicator c rest) && !isReserved text

/-- The style for a text: none if it can do without, single quotes if they suffice, double quotes
otherwise. -/
def styleOf (text : List Char) : Style :=
  if needsDouble text then .double
  else if canBePlain text then .plain
  else .single

/-- A stretch of a text: other characters, spaces, or breaks. -/
inductive Stretch where
  | word (text : List Char)
  | spaces (count : Nat)
  | breaks (text : List Char)
  deriving DecidableEq, Repr

/-- The stretches of a text with one more character in front. -/
def consStretch (c : Char) (more : List Stretch) : List Stretch :=
  if c == ' ' then
    match more with
    | .spaces count :: rest => .spaces (count + 1) :: rest
    | _ => .spaces 1 :: more
  else if isBreak c then
    match more with
    | .breaks text :: rest => .breaks (c :: text) :: rest
    | _ => .breaks [c] :: more
  else
    match more with
    | .word text :: rest => .word (c :: text) :: rest
    | _ => .word [c] :: more

/-- The longest stretches of a text. -/
def stretches (text : List Char) : List Stretch :=
  text.foldr consStretch []

/-- A new line and its indentation. -/
def newLine (indent : Nat) : List Char :=
  '\n' :: List.replicate indent ' '

/-- A text without quotes from a column on. A single space beyond the width becomes a new line. -/
def foldPlain (indent column : Nat) : List Stretch → List Char
  | [] => []
  | .word text :: more => text ++ foldPlain indent (column + text.length) more
  | .spaces count :: more =>
    if count == 1 && bestWidth < column then newLine indent ++ foldPlain indent indent more
    else List.replicate count ' ' ++ foldPlain indent (column + count) more
  | .breaks text :: more => text ++ foldPlain indent column more

/-- A word between single quotes: a quote is written twice. -/
def doubleQuotes (text : List Char) : List Char :=
  text.flatMap fun c => if c == '\'' then ['\'', '\''] else [c]

/-- Breaks between single quotes: a line feed at their front is written twice, and the next line is
indented. -/
def foldedBreaks (indent : Nat) (breaks : List Char) : List Char :=
  (if breaks.head? == some '\n' then ['\n'] else []) ++ breaks ++ List.replicate indent ' '

/-- A text between single quotes from a column on. A single space beyond the width becomes a new
line, unless the text begins or ends with it. -/
def foldSingle (indent column : Nat) (isFirst : Bool) : List Stretch → List Char
  | [] => []
  | .word text :: more =>
    let written := doubleQuotes text
    written ++ foldSingle indent (column + written.length) false more
  | .spaces count :: more =>
    if count == 1 && bestWidth < column && !isFirst && !more.isEmpty then
      newLine indent ++ foldSingle indent indent false more
    else List.replicate count ' ' ++ foldSingle indent (column + count) false more
  | .breaks text :: more => foldedBreaks indent text ++ foldSingle indent indent false more

/-- Whether a character stands for itself between double quotes. -/
def isDoubleChar (c : Char) : Bool :=
  let point := c.toNat
  c != '"' && c != '\\' && point != 0x2028 && point != 0x2029 && point != 0xFEFF &&
    ((0x20 ≤ point && point ≤ 0x7E) || (0xA0 ≤ point && point ≤ 0xD7FF) ||
      (0xE000 ≤ point && point ≤ 0xFFFD))

/-- The letter behind the backslash for characters that have one. -/
def escapeLetter? (c : Char) : Option Char :=
  match c.toNat with
  | 0x00 => some '0'
  | 0x07 => some 'a'
  | 0x08 => some 'b'
  | 0x09 => some 't'
  | 0x0A => some 'n'
  | 0x0B => some 'v'
  | 0x0C => some 'f'
  | 0x0D => some 'r'
  | 0x1B => some 'e'
  | 0x22 => some '"'
  | 0x5C => some '\\'
  | 0x85 => some 'N'
  | 0x2028 => some 'L'
  | 0x2029 => some 'P'
  | _ => none

/-- An escape sequence: a letter, or the code point in as many digits as it needs. -/
def escaped (c : Char) : List Char :=
  match escapeLetter? c with
  | some letter => ['\\', letter]
  | none =>
    if c.toNat ≤ 0xFF then '\\' :: 'x' :: hexDigits .upper 2 c.toNat
    else if c.toNat ≤ 0xFFFF then '\\' :: 'u' :: hexDigits .upper 4 c.toNat
    else '\\' :: 'U' :: hexDigits .upper 8 c.toNat

/-- A space at the front of a folded line has a backslash before it. -/
def leadingSpaceMark (text : List Char) : List Char :=
  if text.head? == some ' ' then ['\\'] else []

/-- A text between double quotes from a column on. Beyond the width a line is folded before a space,
before a character that follows an escape sequence, and behind an escape sequence; neither the first
nor the last character is followed or preceded by a fold of its own. -/
def foldDouble (indent column : Nat) (isFirst afterEscape : Bool) : List Char → List Char
  | [] => []
  | c :: rest =>
    let foldable := !isFirst && !rest.isEmpty
    if isDoubleChar c then
      if foldable && (c == ' ' || afterEscape) && bestWidth < column then
        let mark := leadingSpaceMark [c]
        '\\' :: newLine indent ++ mark ++ c ::
          foldDouble indent (indent + mark.length + 1) false false rest
      else c :: foldDouble indent (column + 1) false false rest
    else
      let written := escaped c
      -- The last character of the escape sequence may still stand at the edge.
      if foldable && bestWidth < column + written.length - 1 then
        let mark := leadingSpaceMark rest
        written ++ '\\' :: newLine indent ++ mark ++
          foldDouble indent (indent + mark.length) false true rest
      else written ++ foldDouble indent (column + written.length) false true rest

/-- A text behind a blank at a column, with the indentation for further lines. -/
def scalar (indent column : Nat) (text : String) : List Char :=
  let content := text.toList
  match styleOf content with
  | .plain => ' ' :: foldPlain indent (column + 1) (stretches content)
  | .single => ' ' :: '\'' :: foldSingle indent (column + 2) true (stretches content) ++ ['\'']
  | .double => ' ' :: '"' :: foldDouble indent (column + 2) true false content ++ ['"']

end Lineage.Yaml
