import Lineage.Data
import Lineage.Text.Hex

/-! Data written as JSON in ASCII, on one line or spread over many. -/

namespace Lineage.Json

open Lineage.Text

/-- One 16-bit unit as an escape sequence. -/
def unit16 (unit : Nat) : List Char :=
  '\\' :: 'u' :: hexDigits .lower 4 unit

/-- One character between quotes. Characters outside ASCII become one escape sequence, and those
beyond 16 bits a pair of surrogates. -/
def character (c : Char) : List Char :=
  if c == '"' || c == '\\' then ['\\', c]
  else if c == '\n' then ['\\', 'n']
  else if c == '\r' then ['\\', 'r']
  else if c == '\t' then ['\\', 't']
  else if c == '\x0c' then ['\\', 'f']
  else if c == '\x08' then ['\\', 'b']
  else if 32 ≤ c.toNat && c.toNat < 127 then [c]
  else if c.toNat < 0x10000 then unit16 c.toNat
  else
    let beyond := c.toNat - 0x10000
    unit16 (0xD800 + beyond / 0x400) ++ unit16 (0xDC00 + beyond % 0x400)

/-- A text between quotes. -/
def quotation (text : String) : List Char :=
  '"' :: text.toList.flatMap character ++ ['"']

/-- The words for the truth values. -/
def truth (value : Bool) : List Char :=
  if value then ['t', 'r', 'u', 'e'] else ['f', 'a', 'l', 's', 'e']

mutual

/-- Data on one line, with a blank behind each comma and colon. -/
def compact : Data → List Char
  | .null => ['n', 'u', 'l', 'l']
  | .boolean value => truth value
  | .number written => written.toList
  | .text value => quotation value
  | .list items => '[' :: compactItems items ++ [']']
  | .record fields => '{' :: compactFields fields ++ ['}']

/-- Items on one line with commas between them. -/
def compactItems : List Data → List Char
  | [] => []
  | [item] => compact item
  | item :: more => compact item ++ [',', ' '] ++ compactItems more

/-- Fields on one line with commas between them. -/
def compactFields : List (String × Data) → List Char
  | [] => []
  | [(name, value)] => quotation name ++ [':', ' '] ++ compact value
  | (name, value) :: more => quotation name ++ [':', ' '] ++ compact value ++
    [',', ' '] ++ compactFields more

end

/-- A new line that begins with `depth` steps of two spaces. -/
def newLine (depth : Nat) : List Char :=
  '\n' :: List.replicate (2 * depth) ' '

mutual

/-- Data spread over lines, each item and each field on a line of its own. -/
def spread (depth : Nat) : Data → List Char
  | .null => ['n', 'u', 'l', 'l']
  | .boolean value => truth value
  | .number written => written.toList
  | .text value => quotation value
  | .list [] => ['[', ']']
  | .list (item :: more) => '[' :: spreadItems (depth + 1) (item :: more) ++ newLine depth ++ [']']
  | .record [] => ['{', '}']
  | .record (entry :: more) => '{' :: spreadFields (depth + 1) (entry :: more) ++ newLine depth ++
    ['}']

/-- Items on lines of their own with commas between them. -/
def spreadItems (depth : Nat) : List Data → List Char
  | [] => []
  | [item] => newLine depth ++ spread depth item
  | item :: more => newLine depth ++ spread depth item ++ [','] ++ spreadItems depth more

/-- Fields on lines of their own with commas between them. -/
def spreadFields (depth : Nat) : List (String × Data) → List Char
  | [] => []
  | [(name, value)] => newLine depth ++ quotation name ++ [':', ' '] ++ spread depth value
  | (name, value) :: more =>
    newLine depth ++ quotation name ++ [':', ' '] ++ spread depth value ++ [','] ++
      spreadFields depth more

end

end Lineage.Json
