import Lineage.Text.Blank
import Lineage.Text.Reader
import Lineage.Text.Word

/-! References to types: how they are written, and the simple name a reference comes down to. -/

namespace Lineage.Java

open Lineage.Text

/-- Identifiers are made of word characters and dollar signs. -/
def isNameChar (c : Char) : Bool :=
  isWord c || c == '$'

/-- The text from its first angle bracket on. -/
def fromBracket (text : List Char) : List Char :=
  text.dropWhile fun c => !(c == '<' || c == '>')

/-- The text without the innermost pairs of angle brackets and what they enclose: a pair is an
opening bracket and the next bracket, if that one closes. -/
def dropInnermost : List Char → List Char
  | [] => []
  | c :: rest =>
    if c == '<' && (fromBracket rest).head? == some '>' then dropInnermost (fromBracket rest).tail
    else c :: dropInnermost rest
termination_by text => text.length
decreasing_by
  -- What follows the closing bracket is a part of what followed the opening one.
  · have shorter : (fromBracket rest).length ≤ rest.length := (List.dropWhile_suffix _).length_le
    simp only [List.length_tail, List.length_cons]
    omega
  · simp

/-- The text after `rounds` removals of the innermost pairs, or fewer once nothing changes. -/
def dropArguments : Nat → List Char → List Char
  | 0, text => text
  | rounds + 1, text =>
    let fewer := dropInnermost text
    if fewer == text then text else dropArguments rounds fewer

/-- The part of a text after its last dot. -/
def afterLastDot (text : List Char) : List Char :=
  (text.reverse.takeWhile (· != '.')).reverse

/-- The simple name of a reference: without type arguments, blanks around it and qualifier. Every
removal shortens the text, so its length bounds their number. -/
def simpleName (reference : List Char) : List Char :=
  afterLastDot (trim (dropArguments reference.length reference))

/-- Cuts a list of references at the commas that stand outside angle brackets. A closing bracket
that was never opened counts for nothing. -/
def cutAtCommas (depth : Nat) : List Char → List (List Char)
  | [] => [[]]
  | c :: rest =>
    if c == ',' && depth == 0 then [] :: cutAtCommas 0 rest
    else
      let deeper := if c == '<' then depth + 1 else if c == '>' then depth - 1 else depth
      match cutAtCommas deeper rest with
      | [] => [[c]]
      | part :: more => (c :: part) :: more

/-- The simple names in a list of references, in order; a part that has no name is left out. -/
def simpleNames (references : List Char) : List (List Char) :=
  ((cutAtCommas 0 references).map simpleName).filter (!·.isEmpty)

namespace Reader

open Lineage.Text.Reader

/-- Any number of blanks. -/
def blanks : Reader Unit :=
  run isBlank

/-- At least one blank. -/
def blanks1 : Reader Unit :=
  run1 isBlank

/-- The place behind the angle bracket that closes the first of `depth + 1` open ones. Brackets nest
at most three deep, and neither a brace nor a semicolon stands among them. -/
def closeAngles? (depth offset : Nat) : List Char → Option Cursor
  | [] => none
  | c :: rest =>
    if c == '<' then if depth < 2 then closeAngles? (depth + 1) (offset + 1) rest else none
    else if c == '>' then
      match depth with
      | 0 => some ⟨offset + 1, some c, rest⟩
      | shallower + 1 => closeAngles? shallower (offset + 1) rest
    else if c == '{' || c == '}' || c == ';' then none
    else closeAngles? depth (offset + 1) rest

/-- Type arguments or type parameters: angle brackets and all that they enclose. -/
def arguments : Reader Unit := do
  char (· == '<')
  fun place => (closeAngles? 0 place.offset place.rest).toList.map fun after => ((), after)

/-- Identifiers joined by dots. -/
def path : Reader Unit := do
  run1 isNameChar
  let _ ← many do
    char (· == '.')
    run1 isNameChar

/-- Type arguments that may be absent, after any blanks. -/
def someArguments : Reader Unit := do
  let _ ← optional do
    blanks
    arguments

/-- A reference to a type: a path and perhaps type arguments. -/
def reference : Reader Unit := do
  path
  someArguments

/-- References with commas between them. -/
def references : Reader Unit := do
  reference
  let _ ← many do
    blanks
    char (· == ',')
    blanks
    reference

end Reader

end Lineage.Java
