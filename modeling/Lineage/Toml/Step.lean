/-! Steps of reading a document: each takes some of the text that is left, or finds a fault. -/

namespace Lineage.Toml

/-- What is wrong with a document. -/
inductive Fault where
  | malformed
  | tooManyDigits (count : Nat)
  deriving DecidableEq, Repr

/-- A step takes the front of the text that is left. -/
abbrev Step := StateT (List Char) (Except Fault)

namespace Step

/-- The document is not well formed. -/
def malformed {α : Type} : Step α :=
  throw .malformed

/-- The next character, which is left where it is. -/
def peek : Step (Option Char) := do
  return (← get).head?

/-- Whether the text that is left begins with a mark. -/
def sees (mark : List Char) : Step Bool := do
  return mark.isPrefixOf (← get)

/-- Takes a number of characters. -/
def advance (count : Nat) : Step Unit :=
  modify (List.drop count)

/-- Takes a mark, which must be there. -/
def expect (mark : List Char) : Step Unit := do
  if ← sees mark then advance mark.length else malformed

/-- Takes the characters of a class. -/
def takeAll (p : Char → Bool) : Step (List Char) := do
  let taken := (← get).takeWhile p
  advance taken.length
  return taken

/-- Passes over the characters of a class. -/
def skipAll (p : Char → Bool) : Step Unit := do
  let _ ← takeAll p

end Step

/-- Spaces and tabs, which separate the parts of a line. -/
def isTomlBlank (c : Char) : Bool :=
  c == ' ' || c == '\t'

/-- Spaces, tabs and line feeds, which separate the parts of an array. -/
def isTomlGap (c : Char) : Bool :=
  isTomlBlank c || c == '\n'

/-- The control characters of ASCII without the tab. -/
def isControl (c : Char) : Bool :=
  (c.toNat < 32 && c != '\t') || c.toNat == 127

namespace Step

/-- Passes over a comment, which runs to the end of its line and holds no control characters. -/
def skipComment : Step Unit := do
  if ← sees ['#'] then
    let comment ← takeAll (· != '\n')
    if comment.any isControl then malformed

/-- Passes over spaces, tabs, line feeds and comments. -/
def skipGaps : Nat → Step Unit
  | 0 => return
  | budget + 1 => do
    let before ← get
    skipAll isTomlGap
    skipComment
    if (← get).length < before.length then skipGaps budget

end Step

end Lineage.Toml
