import Lineage.Java.Method

/-! Doc comments, and the methods they belong to. -/

namespace Lineage.Java

open Lineage.Text

/-- Whether a character is a space or a tab. -/
def isSpaceOrTab (c : Char) : Bool :=
  c == ' ' || c == '\t'

/-- The text without its first character if that is of a class. -/
def dropOne (p : Char → Bool) : List Char → List Char
  | [] => []
  | c :: rest => if p c then rest else c :: rest

/-- A line without the spaces, the star and the one space that decorate it. -/
def undecorated (line : List Char) : List Char :=
  dropOne isSpaceOrTab (dropOne (· == '*') (line.dropWhile isSpaceOrTab))

/-- The contents of a doc comment without decoration, without the blanks around it and at the ends
of lines. -/
def cleanDoc (raw : List Char) : List Char :=
  let bare := ['\n'].intercalate ((raw.splitOn '\n').map undecorated)
  ['\n'].intercalate ((lines (trim bare)).map trimEnd)

/-- A doc comment and the header of the method it stands before. -/
structure DocumentedMethod where
  doc : Excerpt
  header : MethodHeader

namespace Reader

open Lineage.Text.Reader

/-- An annotation with the blanks behind it. -/
def annotationMark : Reader Unit := do
  char (· == '@')
  run1 fun c => isNameChar c || c == '.'
  let _ ← optional do
    blanks
    char (· == '(')
    run fun c => !(c == '(' || c == ')')
    char (· == ')')
  blanks

/-- A doc comment, annotations, and the header of a method, with nothing else between them. -/
def documentedMethod : Reader DocumentedMethod := do
  literal ['/', '*', '*']
  let doc ← stretch (upTo ['*', '/'])
  literal ['*', '/']
  blanks
  let _ ← many annotationMark
  let header ← methodHeader
  return { doc, header }

end Reader

/-- The names of the documented methods in a text, each with its doc comment, in order. -/
def documentedMethods (text : List Char) : List (List Char × List Char) :=
  (Reader.documentedMethod.all text).filterMap fun found =>
    let header := found.value.header
    if isNoType header.returnType.text then none
    else some (header.name.text, cleanDoc found.value.doc.text)

/-- The doc comment of each documented name; the first one wins. -/
def docLookup (text : List Char) : List (List Char × List Char) :=
  (documentedMethods text).foldl
    (fun known entry => if known.any (·.1 == entry.1) then known else known ++ [entry]) []

end Lineage.Java
