import Lineage.Java.Header

/-! Headers of methods. -/

namespace Lineage.Java

open Lineage.Text

/-- The words that may precede the return type of a method. -/
def methodModifiers : List (List Char) :=
  ["public", "protected", "private", "static", "final", "abstract", "synchronized", "native",
    "default", "strictfp"].map String.toList

/-- Words that can precede a name and a parenthesis in a statement and are never a return type. -/
def notATypeWords : List (List Char) :=
  ["new", "return", "throw", "else", "case", "yield", "assert", "goto",
    "if", "for", "while", "switch", "catch", "synchronized", "do", "try",
    "public", "protected", "private", "static", "final", "abstract",
    "native", "default", "strictfp", "transient", "volatile", "class",
    "interface", "enum", "extends", "implements", "throws", "import",
    "package", "instanceof", "super", "this"].map String.toList

/-- Whether a text is one of the words that are never a return type. -/
def isNoType (text : List Char) : Bool :=
  notATypeWords.contains text

/-- What the header of a method says. -/
structure MethodHeader where
  returnType : Excerpt
  name : Excerpt
  parameters : Excerpt

namespace Reader

open Lineage.Text.Reader

/-- Pairs of square brackets, with blanks wherever they like. -/
def dimensions : Reader Unit := do
  let _ ← many do
    blanks
    char (· == '[')
    blanks
    char (· == ']')

/-- The exceptions that a method announces. -/
def throwsClause : Reader Unit := do
  literal "throws".toList
  blanks1
  shortRun1 fun c => isNameChar c || c == '.' || c == ',' || isBlank c

/-- The header of a method, from its modifiers to the brace or the semicolon behind it. -/
def methodHeader : Reader MethodHeader := do
  notAfter fun c => isNameChar c || c == '.'
  let _ ← modifiers methodModifiers
  let _ ← optional do
    arguments
    blanks
  let returnType ← stretch do
    reference
    dimensions
  blanks1
  let name ← stretch anyName
  blanks
  char (· == '(')
  let parameters ← stretch (run fun c => !(c == '(' || c == ')'))
  char (· == ')')
  dimensions
  blanks
  let _ ← optional throwsClause
  blanks
  char fun c => c == '{' || c == ';'
  return { returnType, name, parameters }

end Reader

/-- The names and parameters of the methods whose headers stand in a text, in order. What has a
statement's word for its type or its name only looks like a header and is left out. -/
def methodHeaders (text : List Char) : List (List Char × List Char) :=
  (Reader.methodHeader.all text).filterMap fun found =>
    let header := found.value
    if isNoType header.returnType.text || isNoType header.name.text then none
    else some (header.name.text, header.parameters.text)

end Lineage.Java
