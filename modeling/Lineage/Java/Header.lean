import Lineage.Java.TypeName

/-! Headers of class and interface declarations. -/

namespace Lineage.Java

open Lineage.Text

/-- The words that may precede `class`. -/
def classModifiers : List (List Char) :=
  ["public", "protected", "private", "abstract", "final", "static", "strictfp", "sealed",
    "non-sealed"].map String.toList

/-- The words that may precede `interface`. -/
def interfaceModifiers : List (List Char) :=
  ["public", "protected", "private", "abstract", "static", "strictfp", "sealed", "non-sealed"].map
    String.toList

/-- What the header of a class says. -/
structure ClassHeader where
  modifiers : List (List Char)
  name : Excerpt
  superclass : Option Excerpt
  interfaces : Option Excerpt

/-- What the header of an interface says. -/
structure InterfaceHeader where
  name : Excerpt
  interfaces : Option Excerpt

namespace Reader

open Lineage.Text.Reader

/-- A header does not begin within a name, behind a dot or behind an at sign. -/
def headerStart : Reader Unit :=
  notAfter fun c => isNameChar c || c == '.' || c == '@'

/-- Any of the given words, each with blanks behind it. -/
def modifiers (words : List (List Char)) : Reader (List (List Char)) :=
  many do
    let word ← wordOf words
    blanks1
    return word

/-- Any name. -/
def anyName : Reader Unit :=
  run1 isNameChar

/-- A word between blanks and then what it introduces, or neither. -/
def clause (word : List Char) (content : Reader Unit) : Reader (Option Excerpt) :=
  optional do
    blanks1
    literal word
    blanks1
    stretch content

/-- The header of a class of the given name. -/
def classHeader (name : Reader Unit) : Reader ClassHeader := do
  headerStart
  let modifiers ← modifiers classModifiers
  literal "class".toList
  blanks1
  let name ← stretch name
  notBefore isNameChar
  someArguments
  let superclass ← clause "extends".toList reference
  let interfaces ← clause "implements".toList references
  return { modifiers, name, superclass, interfaces }

/-- The header of an interface of the given name. -/
def interfaceHeader (name : Reader Unit) : Reader InterfaceHeader := do
  headerStart
  let _ ← modifiers interfaceModifiers
  literal "interface".toList
  blanks1
  let name ← stretch name
  notBefore isNameChar
  someArguments
  let interfaces ← clause "extends".toList references
  return { name, interfaces }

end Reader

end Lineage.Java
