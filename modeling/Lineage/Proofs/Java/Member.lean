import Lineage.Java.Method
import Lineage.Proofs.Java.Grammar

/-! Methods and constructors as the language allows them to be written. -/

namespace Lineage.Java

open Lineage.Text

/-- A pair of square brackets, with blanks before it and inside. -/
structure Dimension where
  before : Blanks
  inside : Blanks

/-- A pair of square brackets as it is written. -/
def Dimension.text (dimension : Dimension) : List Char :=
  dimension.before.text ++ ('[' :: (dimension.inside.text ++ [']']))

/-- A type as it stands before a name: words joined by dots, perhaps type arguments, and pairs of
square brackets. -/
structure ReturnType where
  name : QualifiedName
  arguments : Option (Blanks × Angles)
  dimensions : List Dimension

/-- A type as it is written. -/
def ReturnType.text (type : ReturnType) : List Char :=
  type.name.text ++ argumentsText type.arguments ++ type.dimensions.flatMap Dimension.text

/-- An exception behind a comma, with blanks around the comma. -/
structure FurtherException where
  before : Blanks
  behind : Blanks
  name : QualifiedName

/-- A further exception with its comma, as it is written. -/
def FurtherException.text (further : FurtherException) : List Char :=
  further.before.text ++ (',' :: (further.behind.text ++ further.name.text))

/-- The exceptions that a method announces. -/
structure Exceptions where
  before : Blanks
  behind : Spacing
  first : QualifiedName
  more : List FurtherException

/-- The exceptions with the word that announces them, as they are written. -/
def Exceptions.text (exceptions : Exceptions) : List Char :=
  exceptions.before.text ++ ("throws".toList ++ (exceptions.behind.text ++
    (exceptions.first.text ++ exceptions.more.flatMap FurtherException.text)))

/-- What a method ends with: a semicolon, or a block in which no parenthesis opens. -/
inductive Ending where
  | semicolon
  | block (inner : List Char) (plain : '(' ∉ inner)

/-- The first character of an ending. -/
def Ending.mark : Ending → Char
  | .semicolon => ';'
  | .block _ _ => '{'

/-- What stands behind the first character of an ending. -/
def Ending.behind : Ending → List Char
  | .semicolon => []
  | .block inner _ => inner ++ ['}']

/-- A method or a constructor from its name on. -/
structure Signature where
  name : Word
  noKeyword : name.text ∉ notATypeWords
  space : Blanks
  parameters : List Char
  plain : ∀ c ∈ parameters, c ∉ ['(', ')']
  dimensions : List Dimension
  exceptions : Option Exceptions
  last : Blanks
  ending : Ending

/-- The exceptions, if there are any, and the blanks before the ending. -/
def Signature.tail (signature : Signature) : List Char :=
  signature.exceptions.elim [] Exceptions.text ++ signature.last.text

/-- What stands between the parameters and the ending, and the first character of the ending. -/
def Signature.behindParameters (signature : Signature) : List Char :=
  signature.dimensions.flatMap Dimension.text ++ (signature.tail ++ [signature.ending.mark])

/-- What stands between the name and the ending, and the first character of the ending. -/
def Signature.behindName (signature : Signature) : List Char :=
  signature.space.text ++ ('(' :: (signature.parameters ++ (')' :: signature.behindParameters)))

/-- A header from its name to the first character of the ending. -/
def Signature.header (signature : Signature) : List Char :=
  signature.name.text ++ signature.behindName

/-- A type, blanks, and what has this type. -/
structure Typed where
  type : ReturnType
  space : Spacing
  signature : Signature

/-- A type and what has it, up to the first character of the ending. -/
def Typed.text (typed : Typed) : List Char :=
  typed.type.text ++ (typed.space.text ++ typed.signature.header)

/-- A modifier of a method and the blanks behind it. -/
structure MethodModifier where
  word : List Char
  listed : word ∈ methodModifiers
  space : Spacing

/-- A modifier as it is written. -/
def MethodModifier.text (modifier : MethodModifier) : List Char :=
  modifier.word ++ modifier.space.text

/-- Type parameters with blanks behind them, which may be absent. -/
def parametersText (parameters : Option (Angles × Blanks)) : List Char :=
  parameters.elim [] fun given => given.1.text ++ given.2.text

/-- A method: modifiers, perhaps type parameters, the type that it returns, and its signature. The
type does not begin with a word that only a statement has before a name. -/
structure Member where
  modifiers : List MethodModifier
  typeParameters : Option (Angles × Blanks)
  typed : Typed
  noKeyword : typed.type.name.first.text ∉ notATypeWords

/-- A method up to the first character of its ending. -/
def Member.header (member : Member) : List Char :=
  member.modifiers.flatMap MethodModifier.text ++
    (parametersText member.typeParameters ++ member.typed.text)

/-- A method with its ending. -/
def Member.text (member : Member) : List Char :=
  member.header ++ member.typed.signature.ending.behind

/-- A constructor with at least one modifier. It has no type, but it may have type parameters. -/
structure Constructor where
  modifiers : List MethodModifier
  last : MethodModifier
  typeParameters : Option (Angles × Spacing)
  signature : Signature

/-- A constructor from its type parameters on, up to the first character of its ending. -/
def Constructor.unmodified (given : Constructor) : List Char :=
  (given.typeParameters.elim [] fun angles => angles.1.text ++ angles.2.text) ++
    given.signature.header

/-- A constructor up to the first character of its ending. -/
def Constructor.header (given : Constructor) : List Char :=
  given.modifiers.flatMap MethodModifier.text ++ (given.last.text ++ given.unmodified)

/-- A constructor with its ending. -/
def Constructor.text (given : Constructor) : List Char :=
  given.header ++ given.signature.ending.behind

/-- What may stand in the body of a type. -/
inductive Item where
  | method (member : Member)
  | constructor (given : Constructor)

/-- An item as it is written. -/
def Item.text : Item → List Char
  | .method member => member.text
  | .constructor given => given.text

end Lineage.Java
