import Lineage.Java.Body
import Lineage.Java.Doc
import Lineage.Java.Scan
import Lineage.Log

/-! The declarations of a source with their methods. -/

namespace Lineage.Java

/-- Where the documentation of a method is looked up. Other scopes cannot be asked for; the names of
these two are read by `DocScope.ofLabel?`. -/
inductive DocScope where
  | declaration
  | file
  deriving DecidableEq, Repr

/-- The name of a scope in settings. -/
def DocScope.label : DocScope → String
  | .declaration => "declaration"
  | .file => "file"

/-- Every scope, in the order in which messages list them. -/
def DocScope.all : List DocScope :=
  [.declaration, .file]

/-- The scope with a given name. -/
def DocScope.ofLabel? (label : String) : Option DocScope :=
  DocScope.all.find? (·.label == label)

/-- What is said of a source that is no text. -/
def noText : String :=
  "expected string or bytes-like object, got 'NoneType'"

/-- The methods in the body of a type, with the documentation found for their names. Constructors
are left out: they bear the name of the type. -/
def methodsIn (body : List Char) (typeName : List Char) (docs : List (List Char × List Char)) :
    List Method :=
  ((methodHeaders (blanked body)).filter (·.1 != typeName)).map fun (name, parameters) =>
    { name := String.ofList name
      parameters := String.ofList parameters
      documentation := String.ofList ((docs.lookup name).getD []) }

/-- The methods of the type with a given name. With the file as scope, types that share a file share
the documentation of methods of one name. -/
def methodsOf (source : List Char) (scope : DocScope) (kind : Kind) (name : String) :
    Logged (List Method) :=
  match body? source kind name.toList with
  | none => do
    Logged.note .debug ("No balanced body found for " ++ name)
    return []
  | some body =>
    let documented := match scope with
      | .declaration => body.text
      | .file => source
    return methodsIn body.text name.toList (docLookup documented)

/-- The methods of a type in a source that may be missing. -/
def methodsOf? (source : Option (List Char)) (scope : DocScope) (kind : Kind) (name : String) :
    Logged (List Method) :=
  match source with
  | some text => methodsOf text scope kind name
  | none => do
    Logged.note .warning ("Could not extract methods of " ++ name ++ ": " ++ noText)
    return []

/-- The declarations of a source in order, each with its methods. -/
def declarationsOf (source : List Char) (scope : DocScope) : Logged (List Declaration) := do
  let found := declarationsIn (blanked source)
  Logged.note .debug ("Scanned " ++ toString found.length ++ " declarations")
  found.mapM fun declaration => do
    let methods ← methodsOf source scope declaration.kind declaration.name
    return { declaration with methods }

/-- The declarations of a source are those of its blanked text, each with its own methods. -/
theorem value_declarationsOf (source : List Char) (scope : DocScope) :
    (declarationsOf source scope).value = (declarationsIn (blanked source)).map fun declaration =>
      { declaration with methods := (methodsOf source scope declaration.kind
        declaration.name).value } := by
  simp only [declarationsOf, Logged.value_bind, Logged.value_mapM, Logged.value_pure]

end Lineage.Java
