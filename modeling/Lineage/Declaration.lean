import Lineage.Text.Quoted

/-! Classes and interfaces as a source declares them. -/

namespace Lineage

/-- What kind of type is declared. -/
inductive Kind where
  | plainClass
  | abstractClass
  | interface
  deriving DecidableEq, Repr

/-- The name of a kind in exported data. -/
def Kind.label : Kind → String
  | .plainClass => "class"
  | .abstractClass => "abstract_class"
  | .interface => "interface"

/-- The kind with a given name. -/
def Kind.ofLabel? (label : String) : Option Kind :=
  [Kind.plainClass, .abstractClass, .interface].find? (·.label == label)

/-- A method of a class or an interface. The parameters are the text between the parentheses. -/
structure Method where
  name : String
  parameters : String := ""
  documentation : String := ""
  deriving DecidableEq, Repr

/-- One class or interface of a source file. The interfaces are those a class implements or an
interface extends. -/
structure Declaration where
  name : String
  kind : Kind
  superclass : Option String := none
  interfaces : List String := []
  methods : List Method := []
  sourceFile : Option String := none
  /-- Only a class extends a class. -/
  superless : kind = .interface → superclass = none := by simp
  deriving DecidableEq, Repr

/-- Why a declaration cannot be made. -/
inductive DeclarationFault where
  | unknownKind (label : String)
  | superclassOfInterface (name : String)
  deriving DecidableEq, Repr

/-- What is wrong, in words. -/
def DeclarationFault.message : DeclarationFault → String
  | .unknownKind label => "Unknown type kind: " ++ Text.quoted label
  | .superclassOfInterface name => "Interface " ++ name ++ " cannot have a superclass"

/-- Makes a declaration from the name of its kind. -/
def Declaration.make (name kindLabel : String) (superclass : Option String)
    (interfaces : List String) (methods : List Method) (sourceFile : Option String) :
    Except DeclarationFault Declaration :=
  match Kind.ofLabel? kindLabel with
  | none => .error (.unknownKind kindLabel)
  | some kind =>
    if valid : kind = .interface → superclass = none then
      .ok { name, kind, superclass, interfaces, methods, sourceFile, superless := valid }
    else .error (.superclassOfInterface name)

end Lineage
