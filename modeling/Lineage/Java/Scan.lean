import Lineage.Declaration
import Lineage.Java.Header

/-! The declarations in a source whose literals are blanked. -/

namespace Lineage.Java

open Lineage.Text

/-- The simple names in a list of references, if there is a list. -/
def namesIn (references : Option Excerpt) : List String :=
  (simpleNames (references.elim [] Excerpt.text)).map String.ofList

/-- The class that a header announces. It is abstract if one of the modifiers says so. -/
def ClassHeader.declaration (header : ClassHeader) : Declaration where
  name := String.ofList header.name.text
  kind := if header.modifiers.contains "abstract".toList then .abstractClass else .plainClass
  superclass := (header.superclass.map fun reference => simpleName reference.text).bind fun name =>
    if name.isEmpty then none else some (String.ofList name)
  interfaces := namesIn header.interfaces
  superless := by split <;> simp

/-- The interface that a header announces. -/
def InterfaceHeader.declaration (header : InterfaceHeader) : Declaration where
  name := String.ofList header.name.text
  kind := .interface
  interfaces := namesIn header.interfaces

/-- A declaration and the place where its header begins. -/
structure Placed where
  start : Nat
  declaration : Declaration

/-- The classes of a text, each where its header begins. -/
def classesIn (text : List Char) : List Placed :=
  ((Reader.classHeader Reader.anyName).all text).map fun found =>
    ⟨found.start, found.value.declaration⟩

/-- The interfaces of a text, each where its header begins. -/
def interfacesIn (text : List Char) : List Placed :=
  ((Reader.interfaceHeader Reader.anyName).all text).map fun found =>
    ⟨found.start, found.value.declaration⟩

/-- The declarations of a text in the order in which their headers begin, without their methods. A
nested type counts as one more declaration. -/
def declarationsIn (text : List Char) : List Declaration :=
  ((classesIn text).merge (interfacesIn text) fun one other => one.start ≤ other.start).map
    (·.declaration)

end Lineage.Java
