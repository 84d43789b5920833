import Lineage.Proofs.Java.Printed.Doc

/-! Reading what was written gives back all that was written. -/

namespace Lineage.Java

open Lineage.Text

/-- The methods in the body of a written type, with the documentation found there, are those of the
type. -/
theorem TypeText.Fits.methodsIn_inside {margin : List Char} (blank : ∀ c ∈ margin, isBlank c = true)
    {type : TypeText} (fits : type.Fits) :
    methodsIn (type.inside margin) type.name
      (docLookup (type.inside margin)) = type.declaration.methods := by
  -- No method bears the name of the type, so none is left out as a constructor.
  have kept : (type.methods.map fun method => (method.name, method.parameters)).filter
      (·.1 != type.name) =
        type.methods.map fun method => (method.name, method.parameters) := by
    rw [List.filter_eq_self]
    intro pair member
    obtain ⟨method, listed, rfl⟩ := List.mem_map.mp member
    simpa using (fits.methods method listed).noConstructor
  -- Each name is looked up among the documented methods, of which the first one counts.
  have documentation : ∀ name, ((docLookup (type.inside margin)).lookup name).getD [] =
      type.documentationOf name := by
    intro name
    rw [lookup_docLookup, fits.documentedMethods_inside blank, lookup_entries,
      TypeText.documentationOf]
    cases type.methods.find? fun method =>
      method.name == name && !method.documentation.isEmpty <;> rfl
  rw [methodsIn, fits.methodHeaders_inside blank, kept, List.map_map]
  refine List.map_congr_left fun method _ => ?_
  simp only [Function.comp, documentation]

/-- The methods of a written type are found among all that is written. -/
theorem methodsOf_types {margin : List Char} (blank : ∀ c ∈ margin, isBlank c = true)
    {front back : List TypeText} {type : TypeText}
    (fit : ∀ other ∈ front ++ type :: back, other.Fits)
    (different : ∀ other ∈ front, type.name ≠ other.name) :
    (methodsOf ((front ++ type :: back).flatMap (TypeText.print margin)) .declaration type.kind
      (String.ofList type.name)).value = type.declaration.methods := by
  obtain ⟨start, body⟩ := body?_types blank fit different
  rw [methodsOf, String.toList_ofList, body]
  exact (fit type (by simp)).methodsIn_inside blank

/-- Types with different names that are written down one behind the other are read as they are: each
with its name, kind, superclass and interfaces, and with its methods, whose parameters are kept to
the letter and whose documentation is that of the first documented method of the name. -/
theorem declarationsOf_print {margin : List Char} {types : List TypeText}
    (blank : ∀ c ∈ margin, isBlank c = true) (fit : ∀ type ∈ types, type.Fits)
    (distinct : (types.map TypeText.name).Nodup) :
    (declarationsOf (types.flatMap (TypeText.print margin)) .declaration).value =
      types.map TypeText.declaration := by
  rw [value_declarationsOf, blanked_types blank fit, declarationsIn_types blank fit, List.map_map]
  refine List.map_congr_left fun type member => ?_
  -- No type before this one has its name, so the body that is found first is its own.
  obtain ⟨front, back, rfl⟩ := List.append_of_mem member
  have different : ∀ other ∈ front, type.name ≠ other.name := by
    intro other listed same
    rw [List.map_append, List.map_cons, List.nodup_append] at distinct
    exact distinct.2.2 other.name (List.mem_map_of_mem listed) type.name
      List.mem_cons_self same.symm
  have methods : (methodsOf ((front ++ type :: back).flatMap (TypeText.print margin)) .declaration
      type.methodless.kind type.methodless.name).value =
        type.declaration.methods := methodsOf_types blank fit different
  simp only [Function.comp_apply, methods]
  rfl

/-- An abstract class with an overloaded method, of which only the first is documented, and an
interface. -/
theorem declarationsOf_print_overloaded :
    let shape : TypeText :=
      -- The types fit, and then both sides are evaluated.
      { name := "Shape".toList
        kind := .abstractClass
        superclass := some "Base".toList
        interfaces := ["Named".toList, "Drawn".toList]
        methods :=
          [{ returnType := "int".toList
             name := "size".toList
             parameters := "int a, int b".toList
             documentation := ["Counts \"all\".".toList, [], " Twice.".toList] },
           { returnType := "int".toList, name := "size".toList, parameters := [] }] }
    let named : TypeText :=
      { name := "Named".toList, kind := .interface, interfaces := ["Drawn".toList] }
    (∀ type ∈ [shape, named], type.Fits) ∧
      [shape, named].flatMap (TypeText.print ['\n']) =
        ("abstract class Shape extends Base implements Named, Drawn \x7b\n" ++
        "/**\n * Counts \"all\".\n * \n *  Twice.\n */\nint size(int a, int b);\n" ++
        "int size();\n\x7d\n" ++
        "interface Named extends Drawn \x7b\n\x7d\n").toList ∧
      (declarationsOf ([shape, named].flatMap (TypeText.print ['\n'])) .declaration).value =
        [{ name := "Shape"
           kind := .abstractClass
           superclass := some "Base"
           interfaces := ["Named", "Drawn"]
           methods :=
             [⟨"size", "int a, int b", "Counts \"all\".\n\n Twice."⟩,
             ⟨"size", "", "Counts \"all\".\n\n Twice."⟩] },
         { name := "Named", kind := .interface, interfaces := ["Drawn"] }] := by
  intro shape named
  have fit : ∀ type ∈ [shape, named], type.Fits := by decide +kernel
  refine ⟨fit, by decide +kernel, ?_⟩
  rw [declarationsOf_print (by decide) fit (by decide)]
  decide +kernel

end Lineage.Java
