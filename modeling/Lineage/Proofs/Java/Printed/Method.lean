import Lineage.Proofs.Java.Member.Scan
import Lineage.Proofs.Java.Printed.Body

/-! The headers of written methods are read as they were written, and each one is found once, in
order. -/

namespace Lineage.Java

open Lineage.Text

variable {typeName : List Char} {method : MethodText}

/-- The header of a method begins with a character of a name. -/
theorem MethodText.Fits.exists_cons (fits : method.Fits typeName) (rest : List Char) :
    ∃ c more, method.header ++ rest = c :: more ∧ isNameChar c = true := by
  obtain ⟨c, type, isType⟩ := List.exists_cons_of_ne_nil fits.returnType.nonempty
  exact ⟨c, _, by rw [MethodText.header, isType]; rfl, fits.returnType.named c (by simp [isType])⟩

theorem Identifier.isName {word : List Char} (identifier : Identifier word) : Reader.IsName word :=
  ⟨identifier.nonempty, identifier.named⟩

/-- A written method among all that the language allows: it has no modifiers, no type parameters and
no body. -/
def MethodText.Fits.member {typeName : List Char} {method : MethodText}
    (fits : method.Fits typeName) : Member where
  modifiers := []
  typeParameters := none
  typed :=
    { type :=
        { name := ⟨⟨method.returnType, fits.returnType.isName⟩, []⟩
          arguments := none
          dimensions := [] }
      space := .single
      signature :=
        { name := ⟨method.name, fits.name.isName⟩
          noKeyword := fits.name.noKeyword
          space := .none
          parameters := method.parameters
          plain := fun c inside isSign => fits.parameters c inside (List.mem_append_left _ isSign)
          dimensions := []
          exceptions := none
          last := .none
          ending := .semicolon } }
  noKeyword := fits.returnType.noKeyword

/-- A method that fits is printed as a method of the grammar. -/
theorem MethodText.Fits.header_member (fits : method.Fits typeName) :
    fits.member.header = method.header := by
  simp [Member.header, Typed.text, ReturnType.text, QualifiedName.text, argumentsText,
    parametersText, Signature.header, Signature.behindName, Signature.behindParameters,
    Signature.tail, Ending.mark, member,
    MethodText.header, Spacing.single, Blanks.none]

theorem MethodText.Fits.text_findable (fits : method.Fits typeName) :
    fits.member.findable.text = method.header := by
  rw [← fits.header_member]
  exact List.append_nil _

/-- Written methods are found in the order in which they were written. -/
theorem allFrom_methods {methods : List MethodText} (fit : ∀ method ∈ methods, method.Fits typeName)
    {offset : Nat} {before : Option Char} (started : MayPrecedeMethod before) :
    (Reader.methodHeader.allFrom offset before 0 (methods.flatMap MethodText.bare)).filterMap
        (fun found => keptHeader found.value) =
      methods.map fun method => (method.name, method.parameters) := by
  induction methods generalizing offset before with
  | nil => rfl
  | cons method methods ih =>
    have here := fit method List.mem_cons_self
    have feed : ∀ c ∈ ['\n'], isBlank c = true := by decide
    -- Before the header stand blanks, behind it a line feed.
    rw [List.flatMap_cons, MethodText.bare, List.append_assoc, List.append_assoc,
      ← here.text_findable, allFrom_methodHeader_blanks method.isBlank_gap,
      here.member.findable.allFrom_append (started.append_blanks method.isBlank_gap),
        allFrom_methodHeader_blanks feed,
      List.filterMap_cons]
    -- The next method may begin behind the line feed.
    have startedNext : MayPrecedeMethod (some '\n') := rfl
    simp only [here.member.findable.keeps, List.map_cons]
    exact congrArg _ (ih (fun other member => fit other (List.mem_cons_of_mem method member))
      startedNext)

/-- The text between the braces of a type once its doc comments are gone. -/
theorem TypeText.Fits.blanked_inside {margin : List Char} (blank : ∀ c ∈ margin, isBlank c = true)
    {type : TypeText} (fits : type.Fits) :
    blanked (type.inside margin) = margin ++ type.methods.flatMap MethodText.bare := by
  have row : pieces (type.inside margin ++ []) =
      margin.map .code ++ (type.methods.flatMap MethodText.row ++ pieces []) := by
    rw [TypeText.inside, List.append_assoc,
      pieces_append_plain fun c inside => isOpener_of_isWordy (isWordy_of_isBlank (blank c inside)),
      pieces_methods fits.methods]
  rw [List.append_nil, pieces, List.append_nil] at row
  rw [blanked, row, List.flatMap_append, flatMap_blanked_code, blanked_methods]

/-- The methods found in the body of a written type are those that were written. -/
theorem TypeText.Fits.methodHeaders_inside {margin : List Char}
    (blank : ∀ c ∈ margin, isBlank c = true) {type : TypeText} (fits : type.Fits) :
    methodHeaders (blanked (type.inside margin)) = type.methods.map fun method =>
      (method.name, method.parameters) := by
  rw [fits.blanked_inside blank, methodHeaders, Text.Reader.all, allFrom_methodHeader_blanks blank]
  have started : MayPrecedeMethod none := rfl
  exact allFrom_methods fits.methods (started.append_blanks blank)

end Lineage.Java
