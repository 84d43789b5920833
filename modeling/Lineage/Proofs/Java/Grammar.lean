import Lineage.Java.Scan
import Lineage.Proofs.Java.Reference
import Lineage.Proofs.Java.Words
import Mathlib.Tactic.MkIffOfInductiveProp

/-! Headers as the language allows them to be written, what each of them declares, and what may
stand between them. -/

namespace Lineage.Java

open Lineage.Text

instance decidableMayPrecede (before : Option Char) : Decidable (MayPrecede before) :=
  inferInstanceAs (Decidable (_ = false))

/-- The words that announce a type. -/
def typeWords : List (List Char) :=
  ["class".toList, "interface".toList]

/-- The words that introduce references in a header. -/
def linkWords : List (List Char) :=
  ["extends".toList, "implements".toList]

/-- A word stands in a text where no character of a name touches it and neither a dot nor an at sign
precedes it. -/
def StandsIn (word text : List Char) : Prop :=
  ∃ front rest, text = front ++ (word ++ rest) ∧ MayPrecede front.getLast? ∧
    rest.head?.any isNameChar = false

instance decidableStandsIn (word text : List Char) : Decidable (StandsIn word text) :=
  -- There are only as many places for the word as the text has characters.
  decidable_of_iff (∃ start < text.length + 1, word <+: text.drop start ∧
    MayPrecede (text.take start).getLast? ∧
      ((text.drop start).drop word.length).head?.any isNameChar = false) <| by
    constructor
    · rintro ⟨start, _, ⟨rest, isRest⟩, started, ended⟩
      rw [← isRest, List.drop_left] at ended
      exact ⟨text.take start, rest, by rw [isRest, List.take_append_drop], started, ended⟩
    · rintro ⟨front, rest, rfl, started, ended⟩
      refine ⟨front.length, by simp only [List.length_append]; omega, ?_⟩
      rw [List.drop_left, List.drop_left, List.take_left]
      exact ⟨List.prefix_append _ _, started, ended⟩

/-- A text in which no word stands that announces a type. -/
def Silent (text : List Char) : Prop :=
  ∀ word ∈ typeWords, ¬ StandsIn word text

instance decidableSilent (text : List Char) : Decidable (Silent text) :=
  inferInstanceAs (Decidable (∀ word ∈ typeWords, ¬ StandsIn word text))

/-- Any number of blanks. -/
structure Blanks where
  text : List Char
  blank : ∀ c ∈ text, isBlank c = true

/-- At least one blank. -/
structure Spacing extends Blanks where
  nonempty : text ≠ []

/-- No blank at all. -/
def Blanks.none : Blanks :=
  ⟨[], by decide⟩

/-- A single space. -/
def Spacing.single : Spacing :=
  ⟨⟨[' '], by decide⟩, by decide⟩

/-- Characters of names in a row. -/
structure Word where
  text : List Char
  isName : Reader.IsName text

/-- A word is not empty. -/
theorem Word.nonempty (word : Word) : word.text ≠ [] :=
  word.isName.1

/-- A word holds nothing but characters of names. -/
theorem Word.named (word : Word) : ∀ c ∈ word.text, isNameChar c = true :=
  word.isName.2

/-- A word with a dot before it. -/
def Word.dotted (word : Word) : List Char :=
  '.' :: word.text

/-- Words joined by dots. -/
structure QualifiedName where
  first : Word
  more : List Word

/-- The text of a qualified name: its parts, joined by dots. -/
def QualifiedName.text (name : QualifiedName) : List Char :=
  name.first.text ++ name.more.flatMap Word.dotted

/-- A text in angle brackets, three deep at most. Neither a brace nor a semicolon belongs to it. -/
structure Angles where
  inner : List Char
  nested : ∃ bare, Angled 2 inner bare
  unbroken : ∀ c ∈ inner, Reader.Unbroken c

/-- The text of type arguments: what they hold, in angle brackets. -/
def Angles.text (angles : Angles) : List Char :=
  '<' :: (angles.inner ++ ['>'])

/-- Type arguments with blanks before them, which may be absent. -/
def argumentsText (arguments : Option (Blanks × Angles)) : List Char :=
  arguments.elim [] fun given => given.1.text ++ given.2.text

/-- A name, which is none of the words that announce a type. -/
structure Name extends Word where
  noKeyword : text ∉ typeWords

/-- Type parameters or type arguments: a text in angle brackets with blanks before it. No
announcement of a type belongs to it. -/
structure Brackets extends Angles where
  space : Blanks
  silent : Silent inner

/-- Type parameters or type arguments that may be absent. -/
def bracketsText (brackets : Option Brackets) : List Char :=
  argumentsText (brackets.map fun given => (given.space, given.toAngles))

/-- A reference to a type: names joined by dots, and perhaps type arguments. -/
structure TypeReference where
  first : Name
  more : List Name
  arguments : Option Brackets

/-- The names of a reference without regard to what words they are. -/
def TypeReference.name (reference : TypeReference) : QualifiedName :=
  ⟨reference.first.toWord, reference.more.map (·.toWord)⟩

/-- A reference as it is written. -/
def TypeReference.text (reference : TypeReference) : List Char :=
  reference.name.text ++ bracketsText reference.arguments

/-- The last of the names, without type arguments. -/
def TypeReference.simple (reference : TypeReference) : Name :=
  (reference.first :: reference.more).getLast (List.cons_ne_nil _ _)

/-- A reference behind a comma, with blanks around the comma. -/
structure FurtherReference where
  before : Blanks
  behind : Blanks
  reference : TypeReference

/-- The text of a further reference: the comma with its blanks, and the reference. -/
def FurtherReference.text (further : FurtherReference) : List Char :=
  further.before.text ++ (',' :: (further.behind.text ++ further.reference.text))

/-- References with commas between them. -/
structure ReferenceList where
  first : TypeReference
  more : List FurtherReference

/-- The text of references in a row. -/
def ReferenceList.text (list : ReferenceList) : List Char :=
  list.first.text ++ list.more.flatMap FurtherReference.text

/-- All references of a row, the first one included. -/
def ReferenceList.references (list : ReferenceList) : List TypeReference :=
  list.first :: list.more.map (·.reference)

/-- What a word between blanks introduces. -/
structure Clause (α : Type) where
  before : Spacing
  behind : Spacing
  content : α

/-- A clause as it is written, which may be absent. -/
def linkText {α : Type} (word : List Char) (write : α → List Char) (clause : Option (Clause α)) :
    List Char :=
  clause.elim [] fun given =>
    given.before.text ++ (word ++ (given.behind.text ++ write given.content))

/-- A modifier and the blanks behind it. -/
structure Modifier (kind : Kind) where
  word : List Char
  listed : word ∈ modifiersOf kind
  space : Spacing

/-- The text of a modifier: its word and the blanks behind it. -/
def Modifier.text {kind : Kind} (modifier : Modifier kind) : List Char :=
  modifier.word ++ modifier.space.text

/-- A header up to its type parameters: modifiers, the word for the kind, the name and perhaps type
parameters. -/
structure Introduction (kind : Kind) where
  modifiers : List (Modifier kind)
  space : Spacing
  name : Name
  parameters : Option Brackets

/-- The part of a header that ends with the name. -/
def Introduction.text {kind : Kind} (introduced : Introduction kind) : List Char :=
  introduced.modifiers.flatMap Modifier.text ++
    (keywordOf kind ++ (introduced.space.text ++ introduced.name.text))

/-- The header of a type. A class may extend a class and implement interfaces, an interface may
extend interfaces. -/
inductive HeaderText where
  | ofClass (introduced : Introduction .plainClass) (superclass : Option (Clause TypeReference))
    (interfaces : Option (Clause ReferenceList))
  | ofInterface (introduced : Introduction .interface) (interfaces : Option (Clause ReferenceList))

/-- What a header says behind the name. -/
def HeaderText.tail : HeaderText → List Char
  | .ofClass introduced superclass interfaces =>
    bracketsText introduced.parameters ++
      (linkText "extends".toList TypeReference.text superclass ++
      linkText "implements".toList ReferenceList.text interfaces)
  | .ofInterface introduced interfaces =>
    bracketsText introduced.parameters ++ linkText "extends".toList ReferenceList.text interfaces

/-- A header as it is written. -/
def HeaderText.text (header : HeaderText) : List Char :=
  match header with
  | .ofClass introduced _ _ => introduced.text ++ header.tail
  | .ofInterface introduced _ => introduced.text ++ header.tail

/-- The names that stand for the references of a list, which may be absent. -/
def simpleReferences (interfaces : Option (Clause ReferenceList)) : List String :=
  (interfaces.elim [] fun given => given.content.references).map fun reference =>
    String.ofList reference.simple.text

/-- An interface has no superclass. -/
theorem superless_interface : Kind.interface = .interface → (none : Option String) = none :=
  fun _ => rfl

/-- What a header declares. A class is abstract if the word is among its modifiers. -/
def HeaderText.declaration : HeaderText → Declaration
  | .ofClass introduced superclass interfaces =>
    { name := String.ofList introduced.name.text
      kind :=
        if (introduced.modifiers.map (·.word)).contains "abstract".toList then
          .abstractClass else .plainClass
      superclass := superclass.map fun given => String.ofList given.content.simple.text
      interfaces := simpleReferences interfaces
      superless := by split <;> simp }
  | .ofInterface introduced interfaces =>
    { name := String.ofList introduced.name.text
      kind := .interface
      interfaces := simpleReferences interfaces
      superless := superless_interface }

/-- What may follow a header: it continues no name, and behind blanks neither brackets nor a comma
nor another clause comes next. -/
@[mk_iff] structure EndsHeader (rest : List Char) : Prop where
  name : rest.head?.any isPathChar = false
  sign : (trimStart rest).head? ∉ [some '<', some ',']
  clause : ∀ word ∈ linkWords, ∀ more, trimStart rest = word ++ more →
    more.head?.any isBlank = false

/-- What may precede a header: it ends with no part of a word, and no modifier stands behind all
else. -/
@[mk_iff] structure LeadsUp (text : List Char) : Prop where
  last : MayPrecede text.getLast? ∧ text.getLast? ≠ some '-'
  modifier : ∀ word ∈ classModifiers, ∀ front, trimEnd text = front ++ word →
    ¬ MayPrecede front.getLast?

/-- A header and the text behind it, which announces nothing and does not continue the header. -/
structure Passage where
  header : HeaderText
  filler : List Char
  ends : EndsHeader filler
  silent : Silent filler

/-- The text of a passage: the header and what stands behind it. -/
def Passage.text (passage : Passage) : List Char :=
  passage.header.text ++ passage.filler

/-- Another header may follow: it is set apart, and no part of a word and no modifier stands before
it. -/
@[mk_iff] structure Passage.LeadsOn (passage : Passage) : Prop where
  apart : passage.filler ≠ []
  leads : LeadsUp passage.text

/-- There is only one way to continue a word to a text. -/
instance decidableForallBehind (text word : List Char) (p : List Char → Prop) [DecidablePred p] :
    Decidable (∀ more, text = word ++ more → p more) :=
  decidable_of_iff (word <+: text → p (text.drop word.length)) <| by
    constructor
    · rintro holds more rfl
      have here := holds (List.prefix_append word more)
      rwa [List.drop_left] at here
    · rintro holds ⟨more, rfl⟩
      rw [List.drop_left]
      exact holds more rfl

/-- There is only one way to lead a text up to a word. -/
instance decidableForallBefore (text word : List Char) (p : List Char → Prop) [DecidablePred p] :
    Decidable (∀ front, text = front ++ word → p front) :=
  decidable_of_iff (word <:+ text → p (text.take (text.length - word.length))) <| by
    have front_eq : ∀ front, (front ++ word).take ((front ++ word).length - word.length) =
        front := by
      intro front
      rw [List.length_append, Nat.add_sub_cancel, List.take_left]
    constructor
    · rintro holds front rfl
      have here := holds (List.suffix_append front word)
      rwa [front_eq] at here
    · rintro holds ⟨front, rfl⟩
      rw [front_eq]
      exact holds front rfl

instance decidableEndsHeader (rest : List Char) : Decidable (EndsHeader rest) :=
  decidable_of_iff _ (endsHeader_iff rest).symm

instance decidableLeadsUp (text : List Char) : Decidable (LeadsUp text) :=
  decidable_of_iff _ (leadsUp_iff text).symm

instance decidableLeadsOn (passage : Passage) : Decidable passage.LeadsOn :=
  decidable_of_iff _ (Passage.leadsOn_iff passage).symm

end Lineage.Java
