import Lineage.Proofs.Java.Grammar.Scan
import Lineage.Proofs.Java.Printed.Header

/-! Scanning types as they are written down finds each of them once, in order. -/

namespace Lineage.Java

open Lineage.Text

/-- No announcement is read within a closed stretch of text whose words hold none. -/
theorem Reader.Announces.eq_nil {α : Type} {reader : Text.Reader α} {kind : Kind}
    {language : List Char → Prop} (announces : Reader.Announces reader kind language)
    (named : ∀ name, language name → Reader.IsName name)
    {front back rest : List Char} {c : Char} (closed : Closed (front ++ c :: back))
    (absent : ∀ name early late, language name →
      words (front ++ c :: back) ≠ early ++ keywordOf kind :: name :: late)
    (offset : Nat) (before : Option Char) :
      reader (.beyond offset before front (c :: back ++ rest)) = [] := by
  rw [List.eq_nil_iff_forall_not_mem]
  -- A reading would leave its announcement among the words.
  intro result read
  obtain ⟨name, spelled, more, inLanguage, isText, announced⟩ := announces _ _ _ _ read
  obtain ⟨nonempty, isName⟩ := named name inLanguage
  obtain ⟨early, late, found⟩ :=
    words_of_announced announced nonempty isName closed (by simp) isText
  exact absent name early late inLanguage found

/-- A name that stands in a text is one of its words. -/
theorem StandsIn.mem_words {word text : List Char} (stands : StandsIn word text)
    (nonempty : word ≠ []) (named : ∀ c ∈ word, isNameChar c = true) : word ∈ words text := by
  obtain ⟨front, rest, rfl, started, ended⟩ := stands
  -- No character of a name touches it on either side, so it is a longest stretch.
  rw [words_append_of_last started.notName, words_append_of_name nonempty named ended]
  simp

/-- A text that ends with a closing brace and a line feed leads up to a header. -/
theorem leadsUp_brace (text : List Char) : LeadsUp (text ++ ['}', '\n']) := by
  have last : (text ++ ['}', '\n']).getLast? = some '\n' := by simp
  constructor
  · rw [last]
    decide
  · intro word listed front isFront
    -- A modifier ends with a letter and not with the brace.
    have letters : ∀ word ∈ classModifiers, word ≠ [] ∧ word.getLast? ≠ some '}' := by decide
    obtain ⟨nonempty, noBrace⟩ := letters word listed
    have trimmed : trimEnd (text ++ ['}'] ++ ['\n']) = text ++ ['}'] :=
      trimEnd_append (by decide) (by simp; decide)
    have grouped : text ++ ['}'] ++ ['\n'] = text ++ ['}', '\n'] := by simp
    rw [← grouped, trimmed] at isFront
    have sameLast := congrArg List.getLast? isFront
    rw [List.getLast?_concat, List.getLast?_append_of_ne_nil _ nonempty] at sameLast
    exact absurd sameLast.symm noBrace

/-- What follows the header of a type once its doc comments are blanked. -/
def TypeText.bareBody (margin : List Char) (type : TypeText) : List Char :=
  " \x7b".toList ++ margin ++ type.methods.flatMap MethodText.bare ++ "\x7d\n".toList

theorem TypeText.bare_eq (margin : List Char) (type : TypeText) :
    type.bare margin = type.header ++ type.bareBody margin := by
  simp only [TypeText.bare, TypeText.bareBody, List.append_assoc]

variable {margin : List Char} {type : TypeText}

/-- No word behind the header of a type announces a type. -/
theorem TypeText.Fits.keywordOf_notMem_bareBody (blank : ∀ c ∈ margin, isBlank c = true)
    (fits : type.Fits) (kind : Kind) : keywordOf kind ∉ words (type.bareBody margin) := by
  have signs : ∀ c ∈ " \x7b".toList, isNameChar c = false := by decide
  -- Braces, blanks and the end of the last line add no word to those of the methods.
  have separate : ∀ c ∈ " \x7b".toList ++ margin, isNameChar c = false := by
    intro c inside
    rcases List.mem_append.mp inside with inSigns | inMargin
    · exact signs c inSigns
    · exact isNameChar_of_isBlank (blank c inMargin)
  have ending : "\x7d\n".toList = '}' :: ['\n'] := rfl
  rw [TypeText.bareBody, List.append_assoc, words_append_of_separators separate, ending,
    words_append_cons (by decide), words_cons (by decide), words_nil, List.append_nil]
  exact keywordOf_notMem_methods fits.methods kind

/-- What follows the header of a written type announces nothing. -/
theorem TypeText.Fits.silent_bareBody (blank : ∀ c ∈ margin, isBlank c = true) (fits : type.Fits) :
    Silent (type.bareBody margin) := by
  -- A word that stands in the body is one of its words, and no keyword is.
  have keywords : ∀ word ∈ typeWords, ∃ kind, word = keywordOf kind := by
    intro word listed
    rcases List.mem_cons.mp listed with rfl | listed
    · exact ⟨.plainClass, rfl⟩
    · exact ⟨.interface, List.mem_singleton.mp listed⟩
  intro word listed stands
  obtain ⟨nonempty, named⟩ := typeWord_named listed
  obtain ⟨kind, rfl⟩ := keywords word listed
  exact fits.keywordOf_notMem_bareBody blank kind (stands.mem_words nonempty named)

/-- A blank and the opening brace end a header. -/
theorem endsHeader_brace (rest : List Char) : EndsHeader (" \x7b".toList ++ rest) := by
  have next : trimStart ([' '] ++ '{' :: rest) = '{' :: rest :=
    trimStart_append (by decide) (by rfl)
  have isFirst : (trimStart (" \x7b".toList ++ rest)).head? = some '{' := congrArg List.head? next
  refine ⟨by rfl, by rw [isFirst]; decide, fun word listed more isLink => ?_⟩
  -- The word of a clause begins with a letter.
  have letter := head_linkWord listed more
  rw [← isLink, isFirst] at letter
  exact absurd letter (by decide)

/-- A written type is a header and a text that leads on to the next one. -/
theorem TypeText.Fits.exists_passage (blank : ∀ c ∈ margin, isBlank c = true) (fits : type.Fits) :
    ∃ passage : Passage, passage.text = type.bare margin ∧
      passage.header.declaration = type.methodless ∧ passage.LeadsOn := by
  -- The header is one of the grammar, and the body neither goes on with it nor announces anything.
  obtain ⟨header, isHeader, declares⟩ := fits.exists_header
  have body : type.bareBody margin =
      " \x7b".toList ++ (margin ++ type.methods.flatMap MethodText.bare ++ "\x7d\n".toList) := by
    simp only [TypeText.bareBody, List.append_assoc]
  have isText : header.text ++ type.bareBody margin = type.bare margin := by
    rw [isHeader, type.bare_eq]
  refine ⟨⟨header, type.bareBody margin, body ▸ endsHeader_brace _, fits.silent_bareBody blank⟩,
    isText, declares, by simp [body], ?_⟩
  show LeadsUp (header.text ++ type.bareBody margin)
  rw [isText]
  exact leadsUp_brace _

/-- Types that fit are passages in a row. -/
theorem exists_passages (blank : ∀ c ∈ margin, isBlank c = true) {types : List TypeText}
    (fit : ∀ type ∈ types, type.Fits) :
    ∃ passages : List Passage, passages.flatMap Passage.text = types.flatMap
      (TypeText.bare margin) ∧
      passages.map (·.header.declaration) = types.map TypeText.methodless ∧ ∀ passage ∈ passages,
        passage.LeadsOn := by
  induction types with
  | nil => exact ⟨[], rfl, rfl, by simp⟩
  | cons type types ih =>
    obtain ⟨passages, isText, declare, leadOn⟩ :=
      ih fun other member => fit other (List.mem_cons_of_mem type member)
    obtain ⟨passage, isPassage, declares, leadsOn⟩ :=
      (fit type List.mem_cons_self).exists_passage blank
    refine ⟨passage :: passages, ?_, ?_, List.forall_mem_cons.mpr ⟨leadsOn, leadOn⟩⟩
    · rw [List.flatMap_cons, List.flatMap_cons, isPassage, isText]
    · rw [List.map_cons, List.map_cons, declares, declare]

/-- Written types are found in the order in which they were written. -/
theorem declarationsIn_types (blank : ∀ c ∈ margin, isBlank c = true) {types : List TypeText}
    (fit : ∀ type ∈ types, type.Fits) :
    declarationsIn (types.flatMap (TypeText.bare margin)) = types.map TypeText.methodless := by
  obtain ⟨passages, isText, declare, leadOn⟩ := exists_passages blank fit
  -- Nothing stands before the first header.
  have silent : Silent [] := by decide
  have leads : passages ≠ [] → LeadsUp [] := fun _ => by decide
  have others : ∀ passage ∈ passages.dropLast, passage.LeadsOn := fun passage member =>
    leadOn passage (List.mem_of_mem_dropLast member)
  rw [← isText, ← declare, ← declaration_placed passages 0]
  exact declarationsIn_of_placed (placed_rising passages 0) (classesIn_passages silent leads others)
    (interfacesIn_passages silent leads others)

end Lineage.Java
