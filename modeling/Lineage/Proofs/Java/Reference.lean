import Lineage.Proofs.Java.Opening
import Lineage.Proofs.Java.Reduction
import Lineage.Proofs.Java.TypeName

/-! References as they are written, with type arguments and blanks: only their paths decide on the
simple names. -/

namespace Lineage.Java

open Lineage.Text

/-- A text whose angle brackets are balanced and lie at most `depth` deep in each other, and what of
it stands outside of them. -/
inductive Angled : Nat → List Char → List Char → Prop where
  | nil {depth : Nat} : Angled depth [] []
  | plain {depth : Nat} {c : Char} {text bare : List Char} : c ≠ '<' → c ≠ '>' →
    Angled depth text bare →
    Angled depth (c :: text) (c :: bare)
  | nest {depth : Nat} {inner lost text bare : List Char} : Angled depth inner lost →
    Angled (depth + 1) text bare →
    Angled (depth + 1) ('<' :: (inner ++ '>' :: text)) bare

namespace Angled

variable {depth : Nat} {text bare : List Char}

/-- Brackets that lie so deep at most lie deeper at most. -/
theorem mono (angled : Angled depth text bare) {deeper : Nat} (less : depth ≤ deeper) :
    Angled deeper text bare := by
  induction angled generalizing deeper with
  | nil => exact .nil
  | plain notOpen notClose _ ih => exact .plain notOpen notClose (ih less)
  | nest _ _ ihInner ih =>
    -- There is room for a bracket in the greater depth, too.
    obtain ⟨deeper, rfl⟩ : ∃ inside, deeper = inside + 1 := ⟨deeper - 1, by omega⟩
    exact .nest (ihInner (by omega)) (ih less)

/-- Two texts with all brackets closed are one such text. -/
theorem append {other bareOther : List Char} (angled : Angled depth text bare)
    (angledOther : Angled depth other bareOther) :
    Angled depth (text ++ other) (bare ++ bareOther) := by
  induction angled with
  | nil => exact angledOther
  | plain notOpen notClose _ ih => exact .plain notOpen notClose (ih angledOther)
  | nest inside _ _ ih =>
    rw [List.cons_append, List.append_assoc, List.cons_append]
    exact .nest inside (ih angledOther)

/-- A text without brackets stands outside of brackets. -/
theorem of_plain (plain : ∀ c ∈ text, c ≠ '<' ∧ c ≠ '>') : Angled depth text text := by
  induction text with
  | nil => exact .nil
  | cons c text ih =>
    obtain ⟨notOpen, notClose⟩ := plain c List.mem_cons_self
    exact .plain notOpen notClose (ih fun d inside => plain d (List.mem_cons_of_mem c inside))

/-- What stands outside of brackets is none. -/
theorem notMem_bare (angled : Angled depth text bare) : '<' ∉ bare := by
  induction angled with
  | nil => exact List.not_mem_nil
  | plain notOpen _ _ ih => simp [Ne.symm notOpen, ih]
  | nest _ _ _ ih => exact ih

/-- A text comes to what stands outside of its brackets. -/
theorem comesTo (angled : Angled depth text bare) : ComesTo text bare := by
  intro kept rest
  induction angled generalizing kept rest with
  | nil => rfl
  | plain _ notClose _ ih =>
    rw [List.cons_append, deleteMatched_cons_of_kept (fun closes => absurd closes notClose), ih,
      List.reverse_cons, List.append_assoc]
    rfl
  | nest inside _ ihInner ih =>
    -- What is kept between the two brackets has no bracket, so that the closing one finds the one
    -- that opened.
    have noOpen := fun inBare => inside.notMem_bare (List.mem_reverse.mp inBare)
    rw [List.cons_append, List.append_assoc, List.cons_append, deleteMatched_cons_of_kept (by simp),
      ihInner, deleteMatched_cons_of_matched noOpen, ih]

end Angled

/-- Nothing is cut within brackets, nor outside of them where no comma stands. -/
theorem Angled.cutAtCommas_append {depth level : Nat} {text bare : List Char}
    (angled : Angled depth text bare) (noComma : level = 0 → ',' ∉ bare) {part rest : List Char}
    {more : List (List Char)} (cut : cutAtCommas level rest = part :: more) :
    cutAtCommas level (text ++ rest) = (text ++ part) :: more := by
  induction angled generalizing level part rest more with
  | nil => exact cut
  | @plain depth c text bare notOpen notClose _ ih =>
    -- A character outside of brackets is no comma, and within them commas do not count.
    have here : ¬ (c == ',' && level == 0) = true := by
      simp only [Bool.and_eq_true, beq_iff_eq, not_and]
      intro isComma isZero
      exact noComma isZero (by simp [isComma])
    have later := ih (fun isZero inside => noComma isZero (List.mem_cons_of_mem c inside)) cut
    rw [List.cons_append, cutAtCommas, if_neg here]
    simp [notOpen, notClose, later]
  | @nest depth inner lost text bare _ _ ihInner ih =>
    -- Behind the opening bracket the text lies one level deeper, up to the closing one.
    have behind := ih noComma cut
    have closing : cutAtCommas (level + 1) ('>' :: (text ++ rest)) = ('>' :: (text ++ part)) ::
        more := by
      simp [cutAtCommas, behind]
    have within := ihInner (fun isZero => absurd isZero (by omega)) closing
    rw [List.cons_append, List.append_assoc, List.cons_append, cutAtCommas]
    simp [within]

/-- The characters of names, and the dot. -/
def isPathChar (c : Char) : Bool :=
  isNameChar c || c == '.'

/-- The path of a reference is made of names and dots. -/
structure IsPath (path : List Char) : Prop where
  nonempty : path ≠ []
  letters : ∀ c ∈ path, isPathChar c = true

/-- A reference as it is written: a path and perhaps type arguments, with blanks before these. -/
def Reference (path text : List Char) : Prop :=
  ∃ blanks angles, text = path ++ (blanks ++ angles) ∧ IsPath path ∧
    (∀ c ∈ blanks, isBlank c = true) ∧
    Angled 3 angles []

/-- No character of a path is a blank. -/
theorem isBlank_of_isPathChar {c : Char} (fits : isPathChar c = true) : isBlank c = false := by
  rcases Bool.or_eq_true_iff.mp fits with isName | isDot
  · exact isBlank_of_isNameChar isName
  · rw [beq_iff_eq.mp isDot]
    decide

/-- What is outside of the brackets of a reference, with blanks around it. -/
theorem Reference.angled {path text front back : List Char} (reference : Reference path text)
    (frontBlank : ∀ c ∈ front, isBlank c = true) (backBlank : ∀ c ∈ back, isBlank c = true) :
    ∃ blanks, (∀ c ∈ blanks, isBlank c = true) ∧
      Angled 3 (front ++ (text ++ back)) (front ++ (path ++ (blanks ++ back))) := by
  obtain ⟨blanks, angles, rfl, isPath, allBlank, angled⟩ := reference
  have ofBlanks : ∀ {text : List Char}, (∀ c ∈ text, isBlank c = true) → Angled 3 text text :=
    fun all =>
    .of_plain fun c inside =>
      ⟨ne_of_class (all c inside) (by decide), ne_of_class (all c inside) (by decide)⟩
  have ofPath : Angled 3 path path := .of_plain fun c inside =>
    ⟨ne_of_class (isPath.letters c inside) (by decide),
      ne_of_class (isPath.letters c inside) (by decide)⟩
  -- The arguments are in brackets, and all else is outside of them.
  refine ⟨blanks, allBlank, (ofBlanks frontBlank).append ?_⟩
  have parts := (ofPath.append ((ofBlanks allBlank).append angled)).append (ofBlanks backBlank)
  simpa using parts

/-- The simple name of a reference is the last name of its path, whatever blanks stand around it. -/
theorem Reference.simpleName_eq {path text front back : List Char} (reference : Reference path text)
    (frontBlank : ∀ c ∈ front, isBlank c = true) (backBlank : ∀ c ∈ back, isBlank c = true) :
    simpleName (front ++ (text ++ back)) = afterLastDot path := by
  obtain ⟨blanks, allBlank, angled⟩ := reference.angled frontBlank backBlank
  obtain ⟨_, _, _, isPath, _, _⟩ := reference
  -- A path neither begins nor ends with a blank.
  obtain ⟨first, last⟩ :=
    ends_of_noBlank fun c inside => isBlank_of_isPathChar (isPath.letters c inside)
  have rear : ∀ c ∈ blanks ++ back, isBlank c = true :=
    List.forall_mem_append.mpr ⟨allBlank, backBlank⟩
  rw [simpleName, angled.comesTo.dropArguments_eq, trim_append frontBlank rear first last]

/-- The simple name of a reference is the last name of its path. -/
theorem Reference.simpleName_text {path text : List Char} (reference : Reference path text) :
    simpleName text = afterLastDot path := by
  have noBlanks : ∀ c ∈ ([] : List Char), isBlank c = true := by simp
  have name := reference.simpleName_eq noBlanks noBlanks
  rwa [List.nil_append, List.append_nil] at name

/-- Further references, each behind a comma with blanks around it. -/
inductive FurtherReferences : List (List Char) → List Char → Prop where
  | none : FurtherReferences [] []
  | more {path front back text rest : List Char} {paths : List (List Char)} :
      (∀ c ∈ front, isBlank c = true) →
    (∀ c ∈ back, isBlank c = true) → Reference path text → FurtherReferences paths rest →
    FurtherReferences (path :: paths) (front ++ (',' :: (back ++ (text ++ rest))))

/-- A list of references has one part for each of them. -/
theorem cutAtCommas_references {path text front : List Char} {paths : List (List Char)}
    {further : List Char} (reference : Reference path text)
    (others : FurtherReferences paths further) (frontBlank : ∀ c ∈ front, isBlank c = true) :
    (cutAtCommas 0 (front ++ (text ++ further))).map simpleName =
      (path :: paths).map afterLastDot := by
  -- A comma outside of brackets would have to be in the path or among the blanks.
  have noComma : ∀ {path text front back : List Char}, Reference path text →
      (∀ c ∈ front, isBlank c = true) →
        (∀ c ∈ back, isBlank c = true) → ∀ {part rest : List Char} {more : List (List Char)},
        cutAtCommas 0 rest = part :: more →
        cutAtCommas 0 (front ++ (text ++ back) ++ rest) = (front ++ (text ++ back) ++ part) ::
          more := by
    intro path text front back reference frontBlank backBlank part rest more cut
    obtain ⟨blanks, allBlank, angled⟩ := reference.angled frontBlank backBlank
    obtain ⟨_, _, _, isPath, _, _⟩ := reference
    refine angled.cutAtCommas_append (fun _ inside => ?_) cut
    simp only [List.mem_append] at inside
    rcases inside with inFront | inPath | inBlanks | inBack
    · exact ne_of_class (frontBlank _ inFront) (by decide) rfl
    · exact ne_of_class (isPath.letters _ inPath) (by decide) rfl
    · exact ne_of_class (allBlank _ inBlanks) (by decide) rfl
    · exact ne_of_class (backBlank _ inBack) (by decide) rfl
  induction others generalizing path text front with
  | none =>
    -- No comma follows, so the reference is the only part.
    have ends : cutAtCommas 0 [] = [] :: [] := rfl
    have noBlanks : ∀ c ∈ ([] : List Char), isBlank c = true := by simp
    have whole := noComma reference frontBlank noBlanks ends
    have name := reference.simpleName_eq frontBlank noBlanks
    simp only [List.append_nil] at whole name ⊢
    rw [whole, List.map_singleton, name, List.map_singleton]
  | @more next before behind nextText rest paths beforeBlank behindBlank nextReference _ ih =>
    -- The comma ends the first part, with the blanks before it, and the others follow.
    have later := ih nextReference behindBlank
    have comma : cutAtCommas 0 (',' :: (behind ++ (nextText ++ rest))) =
        [] :: cutAtCommas 0 (behind ++ (nextText ++ rest)) := by
      simp [cutAtCommas]
    have whole := noComma reference frontBlank beforeBlank comma
    simp only [List.append_assoc, List.append_nil] at whole
    rw [whole, List.map_cons, later, reference.simpleName_eq frontBlank beforeBlank]
    rfl

/-- The simple names of a list of references are the last names of the paths. -/
theorem simpleNames_references {path text : List Char} {paths : List (List Char)}
    {further : List Char} (reference : Reference path text)
    (others : FurtherReferences paths further) :
    simpleNames (text ++ further) = ((path :: paths).map afterLastDot).filter (!·.isEmpty) := by
  -- The list is cut into its references, and the first has no blanks before it.
  have noBlanks : ∀ c ∈ ([] : List Char), isBlank c = true := by simp
  have parts := cutAtCommas_references reference others noBlanks
  rw [List.nil_append] at parts
  rw [simpleNames, parts]

end Lineage.Java
