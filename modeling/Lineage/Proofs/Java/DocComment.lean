import Lineage.Java.Doc
import Lineage.Proofs.Java.BodySpan
import Lineage.Proofs.Java.Lexer
import Lineage.Proofs.Text.Reads

/-! Where documentation comes from: the comment that it is read from, and how this comment lies to
the literals of the text. -/

namespace Lineage.Java

open Lineage.Text
open Lineage.Text.Reader (Found)

/-- A doc comment from one position up to another: it opens with two stars, and the first end of a
comment behind them closes it. -/
structure IsDocComment (text : List Char) (start stop : Nat) : Prop where
  opens : ['/', '*', '*'] <+: text.drop start
  -- Neither of the two stars may be that of the end, so a comment has at least five characters.
  closes : IsLeast {stop | start + 5 ≤ stop ∧ commentEnd <+: text.drop (stop - 2)} stop

/-- The text of a doc comment with these contents. -/
def docComment (raw : List Char) : List Char :=
  '/' :: '*' :: '*' :: (raw ++ commentEnd)

/-- The arguments of an annotation: a text in parentheses that holds none, with blanks before it. -/
def IsAnnotationArguments (text : List Char) : Prop :=
  ∃ blanks inner, text = blanks ++ '(' :: (inner ++ [')']) ∧ (∀ c ∈ blanks, isBlank c = true) ∧
    '(' ∉ inner ∧ ')' ∉ inner

/-- An annotation: its name, which may be qualified, its arguments if there are any, and the blanks
behind it. -/
inductive IsAnnotation : List Char → Prop where
  | mk {name arguments blanks : List Char} : name ≠ [] → (∀ c ∈ name, isNameChar c || c == '.') →
    arguments = [] ∨ IsAnnotationArguments arguments → (∀ c ∈ blanks, isBlank c = true) →
      IsAnnotation ('@' :: (name ++ (arguments ++ blanks)))

/-- Blanks, and annotations behind them. -/
def OnlyAnnotations (text : List Char) : Prop :=
  ∃ (blanks : List Char) (annotations : List (List Char)), text = blanks ++ annotations.flatten ∧
    (∀ c ∈ blanks, isBlank c = true) ∧ ∀ annotation ∈ annotations, IsAnnotation annotation

/-- A doc comment and the header of a method, with only blanks and annotations between them. -/
structure Documents (text : List Char) (start stop : Nat) (header : Found MethodHeader) : Prop where
  comment : IsDocComment text start stop
  behind : stop ≤ header.start
  between : OnlyAnnotations (sliceOf text stop header.start)
  -- Of all ways to read a header there, this is the preferred one.
  isHeader : Reader.methodHeader.foundAt (placeAt text header.start) = some header
  isTyped : isNoType header.value.returnType.text = false

section Position

variable {raw : List Char}

/-- A comment behind some text lies from the end of this text on. -/
theorem isDocComment_append (endless : ¬ commentEnd <:+: raw) (front rest : List Char) :
    IsDocComment (front ++ (docComment raw ++ rest)) front.length
      (front.length + (raw.length + 5)) where
  opens := by
    rw [List.drop_left]
    exact ⟨raw ++ commentEnd ++ rest, rfl⟩
  closes := by
    -- Behind the opening, positions are counted within the contents and what follows them.
    have inside : ∀ place, (front ++ (docComment raw ++ rest)).drop (front.length + (3 + place)) =
        (raw ++ (commentEnd ++ rest)).drop place := by
      intro place
      rw [← List.drop_drop, List.drop_left, ← List.drop_drop, docComment]
      simp
    refine ⟨⟨by omega, ?_⟩, fun stop closes => ?_⟩
    · rw [show front.length + (raw.length + 5) - 2 = front.length + (3 + raw.length) by omega,
        inside, List.drop_left]
      exact List.prefix_append ..
    · -- An earlier end would stand within the contents, or be cut off from its own end.
      by_contra early
      obtain ⟨late, closed⟩ := closes
      obtain ⟨place, rfl⟩ : ∃ place, stop = front.length + (3 + place) + 2 :=
        ⟨stop - 2 - 3 - front.length, by omega⟩
      have within : place < raw.length := by omega
      rw [Nat.add_sub_cancel, inside, List.drop_append_of_le_length (by omega)] at closed
      obtain ⟨more, split⟩ := closed
      rw [List.drop_eq_getElem_cons within] at split
      obtain ⟨isStar, behind⟩ := List.cons.inj split
      refine ne_slash_of_endless (fun isPart => endless ?_) isStar.symm rest more behind.symm
      rw [← List.drop_eq_getElem_cons within] at isPart
      exact isPart.trans (List.drop_suffix place raw).isInfix

/-- A doc comment is the literal at its place, unless its contents begin with a slash, which closes
it at once. -/
theorem literalAt_docComment (endless : ¬ commentEnd <:+: raw) (rest : List Char) :
    (∃ kind, literalAt (docComment raw ++ rest) = some (kind, raw.length + 5)) ↔
      raw.head? ≠ some '/' := by
  have found : literalAt (docComment raw ++ rest) =
      some (.blockComment, closeComment ('*' :: (raw ++ commentEnd ++ rest)) + 2) := rfl
  rw [found]
  by_cases slash : raw.head? = some '/'
  · -- The second star and the slash are an end.
    obtain ⟨more, rfl⟩ := List.head?_eq_some_iff.mp slash
    have closed : closeComment ('*' :: ('/' :: more ++ commentEnd ++ rest)) = 2 := by
      simp [closeComment]
    rw [closed]
    refine ⟨fun same => ?_, fun notSlash => absurd slash notSlash⟩
    obtain ⟨kind, same⟩ := same
    have sized : 4 = ('/' :: more).length + 5 := congrArg Prod.snd (Option.some.inj same)
    rw [List.length_cons] at sized
    omega
  · refine ⟨fun _ => slash, fun _ => ⟨.blockComment, ?_⟩⟩
    -- With the second star before them, the contents still hold no end.
    have starred : ¬ ['*', '/'] <:+: '*' :: raw := by
      rw [List.infix_cons_iff, not_or]
      refine ⟨fun isPrefix => slash ?_, endless⟩
      obtain ⟨more, split⟩ := (List.cons_prefix_cons.mp isPrefix).2
      rw [← split]
      rfl
    have closed := closeComment_endless starred rest
    rw [List.append_assoc]
    exact congrArg (fun length => some (LiteralKind.blockComment, length + 2)) closed

/-- A doc comment is among the literals of a text if none goes across its beginning and no slash
closes it at once. -/
theorem mem_literalSpans_docComment (endless : ¬ commentEnd <:+: raw) (front rest : List Char) :
    (front.length, front.length + (raw.length + 5)) ∈ literalSpans
      (front ++ (docComment raw ++ rest)) ↔
      (front ++ (docComment raw ++ rest))[front.length + 3]? ≠ some '/' ∧
        ∀ span ∈ literalSpans (front ++ (docComment raw ++ rest)),
          ¬ (span.1 < front.length ∧ front.length < span.2) := by
  -- Empty contents are followed by the star of the end, which is no slash either.
  have first : (front ++ (docComment raw ++ rest))[front.length + 3]? ≠ some '/' ↔
      raw.head? ≠ some '/' := by
    rw [List.getElem?_append_right (Nat.le_add_right ..), Nat.add_sub_cancel_left]
    cases raw with
    | nil => simp [docComment, commentEnd]
    | cons c raw => simp [docComment]
  rw [mem_literalSpans_iff, List.drop_left, literalAt_docComment endless, first]

/-- A doc comment, annotations and a header, one behind the other, belong together. -/
theorem documents_append (endless : ¬ commentEnd <:+: raw) {gap : List Char}
    (only : OnlyAnnotations gap)
    {front rest : List Char} {header : Found MethodHeader} (isHeader : Reader.methodHeader.foundAt
      (.beyond 0 none (front ++ (docComment raw ++ gap)) rest) = some header)
    (typed : isNoType header.value.returnType.text = false) :
    Documents (front ++ (docComment raw ++ (gap ++ rest))) front.length
      (front.length + (raw.length + 5)) header := by
  -- What is found begins at the place where it was looked for.
  have isStart : header.start = (front ++ (docComment raw ++ gap)).length := by
    obtain ⟨_, _, rfl⟩ := Option.map_eq_some_iff.mp isHeader
    simp
  have isStop : (front ++ docComment raw).length = front.length + (raw.length + 5) := by
    simp [docComment, commentEnd]
  have isStart' : header.start = front.length + (raw.length + 5) + gap.length := by
    rw [isStart, ← List.append_assoc, List.length_append, isStop]
  refine ⟨isDocComment_append endless front (gap ++ rest), by omega, ?_, ?_, typed⟩
  · rw [isStart', ← isStop, ← List.append_assoc, sliceOf_append]
    exact only
  · have place := placeAt_append (front ++ (docComment raw ++ gap)) rest
    rw [List.append_assoc, List.append_assoc, ← isStart] at place
    rw [place]
    exact isHeader

/-- The contents of a doc comment lie between its marks. -/
theorem sliceOf_docComment (front raw rest : List Char) :
    sliceOf (front ++ (docComment raw ++ rest)) (front.length + 3)
      (front.length + (raw.length + 5) - 2) = raw := by
  -- The opening belongs to what stands before the contents.
  have slice := sliceOf_append (front ++ ['/', '*', '*']) raw (commentEnd ++ rest)
  have isStop : front.length + (raw.length + 5) - 2 = (front ++ ['/', '*', '*']).length +
      raw.length := by
    rw [List.length_append]
    simp only [List.length_cons, List.length_nil]
    omega
  rw [← isStop, List.length_append, List.append_assoc] at slice
  rw [docComment]
  simpa using slice

end Position

namespace Reader

open Lineage.Text.Reader

/-- A doc comment, with its contents as the value. -/
def docMark : Text.Reader Excerpt := do
  literal ['/', '*', '*']
  let doc ← stretch (upTo ['*', '/'])
  literal ['*', '/']
  return doc

/-- Blanks and annotations. -/
def annotations : Text.Reader (List Unit) := do
  blanks
  many annotationMark

/-- A documented method is a comment, annotations and a method header. -/
theorem documentedMethod_eq : documentedMethod = (do
    let doc ← docMark
    let _ ← annotations
    let header ← methodHeader
    return { doc, header }) := by
  -- The blanks and the annotations are read as one part.
  have grouped : ∀ next : List Unit → Text.Reader DocumentedMethod,
      annotations >>= next = (do blanks; let marks ← many annotationMark; next marks) :=
    fun next => bind_assoc _ _ _
  simp only [documentedMethod, docMark, grouped, bind_assoc, pure_bind]

/-- A documentation comment is read from its mark to its first end. -/
theorem reads_docMark :
    Reads docMark fun doc taken => taken = docComment doc.text ∧ ¬ commentEnd <:+: doc.text := by
  refine .bind (.literal _) ?_
  rintro _ _ rfl
  -- The contents go up to the first end, so they hold none.
  refine .bind (.stretch (.upTo (by decide))) ?_
  rintro doc _ ⟨rfl, _, endless⟩
  refine .bind (.literal _) ?_
  rintro _ _ rfl
  exact .pure ⟨by simp [docComment, commentEnd], endless⟩

/-- What is read as an annotation is one. -/
theorem reads_annotationMark : Reads annotationMark fun _ taken => IsAnnotation taken := by
  have arguments : Reads (do
      blanks
      char (· == '(')
      run fun c => !(c == '(' || c == ')')
      char (· == ')') : Text.Reader Unit) fun _ taken => IsAnnotationArguments taken := by
    refine .bind .run ?_
    intro _ space allBlank
    refine .bind .char ?_
    rintro _ _ ⟨c, isOpen, rfl⟩
    refine .bind .run ?_
    intro _ inner outside
    refine Reads.char.mono ?_
    rintro _ _ ⟨d, isClose, rfl⟩
    obtain rfl := beq_iff_eq.mp isOpen
    obtain rfl := beq_iff_eq.mp isClose
    refine ⟨space, inner, by simp, allBlank, fun isPart => ?_, fun isPart => ?_⟩
    · exact absurd (outside _ isPart) (by decide)
    · exact absurd (outside _ isPart) (by decide)
  refine .bind .char ?_
  rintro _ _ ⟨c, isAt, rfl⟩
  obtain rfl := beq_iff_eq.mp isAt
  refine .bind .run1 ?_
  rintro _ name ⟨nonempty, named⟩
  refine .bind arguments.optional ?_
  intro _ given isGiven
  refine Reads.run.mono fun _ space allBlank => ?_
  -- Arguments that are absent take nothing.
  have given : given = [] ∨ IsAnnotationArguments given := by
    rcases isGiven with ⟨_, _, isArguments⟩ | ⟨_, nothing⟩
    · exact Or.inr isArguments
    · exact Or.inl nothing
  have annotation := IsAnnotation.mk nonempty named given allBlank
  simpa using annotation

/-- Annotations are read one after the other, and nothing else is read with them. -/
theorem reads_annotations : Reads annotations fun _ taken => OnlyAnnotations taken := by
  refine .bind .run ?_
  intro _ space allBlank
  refine (Reads.many reads_annotationMark).mono ?_
  rintro _ _ ⟨parts, rfl, each⟩
  have all : ∀ part ∈ parts, IsAnnotation part := by
    induction each with
    | nil => exact List.forall_mem_nil _
    | cons here _ ih => exact List.forall_mem_cons.mpr ⟨here, ih⟩
  exact ⟨space, parts, rfl, allBlank, all⟩

/-- The header of a documented method is the one that is found behind the comment and the
annotations. -/
theorem exists_of_head?_documentedMethod {place : Cursor} {read : DocumentedMethod × Cursor}
    (isHead : (documentedMethod place).head? = some read) :
    ¬ commentEnd <:+: read.1.doc.text ∧ ∃ gap middle, OnlyAnnotations gap ∧
      Took place (docComment read.1.doc.text ++ gap) middle ∧
        (methodHeader middle).head? = some (read.1.header, read.2) := by
  -- The comment and the gap may be read in several ways; the first one behind which a header can be
  -- read is taken.
  rw [documentedMethod_eq] at isHead
  obtain ⟨doc, behindDoc, readDoc, isHead⟩ := exists_of_head?_bind isHead
  obtain ⟨_, middle, readGap, isHead⟩ := exists_of_head?_bind isHead
  rw [head?_bind_pure] at isHead
  obtain ⟨⟨header, after⟩, isHeader, rfl⟩ := Option.map_eq_some_iff.mp isHead
  obtain ⟨_, tookDoc, rfl, endless⟩ := reads_docMark _ _ readDoc
  obtain ⟨gap, tookGap, only⟩ := reads_annotations _ _ readGap
  exact ⟨endless, gap, middle, only, tookDoc.trans tookGap, isHeader⟩

end Reader

/-- Where the first entry of each name wins, no other entries are known. -/
theorem docLookup_subset (text : List Char) : docLookup text ⊆ documentedMethods text := by
  have general : ∀ entries known : List (List Char × List Char),
      entries.foldl (fun known entry => if known.any (·.1 == entry.1) then
        known else known ++ [entry]) known ⊆ known ++ entries := by
    intro entries
    induction entries with
    | nil => intro known; simp
    | cons entry entries ih =>
      intro known
      rw [List.foldl_cons]
      refine List.Subset.trans (ih _) ?_
      -- The entry is dropped if its name is known, and goes behind the known ones otherwise.
      split <;> simp
  exact general _ []

/-- Every documented method has its comment, its annotations and its header in the text, one behind
the other. -/
theorem exists_of_mem_documentedMethods {text name doc : List Char}
    (member : (name, doc) ∈ documentedMethods text) :
    ∃ front raw gap rest header, text = front ++
      (docComment raw ++ (gap ++ rest)) ∧ ¬ commentEnd <:+: raw ∧
      doc = cleanDoc raw ∧ OnlyAnnotations gap ∧
        Reader.methodHeader.foundAt
          (.beyond 0 none (front ++ (docComment raw ++ gap)) rest) = some header ∧
          header.value.name.text = name ∧ isNoType header.value.returnType.text = false := by
  obtain ⟨found, isFound, kept⟩ := List.mem_filterMap.mp member
  obtain ⟨front, rest, rfl, _, foundHere⟩ := Text.Reader.foundAt_of_mem_allFrom isFound
  obtain ⟨⟨⟨comment, header⟩, after⟩, isHead, rfl⟩ := Option.map_eq_some_iff.mp foundHere
  obtain ⟨endless, gap, middle, only, took, isHeader⟩ :=
    Reader.exists_of_head?_documentedMethod isHead
  -- The places of the two stretches are counted from the front of the whole text.
  obtain ⟨split, isMiddle⟩ := took
  rw [Cursor.rest_beyond] at split
  have isMiddle : middle = .beyond 0 none (front ++ (docComment comment.text ++ gap))
      middle.rest := by
    rw [← Cursor.beyond_append]
    exact isMiddle
  -- Only a header with a type is kept.
  simp only at kept
  split at kept
  case isTrue => cases kept
  case isFalse typed =>
    obtain ⟨rfl, rfl⟩ := Prod.mk.inj (Option.some.inj kept)
    refine ⟨front, comment.text, gap, middle.rest, ⟨middle.offset, after, header⟩, ?_, endless, rfl,
      only, ?_, rfl, ?_⟩
    · rw [split, List.append_assoc]
    · rw [← isMiddle, Text.Reader.foundAt, isHeader]
      rfl
    · exact Bool.eq_false_iff.mpr typed

/-- All documentation comes from a doc comment that stands before the header of its method, with
only blanks and annotations between the two. This comment is a comment of the text unless it begins
within another literal, or its contents begin with a slash, so that the text has it closed at
once. -/
theorem docLookup_comment {text name doc : List Char} (member : (name, doc) ∈ docLookup text) :
    ∃ start stop header, Documents text start stop header ∧ header.value.name.text = name ∧
      doc = cleanDoc (sliceOf text (start + 3) (stop - 2)) ∧
        ((start, stop) ∈ literalSpans text ↔
          text[start + 3]? ≠ some '/' ∧ ∀ span ∈ literalSpans text,
            ¬ (span.1 < start ∧ start < span.2)) := by
  -- An entry comes from a documented method that was found, and its parts give the places.
  obtain ⟨front, raw, gap, rest, header, rfl, endless, rfl, only, isHeader, named, typed⟩ :=
    exists_of_mem_documentedMethods (docLookup_subset text member)
  refine ⟨front.length, front.length + (raw.length + 5), header, ?_, named, ?_, ?_⟩
  · exact documents_append endless only isHeader typed
  · rw [sliceOf_docComment]
  · exact mem_literalSpans_docComment endless front (gap ++ rest)

/-- Behind a comment that is no doc comment of any method, the next one is found with the annotation
between. -/
theorem docLookup_comment_annotated :
    let text := "/** One. */ int x; /** Runs. */ @A.B(\"c\") void run();".toList
    ("run".toList, "Runs.".toList) ∈ docLookup text ∧
      ∃ start stop header, Documents text start stop header ∧
        header.value.name.text = "run".toList ∧
        "Runs.".toList = cleanDoc (sliceOf text (start + 3) (stop - 2)) ∧
          ((start, stop) ∈ literalSpans text ↔
            text[start + 3]? ≠ some '/' ∧ ∀ span ∈ literalSpans text,
              ¬ (span.1 < start ∧ start < span.2)) := by
  intro text
  have member : ("run".toList, "Runs.".toList) ∈ docLookup text := by decide +kernel
  exact ⟨member, docLookup_comment member⟩

/-- An empty comment that opens with two stars is taken for the opening of a doc comment, so that
code and another comment become documentation that is in no comment of the text. -/
theorem emptyComment_documents :
    let text := "/**/ int a(); /** Runs. */ void run();".toList
    docLookup text = [("run".toList, "/ int a(); /** Runs.".toList)] ∧
      ∀ span ∈ literalSpans text,
        cleanDoc (sliceOf text (span.1 + 3) (span.2 - 2)) ≠ "/ int a(); /** Runs.".toList := by
  decide +kernel

end Lineage.Java
