import Lineage.Proofs.Java.Grammar.Passing

/-! Scanning a text made of headers finds each of them once, in order, whatever stands between
them. -/

namespace Lineage.Java

open Lineage.Text

variable {row : Placed} {rows : List Placed} {text : List Char}

/-- A row that begins before all of the others comes first from the left list. -/
theorem cons_merge {others : List Placed} (earlier : ∀ other ∈ others, row.start < other.start) :
    (row :: rows).merge others (fun one other => one.start ≤ other.start) =
      row :: rows.merge others (fun one other => one.start ≤ other.start) := by
  cases others with
  | nil => rw [List.merge_right, List.merge_right]
  | cons other others =>
    have first := earlier other List.mem_cons_self
    rw [List.cons_merge_cons, if_pos (by simpa using first.le)]

/-- A row that begins before all of the others comes first from the right list. -/
theorem merge_cons {others : List Placed} (earlier : ∀ other ∈ rows, row.start < other.start) :
    rows.merge (row :: others) (fun one other => one.start ≤ other.start) =
      row :: rows.merge others (fun one other => one.start ≤ other.start) := by
  cases rows with
  | nil => rw [List.nil_merge, List.nil_merge]
  | cons other rows =>
    have first := earlier other List.mem_cons_self
    rw [List.cons_merge_cons, if_neg (by simpa using first)]

/-- The rows of one sort and those of the other, each where it was, merge into all the rows. -/
theorem merge_filter (rising : rows.Pairwise fun one other => one.start < other.start)
    (p : Placed → Bool) :
    (rows.filter p).merge (rows.filter fun row => !p row)
      (fun one other => one.start ≤ other.start) = rows := by
  induction rows with
  | nil => rw [List.filter_nil, List.filter_nil, List.nil_merge]
  | cons row rows ih =>
    obtain ⟨lowest, rising⟩ := List.pairwise_cons.mp rising
    -- Whichever of the two lists the first row is in, all of the other one begins later.
    by_cases fits : p row = true
    · rw [List.filter_cons_of_pos fits, List.filter_cons_of_neg (by simp [fits]),
        cons_merge fun other member => lowest other (List.mem_of_mem_filter member), ih rising]
    · rw [List.filter_cons_of_neg fits, List.filter_cons_of_pos (by simp [fits]),
        merge_cons fun other member => lowest other (List.mem_of_mem_filter member), ih rising]

/-- Rows that are introduced by the word for a kind. -/
def ofKind (kind : Kind) (rows : List Placed) : List Placed :=
  rows.filter fun row => keywordOf row.declaration.kind == keywordOf kind

theorem ofKind_cons_same {kind : Kind} (same : keywordOf row.declaration.kind = keywordOf kind)
    (rows : List Placed) : ofKind kind (row :: rows) = row :: ofKind kind rows :=
  List.filter_cons_of_pos (by rw [same, beq_self_eq_true])

theorem ofKind_cons_other {kind : Kind} (other : keywordOf row.declaration.kind ≠ keywordOf kind)
    (rows : List Placed) : ofKind kind (row :: rows) = ofKind kind rows :=
  List.filter_cons_of_neg (by rwa [beq_iff_eq])

/-- If each of the two scans finds the rows of its kind, both together find all the rows in
order. -/
theorem declarationsIn_of_placed (rising : rows.Pairwise fun one other => one.start < other.start)
    (classes : classesIn text = ofKind .plainClass rows)
    (interfaces : interfacesIn text = ofKind .interface rows) :
    declarationsIn text = rows.map (·.declaration) := by
  -- What is introduced as an interface is exactly what is not introduced as a class.
  have complement : ofKind .interface rows =
      rows.filter fun row => !(keywordOf row.declaration.kind == keywordOf .plainClass) := by
    refine List.filter_congr fun row _ => ?_
    cases row.declaration.kind <;> decide
  rw [declarationsIn, classes, interfaces, complement, ofKind, merge_filter rising]

/-- The last character of a text is that of what is left when blanks at its front are dropped. -/
theorem getLast?_trimStart (something : trimStart text ≠ []) :
    (trimStart text).getLast? = text.getLast? := by
  obtain ⟨blanks, isText, _⟩ := exists_trimStart text
  obtain ⟨early, c, isRest⟩ := (List.eq_nil_or_concat (trimStart text)).resolve_left something
  rw [isRest] at isText ⊢
  rw [isText]
  simp

/-- A header begins with a modifier or with the word for its kind. -/
theorem HeaderText.begins (header : HeaderText) :
    ∃ kind, ∃ word ∈ keywordOf kind :: modifiersOf kind, ∃ more, header.text = word ++ more := by
  -- The first modifier is the word, or else the keyword.
  have onIntroduction : ∀ {kind} (introduced : Introduction kind),
      ∃ word ∈ keywordOf kind :: modifiersOf kind, ∃ more, introduced.text = word ++ more := by
    intro kind introduced
    cases isRow : introduced.modifiers with
    | nil =>
      refine ⟨keywordOf kind, List.mem_cons_self, introduced.space.text ++ introduced.name.text, ?_⟩
      rw [Introduction.text, isRow]
      rfl
    | cons modifier modifiers =>
      refine ⟨modifier.word, List.mem_cons_of_mem _ modifier.listed, modifier.space.text ++
        (modifiers.flatMap Modifier.text ++
          (keywordOf kind ++ (introduced.space.text ++ introduced.name.text))), ?_⟩
      rw [Introduction.text, isRow, List.flatMap_cons, Modifier.text, List.append_assoc,
        List.append_assoc]
  cases header with
  | ofClass introduced superclass interfaces =>
    obtain ⟨word, isWord, more, isText⟩ := onIntroduction introduced
    exact ⟨.plainClass, word, isWord, more ++ _, by rw [HeaderText.text, isText, List.append_assoc]⟩
  | ofInterface introduced interfaces =>
    obtain ⟨word, isWord, more, isText⟩ := onIntroduction introduced
    exact ⟨.interface, word, isWord, more ++ _, by rw [HeaderText.text, isText, List.append_assoc]⟩

/-- A header begins with a letter. -/
theorem HeaderText.head (header : HeaderText) :
    ∃ c more, header.text = c :: more ∧ isNameChar c = true := by
  obtain ⟨kind, word, isWord, more, isText⟩ := header.begins
  have letters : ∀ word ∈ keywordOf kind :: modifiersOf kind, word ≠ [] ∧
      word.head?.any isNameChar = true := by
    cases kind <;> decide
  obtain ⟨nonempty, letter⟩ := letters word isWord
  obtain ⟨c, word, rfl⟩ := List.exists_cons_of_ne_nil nonempty
  exact ⟨c, word ++ more, isText, letter⟩

/-- No header begins with a word that introduces references. -/
theorem HeaderText.ne_linkWord (header : HeaderText) {link : List Char} (listed : link ∈ linkWords)
    (rest more : List Char) : header.text ++ rest ≠ link ++ more := by
  obtain ⟨kind, word, isWord, behind, isText⟩ := header.begins
  -- The words differ in their first two letters.
  have differ : ∀ word ∈ keywordOf kind :: modifiersOf kind, ∀ link ∈ linkWords,
      2 ≤ word.length ∧ 2 ≤ link.length ∧ word.take 2 ≠ link.take 2 := by
    cases kind <;> decide
  obtain ⟨long, longLink, different⟩ := differ word isWord link listed
  intro same
  rw [isText, List.append_assoc] at same
  have begun := congrArg (List.take 2) same
  rw [List.take_append_of_le_length long, List.take_append_of_le_length longLink] at begun
  exact different begun

/-- What follows a header still does so when another header comes behind it. -/
theorem EndsHeader.append {filler : List Char} (ends : EndsHeader filler) (apart : filler ≠ [])
    (started : MayPrecede filler.getLast?) (header : HeaderText) (rest : List Char) :
    EndsHeader (filler ++ (header.text ++ rest)) := by
  have name : (filler ++ (header.text ++ rest)).head?.any isPathChar = false := by
    obtain ⟨c, filler, rfl⟩ := List.exists_cons_of_ne_nil apart
    exact ends.name
  by_cases nothing : trimStart filler = []
  · -- The other header comes next behind blanks, and it begins with a letter.
    obtain ⟨c, tail, isText, letter⟩ := header.head
    have allBlank : ∀ c ∈ filler, isBlank c = true := by simpa [trimStart] using nothing
    have notBlank : (header.text ++ rest).head?.any isBlank = false := by
      rw [isText]
      exact isBlank_of_isNameChar letter
    refine ⟨name, ?_, ?_⟩
    · have notOpen : c ≠ '<' := ne_of_class letter (by decide)
      have notComma : c ≠ ',' := ne_of_class letter (by decide)
      rw [trimStart_append allBlank notBlank, isText]
      simp [notOpen, notComma]
    · intro link listed more isLink
      rw [trimStart_append allBlank notBlank] at isLink
      exact absurd isLink (header.ne_linkWord listed rest more)
  · refine ⟨name, ?_, ?_⟩
    · have sign := ends.sign
      obtain ⟨c, more, isTrimmed⟩ := List.exists_cons_of_ne_nil nothing
      rw [trimStart_append_of_ne_nil nothing, isTrimmed]
      rwa [isTrimmed] at sign
    · intro link listed more isLink
      rw [trimStart_append_of_ne_nil nothing] at isLink
      -- What stands between the headers does not end within the word, nor with it.
      have notWithin : ¬ trimStart filler <+: link := by
        rintro ⟨later, isWord⟩
        have letters : ∀ link ∈ linkWords, ∀ c ∈ link, isNameChar c = true := by decide
        obtain ⟨early, c, isTrimmed⟩ :=
          (List.eq_nil_or_concat (trimStart filler)).resolve_left nothing
        have isLast : filler.getLast? = some c := by
          rw [← getLast?_trimStart nothing, isTrimmed]; simp
        have named : isNameChar c = true := letters link listed c (by simp [← isWord, isTrimmed])
        rw [isLast] at started
        exact absurd (started.notName.symm.trans named) (by decide)
      rcases List.append_eq_append_iff.mp isLink with ⟨later, isWord, _⟩ | ⟨behind, isFiller, rfl⟩
      · exact absurd ⟨later, isWord.symm⟩ notWithin
      · cases behind with
        | nil => exact absurd ⟨[], by rw [isFiller, List.append_nil, List.append_nil]⟩ notWithin
        | cons c behind => exact ends.clause link listed (c :: behind) isFiller

/-- What leads up to a header behind another one does so by itself. -/
theorem LeadsUp.of_append {front : List Char} (leads : LeadsUp (front ++ text))
    (begins : text.head?.any isNameChar = false) : LeadsUp text := by
  constructor
  · obtain ⟨started, noHyphen⟩ := leads.last
    rw [List.getLast?_append] at started noHyphen
    refine ⟨started.of_or, fun isHyphen => noHyphen ?_⟩
    rw [isHyphen, Option.some_or]
  · intro word listed early isTrimmed
    have letters : ∀ word ∈ classModifiers, word ≠ [] ∧ word.head?.any isNameChar = true := by
      decide
    obtain ⟨nonempty, letter⟩ := letters word listed
    have something : trimEnd text ≠ [] := by simp [isTrimmed, nonempty]
    have notHere := leads.modifier word listed (front ++ early)
      (by rw [trimEnd_append_of_ne_nil something, isTrimmed, List.append_assoc])
    rcases List.eq_nil_or_concat early with rfl | ⟨early, c, rfl⟩
    · -- The modifier would begin where the text does.
      obtain ⟨c, more, rfl⟩ := List.exists_cons_of_ne_nil nonempty
      obtain ⟨blanks, isText, _⟩ := exists_trimEnd text
      rw [isText, isTrimmed] at begins
      exact absurd (begins.symm.trans letter) (by decide)
    · simpa using notHere

/-- The headers of passages, each where it begins. -/
def placed : Nat → List Passage → List Placed
  | _, [] => []
  | start, passage :: passages =>
    ⟨start, passage.header.declaration⟩ :: placed (start + passage.text.length) passages

/-- No passage is placed before the start. -/
theorem start_le_of_mem_placed {passages : List Passage} {start : Nat}
    (member : row ∈ placed start passages) : start ≤ row.start := by
  induction passages generalizing start with
  | nil => cases member
  | cons passage passages ih =>
    rcases List.mem_cons.mp member with rfl | later
    · exact Nat.le_refl start
    · exact (Nat.le_add_right _ _).trans (ih later)

/-- Passages are placed one behind the other. -/
theorem placed_rising (passages : List Passage) (start : Nat) :
    (placed start passages).Pairwise fun one other => one.start < other.start := by
  induction passages generalizing start with
  | nil => exact List.Pairwise.nil
  | cons passage passages ih =>
    refine List.pairwise_cons.mpr ⟨fun row member => ?_, ih _⟩
    -- The other rows begin behind this passage, which takes some room.
    have later := start_le_of_mem_placed member
    obtain ⟨c, more, isText, _⟩ := passage.header.head
    have room : 0 < passage.text.length := by simp [Passage.text, isText]
    show start < row.start
    omega

/-- What is placed declares what the headers do. -/
theorem declaration_placed (passages : List Passage) (start : Nat) :
    (placed start passages).map (·.declaration) = passages.map (·.header.declaration) := by
  induction passages generalizing start with
  | nil => rfl
  | cons passage passages ih => rw [placed, List.map_cons, List.map_cons, ih]

/-- A passage with others behind it leads on to them, and so do those of them that others follow. -/
theorem leadsOn_of_dropLast {passage : Passage} {passages : List Passage}
    (leadOn : ∀ other ∈ (passage :: passages).dropLast, other.LeadsOn) :
    (passages ≠ [] → passage.LeadsOn) ∧ ∀ other ∈ passages.dropLast, other.LeadsOn := by
  cases passages with
  | nil => exact ⟨fun nonempty => absurd rfl nonempty, by simp⟩
  | cons next passages =>
    rw [List.dropLast_cons_of_ne_nil (List.cons_ne_nil next passages)] at leadOn
    obtain ⟨here, later⟩ := List.forall_mem_cons.mp leadOn
    exact ⟨fun _ => here, later⟩

/-- What follows the header of a passage, up to the end of the text. -/
theorem Passage.endsHeader (passage : Passage) {passages : List Passage}
    (leadOn : passages ≠ [] → passage.LeadsOn) :
    EndsHeader (passage.filler ++ passages.flatMap Passage.text) := by
  cases passages with
  | nil =>
    rw [List.flatMap_nil, List.append_nil]
    exact passage.ends
  | cons next passages =>
    obtain ⟨apart, leads⟩ := leadOn (List.cons_ne_nil next passages)
    -- The last character of the passage is that of the text behind its header.
    have started : MayPrecede passage.filler.getLast? := by
      have last := leads.last.1
      rw [Passage.text, List.getLast?_append] at last
      exact last.of_or
    rw [List.flatMap_cons, Passage.text, List.append_assoc]
    exact passage.ends.append apart started next.header _

section Scanning

variable {α : Type} {reader : Text.Reader α} {kind : Kind} {declare : α → Declaration}

/-- A reader that takes the headers of one kind, and nothing else, finds those of the passages. -/
theorem allFrom_passages (announces : Reader.Announces reader kind Reader.IsName)
    (reads : ∀ header : HeaderText, keywordOf header.declaration.kind = keywordOf kind →
      ∀ offset before rest,
      MayPrecede before → EndsHeader rest →
        ∃ value, reader.Prefers offset before header.text rest value ∧
        declare value = header.declaration)
    {passages : List Passage} (leadOn : ∀ passage ∈ passages.dropLast, passage.LeadsOn)
    {offset : Nat} {before : Option Char} (started : passages ≠ [] → MayPrecede before) :
    (reader.allFrom offset before 0 (passages.flatMap Passage.text)).map
        (fun found => (⟨found.start, declare found.value⟩ : Placed)) = ofKind kind
          (placed offset passages) := by
  -- Along the passages; the place and the character before it move on with them.
  induction passages generalizing offset before with
  | nil => rfl
  | cons passage passages ih =>
    obtain ⟨here, onward⟩ := leadsOn_of_dropLast leadOn
    have ends := passage.endsHeader here
    -- There is a text behind the passage only if there are further passages.
    have leads : passages.flatMap Passage.text ≠ [] → LeadsUp passage.text := fun something =>
      (here (fun nothing => something (by rw [nothing, List.flatMap_nil]))).leads
    have later :=
      @ih onward (offset + passage.text.length) (passage.text.getLast?.or before) fun nonempty =>
      (here nonempty).leads.last.1.or (started (List.cons_ne_nil passage passages))
    rw [List.flatMap_cons, placed]
    by_cases same : keywordOf passage.header.declaration.kind = keywordOf kind
    · -- The header is found, and the search goes on behind what follows it.
      obtain ⟨value, prefers, declares⟩ :=
        reads passage.header same offset before _ (started (by simp)) ends
      have headed : passage.header.text ≠ [] := by
        obtain ⟨c, more, isText, _⟩ := passage.header.head
        simp [isText]
      have absent := passage.silent (keywordOf kind) (keywordOf_mem_typeWords kind)
      have leadsFiller : passages.flatMap Passage.text ≠ [] → LeadsUp passage.filler :=
        fun something =>
        (leads something).of_append (isNameChar_of_isPathChar passage.ends.name)
      rw [ofKind_cons_same same, ← later, Passage.text, List.append_assoc,
        Text.Reader.allFrom_prefers headed prefers, announces.allFrom_silent absent leadsFiller,
        List.map_cons, declares, List.getLast?_append, List.length_append,
        Nat.add_assoc, Option.or_assoc]
    · -- Neither the header nor what follows it holds the word for the kind.
      have absent : ¬ StandsIn (keywordOf kind) passage.text :=
        not_standsIn_header (keywordOf_mem_typeWords kind) passage.header (Ne.symm same)
          passage.ends.name (passage.silent (keywordOf kind) (keywordOf_mem_typeWords kind))
      rw [ofKind_cons_other same, ← later, announces.allFrom_silent absent leads]

/-- Before the first header the search finds nothing. -/
theorem all_passages (announces : Reader.Announces reader kind Reader.IsName)
    (reads : ∀ header : HeaderText, keywordOf header.declaration.kind = keywordOf kind →
      ∀ offset before rest,
      MayPrecede before → EndsHeader rest →
        ∃ value, reader.Prefers offset before header.text rest value ∧
        declare value = header.declaration)
    {opening : List Char} {passages : List Passage} (silent : Silent opening)
    (leads : passages ≠ [] → LeadsUp opening)
    (leadOn : ∀ passage ∈ passages.dropLast, passage.LeadsOn) :
    (reader.all (opening ++ passages.flatMap Passage.text)).map
        (fun found => (⟨found.start, declare found.value⟩ : Placed)) =
      ofKind kind (placed opening.length passages) := by
  -- The opening is passed, and then the passages are found one by one.
  have absent := silent (keywordOf kind) (keywordOf_mem_typeWords kind)
  have leadsText : passages.flatMap Passage.text ≠ [] → LeadsUp opening := fun something =>
    leads fun nothing => something (by rw [nothing, List.flatMap_nil])
  rw [Text.Reader.all, announces.allFrom_silent absent leadsText, Nat.zero_add, Option.or_none]
  exact allFrom_passages announces reads leadOn fun nonempty => (leads nonempty).last.1

end Scanning

section Text

variable {opening : List Char} {passages : List Passage} (silent : Silent opening)
  (leads : passages ≠ [] → LeadsUp opening)
    (leadOn : ∀ passage ∈ passages.dropLast, passage.LeadsOn)
include silent leads leadOn

/-- The classes in passages are those that their headers write. -/
theorem classesIn_passages :
    classesIn (opening ++ passages.flatMap Passage.text) = ofKind .plainClass
      (placed opening.length passages) := by
  -- A class header is read as it is written, and an interface has another keyword.
  refine all_passages Reader.announces_classHeader
    (fun header same offset before rest started ends => ?_) silent leads leadOn
  cases header with
  | ofClass introduced superclass interfaces =>
    exact ⟨_, Reader.prefers_classHeader introduced superclass interfaces started ends,
      Reader.declaration_classHeaderOf introduced superclass interfaces rest⟩
  | ofInterface introduced interfaces =>
    have sameWord : keywordOf .interface = keywordOf .plainClass := same
    exact absurd sameWord (by decide)

/-- The interfaces in passages are those that their headers write. -/
theorem interfacesIn_passages :
    interfacesIn (opening ++ passages.flatMap Passage.text) = ofKind .interface
      (placed opening.length passages) := by
  refine all_passages Reader.announces_interfaceHeader
    (fun header same offset before rest started ends => ?_) silent leads leadOn
  cases header with
  | ofClass introduced superclass interfaces =>
    rw [keywordOf_ofClass] at same
    exact absurd same (by decide)
  | ofInterface introduced interfaces =>
    exact ⟨_, Reader.prefers_interfaceHeader introduced interfaces started ends,
      Reader.declaration_interfaceHeaderOf introduced interfaces rest⟩

end Text

/-- In a text made of headers with other text before, between and behind them, each header is found
once, in order, and gives the declaration that it spells. -/
theorem declarationsIn_passages {opening : List Char} {passages : List Passage}
    (silent : Silent opening) (leads : passages ≠ [] → LeadsUp opening)
    (leadOn : ∀ passage ∈ passages.dropLast, passage.LeadsOn) :
    declarationsIn (opening ++ passages.flatMap Passage.text) = passages.map
      (·.header.declaration) := by
  -- Classes and interfaces are merged in the order of their places.
  rw [declarationsIn_of_placed (placed_rising passages opening.length)
    (classesIn_passages silent leads leadOn)
    (interfacesIn_passages silent leads leadOn), declaration_placed]

/-- An abstract class with type parameters three deep, a qualified superclass and two interfaces. -/
def Passage.shape : Passage where
  header := .ofClass
    { modifiers :=
        [⟨"public".toList, by decide, ⟨⟨"  ".toList, by decide⟩, by decide⟩⟩,
         ⟨"abstract".toList, by decide, ⟨⟨"\t".toList, by decide⟩, by decide⟩⟩]
      space := .single
      name := ⟨⟨"Shape".toList, by decide, by decide⟩, by decide⟩
      parameters := some
        { space := .none
          inner :=
            "K extends Map".toList ++ '<' ::
            ("K, List".toList ++ '<' :: ("V".toList ++ ['>']) ++ ['>'])
          nested := ⟨_, (Angled.of_plain (by decide)).append
            (.nest ((Angled.of_plain (by decide)).append (.nest (.of_plain (by decide)) .nil))
              .nil)⟩
          unbroken := by decide
          silent := by decide } }
    (some
      { before := .single
        behind := .single
        content :=
          { first := ⟨⟨"geo".toList, by decide, by decide⟩, by decide⟩
            more := [⟨⟨"Figure".toList, by decide, by decide⟩, by decide⟩]
            arguments := none } })
    (some
      { before := ⟨⟨"\n  ".toList, by decide⟩, by decide⟩
        behind := .single
        content :=
          { first :=
              { first := ⟨⟨"Comparable".toList, by decide, by decide⟩, by decide⟩
                more := []
                arguments := some
                  { space := Spacing.single.toBlanks
                    inner := "K".toList
                    nested := ⟨_, .of_plain (by decide)⟩
                    unbroken := by decide
                    silent := by decide } }
            more :=
              [{ before := Spacing.single.toBlanks
                 behind := .none
                 reference :=
                  { first := ⟨⟨"Cloneable".toList, by decide, by decide⟩, by decide⟩
                    more := []
                    arguments := none } }] } })
  filler := " \x7b\n  Object kind = Shape.class;\n\x7d\n".toList
  ends := by decide
  silent := by decide

/-- An interface that extends another one and names the types to which it is open. -/
def Passage.area : Passage where
  header := .ofInterface
    { modifiers := [⟨"sealed".toList, by decide, .single⟩]
      space := .single
      name := ⟨⟨"Area".toList, by decide, by decide⟩, by decide⟩
      parameters := none }
    (some
      { before := .single
        behind := .single
        content :=
          { first :=
              { first := ⟨⟨"Sized".toList, by decide, by decide⟩, by decide⟩
                more := []
                arguments := none }
            more := [] } })
  filler := " permits Shape \x7b \x7d".toList
  ends := by decide
  silent := by decide

/-- Neither an annotation type nor the use of a class is taken for a header. -/
theorem declarationsIn_passages_shape :
    Silent "@interface Note \x7b \x7d\n".toList ∧ LeadsUp "@interface Note \x7b \x7d\n".toList ∧
      Passage.shape.LeadsOn ∧
      (declarationsIn ("@interface Note \x7b \x7d\n".toList ++
        "public  abstract\tclass Shape<K extends Map<K, List<V>>>".toList ++
        " extends geo.Figure\n  implements Comparable <K> ,Cloneable".toList ++
        " \x7b\n  Object kind = Shape.class;\n\x7d\n".toList ++
        "sealed interface Area extends Sized permits Shape \x7b \x7d".toList)).map
        (fun declaration =>
          (declaration.name, declaration.kind, declaration.superclass, declaration.interfaces)) =
        [("Shape", .abstractClass, some "Figure", ["Comparable", "Cloneable"]),
          ("Area", .interface, none, ["Sized"])] := by
  -- The passages are evaluated, and the general result says what is declared in them.
  have silent : Silent "@interface Note \x7b \x7d\n".toList := by decide
  have leads : LeadsUp "@interface Note \x7b \x7d\n".toList := by decide
  have leadOn : ∀ passage ∈ [Passage.shape, Passage.area].dropLast, passage.LeadsOn := by decide
  have shape : "public  abstract\tclass Shape<K extends Map<K, List<V>>>".toList ++
      " extends geo.Figure\n  implements Comparable <K> ,Cloneable".toList ++
      " \x7b\n  Object kind = Shape.class;\n\x7d\n".toList = Passage.shape.text := by decide +kernel
  have area : "sealed interface Area extends Sized permits Shape \x7b \x7d".toList =
      Passage.area.text := by
    decide +kernel
  have found := declarationsIn_passages silent (fun _ => leads) leadOn
  refine ⟨silent, leads, leadOn Passage.shape (by simp), ?_⟩
  rw [List.flatMap_cons, List.flatMap_singleton, ← shape, ← area] at found
  simp only [← List.append_assoc] at found
  rw [found]
  decide

end Lineage.Java
