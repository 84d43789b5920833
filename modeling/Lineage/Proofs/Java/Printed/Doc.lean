import Lineage.Proofs.Java.Printed.Method

/-! The documentation of written methods is read as it was written, and each name gets that of its
first method. -/

namespace Lineage.Java

open Lineage.Text

/-- Lines that each end with a line feed, and one more line. -/
theorem intercalate_concat (rows : List (List Char)) (last : List Char) :
    ['\n'].intercalate (rows ++ [last]) = rows.flatMap (fun row => row ++ ['\n']) ++ last := by
  induction rows with
  | nil => simp
  | cons row rows ih =>
    rw [List.flatMap_cons, List.append_assoc, ← ih]
    cases rows with
    | nil => simp [List.intercalate_cons_cons]
    | cons other rows => simp [List.intercalate_cons_cons]

/-- A line of a doc comment without its decoration. -/
theorem undecorated_line (line : List Char) : undecorated (" * ".toList ++ line) = line :=
  rfl

/-- The contents of a comment are lines that begin with a star, between an empty one and a blank. -/
theorem commentContents_eq (texts : List (List Char)) :
    commentContents texts = ['\n'].intercalate
      (([] :: texts.map fun line => " * ".toList ++ line) ++ [[' ']]) := by
  rw [intercalate_concat, commentContents]
  simp [List.flatMap_map]

variable {texts : List (List Char)} {typeName : List Char}

/-- Documentation does not begin with a blank. -/
theorem DocText.head (fits : DocText texts) :
    (['\n'].intercalate texts).head?.any isBlank = false := by
  cases texts with
  | nil => rfl
  | cons line texts =>
    obtain ⟨nonempty, begins⟩ := fits.first line rfl
    obtain ⟨c, tail, rfl⟩ := List.exists_cons_of_ne_nil nonempty
    cases texts with
    | nil => simpa using begins
    | cons other texts => simpa [List.intercalate_cons_cons] using begins

/-- Documentation does not end with a blank. -/
theorem DocText.getLast (fits : DocText texts) :
    (['\n'].intercalate texts).getLast?.any isBlank = false := by
  rcases List.eq_nil_or_concat texts with rfl | ⟨front, line, rfl⟩
  · rfl
  · rw [List.concat_eq_append] at fits ⊢
    have nonempty : line ≠ [] := by simpa using fits.last
    have trimmed := (fits.lines line (by simp)).trimmed
    obtain ⟨c, isLast⟩ := Option.isSome_iff_exists.mp (List.getLast?_isSome.mpr nonempty)
    rw [intercalate_concat, List.getLast?_append, isLast, Option.some_or, ← isLast]
    exact trimmed

/-- The lines of a doc comment without their decoration: those of the documentation between two
empty ones. -/
theorem DocText.undecorated (fits : DocText texts) :
    ((commentContents texts).splitOn '\n').map Java.undecorated = [] :: texts ++ [[]] := by
  -- No line holds a line feed, so the contents are cut where the lines were joined.
  have noFeed : ∀ line ∈ ([] :: texts.map fun line => " * ".toList ++ line) ++ [[' ']],
      '\n' ∉ line := by
    intro line member
    rw [List.mem_append, List.mem_cons, List.mem_map] at member
    rcases member with (rfl | ⟨text, listed, rfl⟩) | isLast
    · exact List.not_mem_nil
    · rw [List.mem_append, not_or]
      refine ⟨by decide, fun inside => ?_⟩
      exact absurd rfl (ne_of_class (p := isLineEnd) rfl
        ((fits.lines text listed).oneLine '\n' inside))
    · rw [List.mem_singleton.mp isLast]
      decide
  rw [commentContents_eq, List.splitOn_intercalate '\n' noFeed (by simp), List.map_append,
    List.map_cons, List.map_map]
  congr 2
  exact (List.map_congr_left fun line _ => undecorated_line line).trans (List.map_id texts)

/-- What a doc comment holds comes down to its lines. -/
theorem DocText.cleanDoc (fits : DocText texts) (nonempty : texts ≠ []) :
    Java.cleanDoc (commentContents texts) = ['\n'].intercalate texts := by
  -- The empty lines at both ends are trimmed away, and nothing else is.
  have framed : ['\n'].intercalate ([] :: texts ++ [[]]) = ['\n'] ++
      (['\n'].intercalate texts ++ ['\n']) := by
    obtain ⟨front, line, rfl⟩ := (List.eq_nil_or_concat texts).resolve_left nonempty
    rw [List.concat_eq_append, intercalate_concat, intercalate_concat]
    simp
  have trimmed : trim (['\n'] ++ (['\n'].intercalate texts ++ ['\n'])) = ['\n'].intercalate texts :=
    trim_append (by decide) (by decide) fits.head fits.getLast
  have kept : texts.map trimEnd = texts := by
    refine (List.map_congr_left fun line member => ?_).trans (List.map_id texts)
    have alone : trimEnd (line ++ []) = line :=
      trimEnd_append (by simp) (fits.lines line member).trimmed
    rwa [List.append_nil] at alone
  rw [Java.cleanDoc, fits.undecorated, framed, trimmed,
    lines_intercalate (fun line member => (fits.lines line member).oneLine) fits.last, kept]

namespace Reader

open Lineage.Text.Reader

/-- A documented method begins with the slash of its doc comment. -/
theorem begins_documentedMethod : Begins documentedMethod (· == '/') :=
  (Begins.literal (by decide)).bind _

section Reading

variable {offset : Nat} {before : Option Char} {rest : List Char}

/-- All that precedes the end of a comment is read. -/
theorem prefers_upTo_end {text : List Char} (endless : ¬ ['*', '/'] <:+: text) :
    Prefers (upTo ['*', '/']) offset before text ('*' :: '/' :: rest) () := by
  have place : placeBefore ['*', '/'] offset before (text ++ '*' :: '/' :: rest) =
      .beyond offset before text ('*' :: '/' :: rest) := by
    induction text generalizing offset before with
    | nil => rfl
    | cons c text ih =>
      have later : ¬ ['*', '/'] <:+: text :=
        fun isPart => endless (isPart.trans (List.suffix_cons c text).isInfix)
      -- An end of a comment here would stand within the text, or be cut off from its own end.
      have goesOn : ¬ ['*', '/'].isPrefixOf (c :: (text ++ '*' :: '/' :: rest)) = true := by
        intro isPrefix
        obtain ⟨more, split⟩ := List.isPrefixOf_iff_prefix.mp isPrefix
        obtain ⟨isStar, behind⟩ := List.cons.inj split
        exact ne_slash_of_endless endless isStar.symm rest more behind.symm
      rw [List.cons_append, placeBefore, if_neg goesOn, ih later, Cursor.beyond_cons]
  rw [Prefers, upTo, place]
  rfl

/-- What a doc comment and the method behind it say, with `rest` behind them. -/
def documentedMethodOf {typeName : List Char} {method : MethodText} (fits : method.Fits typeName)
    (rest : List Char) :
    DocumentedMethod where
  doc := ⟨commentContents method.documentation ++ ('*' :: '/' :: '\n' :: method.header ++ rest),
    (commentContents method.documentation).length⟩
  header := typedRead fits.member.typed rest

/-- A doc comment and the method behind it are read to their end. -/
theorem prefers_documentedMethod {method : MethodText} (fits : method.Fits typeName) :
    Prefers documentedMethod offset before
      (commentText method.documentation ++ '\n' :: method.header) rest
      (documentedMethodOf fits rest) := by
  -- Part by part: the comment, the line feed, no annotation and the header.
  have endless :=
    commentContents_endless fun line member => (fits.documentation.lines line member).endless
  have grouped : commentText method.documentation ++ '\n' :: method.header =
      ['/', '*', '*'] ++ (commentContents method.documentation ++ (['*', '/'] ++ (['\n'] ++ ([] ++
        (method.header ++ []))))) := by
    rw [commentText_eq]
    simp
  obtain ⟨c, more, begins, isName⟩ := fits.exists_cons rest
  have readDoc : ∀ {offset before}, Prefers (stretch (upTo ['*', '/'])) offset before
      (commentContents method.documentation)
      (['*', '/'] ++ (['\n'] ++ ([] ++ (method.header ++ []))) ++ rest)
      (documentedMethodOf fits rest).doc := by
    rw [List.append_nil]
    exact .stretch (prefers_upTo_end endless)
  have readFeed : ∀ {offset before},
      Prefers blanks offset before ['\n'] ([] ++ (method.header ++ []) ++ rest) () := by
    refine .run (by decide) ?_
    rw [List.append_nil, List.nil_append, begins]
    exact isBlank_of_isNameChar isName
  have noAnnotation : ∀ {offset before}, Prefers (many annotationMark) offset before []
      (method.header ++ [] ++ rest) [] := by
    refine .many_none (((Begins.char (p := (· == '@')) fun _ same => same).bind _).eq_nil ?_)
    rw [List.append_nil, begins]
    exact beq_false_of_ne (ne_of_class isName (by decide))
  have readHeader : ∀ {offset}, Prefers methodHeader offset (some '\n') method.header rest
      (typedRead fits.member.typed rest) := by
    rw [← fits.header_member]
    exact prefers_member fits.member (by rfl)
  rw [grouped]
  exact .bind (.literal _) (.bind readDoc (.bind (.literal _) (.bind readFeed (.bind noAnnotation
    (.bind readHeader (.pure _))))))

end Reading

end Reader

/-- What is kept of a documented method that was found. -/
def keptDoc (found : DocumentedMethod) : Option (List Char × List Char) :=
  if isNoType found.header.returnType.text then none
  else some (found.header.name.text, cleanDoc found.doc.text)

/-- The name of a method with its documentation, if it has any. -/
def MethodText.entry (method : MethodText) : Option (List Char × List Char) :=
  if method.documentation.isEmpty then
    none else some (method.name, ['\n'].intercalate method.documentation)

/-- The documentation of a method that fits is kept under its name. -/
theorem MethodText.Fits.keptDoc_eq {method : MethodText} (fits : method.Fits typeName)
    (documented : method.documentation ≠ []) (rest : List Char) :
    keptDoc (Reader.documentedMethodOf fits rest) =
      some (method.name, ['\n'].intercalate method.documentation) := by
  obtain ⟨returnType, name, _⟩ := Reader.text_typedRead fits.member.typed rest
  have doc : (Reader.documentedMethodOf fits rest).doc.text =
    commentContents method.documentation := List.take_left
  have header : (Reader.documentedMethodOf fits rest).header =
    Reader.typedRead fits.member.typed rest := rfl
  have isType : isNoType fits.member.typed.type.text = false := by
    simpa [isNoType] using ReturnType.notMem fits.member.noKeyword
  rw [keptDoc, doc, header, returnType, name, fits.documentation.cleanDoc documented, isType]
  rfl

/-- The doc comments of written methods are found in the order in which they were written. -/
theorem allFrom_documentedMethod {methods : List MethodText}
    (fit : ∀ method ∈ methods, method.Fits typeName) {offset : Nat} {before : Option Char} :
    (Reader.documentedMethod.allFrom offset before 0 (methods.flatMap MethodText.print)).filterMap
        (fun found => keptDoc found.value) = methods.filterMap MethodText.entry := by
  induction methods generalizing offset before with
  | nil => rfl
  | cons method methods ih =>
    have here := fit method List.mem_cons_self
    have later := @ih (fun other member => fit other (List.mem_cons_of_mem method member))
    -- Outside of comments there is no slash.
    have noSlash : ∀ {c}, Plain c → (c == '/') = false :=
      fun plain => beq_false_of_ne (ne_of_class (p := isOpener) rfl plain.1).symm
    rw [List.flatMap_cons, MethodText.print]
    by_cases documented : method.documentation = []
    · -- Nothing is found in a method without a comment.
      have entry : method.entry = none := by simp [MethodText.entry, documented]
      rw [List.filterMap_cons_none entry, if_pos (by simp [documented]), List.nil_append,
        Reader.begins_documentedMethod.allFrom_append fun c inside => noSlash (here.plain c inside)]
      exact later
    · have entry : method.entry = some (method.name, ['\n'].intercalate method.documentation) := by
        simp [MethodText.entry, documented]
      -- The comment and the header are found as one, and the line feed is passed over.
      have grouped : commentText method.documentation ++ ['\n'] ++ method.header ++ ['\n'] ++
          methods.flatMap MethodText.print = commentText method.documentation ++ '\n' ::
            method.header ++ (['\n'] ++ methods.flatMap MethodText.print) := by simp
      rw [List.filterMap_cons_some entry, if_neg (by simpa using documented), grouped,
        Text.Reader.allFrom_prefers (by simp) (Reader.prefers_documentedMethod here),
        Reader.begins_documentedMethod.allFrom_append (by decide), List.filterMap_cons]
      simp only [here.keptDoc_eq documented]
      congr 1
      exact later

/-- The documented methods inside of a type are those with a documentation. -/
theorem TypeText.Fits.documentedMethods_inside {margin : List Char}
    (blank : ∀ c ∈ margin, isBlank c = true) {type : TypeText} (fits : type.Fits) :
    documentedMethods (type.inside margin) = type.methods.filterMap MethodText.entry := by
  -- The margin is passed, as no comment begins in it.
  have noSlash : ∀ c ∈ margin, (c == '/') = false :=
    fun c inside => beq_false_of_ne (ne_of_class (blank c inside) (by decide))
  rw [documentedMethods, Text.Reader.all, TypeText.inside,
    Reader.begins_documentedMethod.allFrom_append noSlash]
  exact allFrom_documentedMethod fits.methods

/-- Where the first entry of each name wins, looking up a name finds its first entry. -/
theorem lookup_docLookup (text name : List Char) :
    (docLookup text).lookup name = (documentedMethods text).lookup name := by
  -- Whatever is known before, the entries that follow are asked only for names that are not known
  -- yet.
  have general : ∀ entries known : List (List Char × List Char),
      (entries.foldl (fun known entry => if known.any (·.1 == entry.1) then
        known else known ++ [entry]) known).lookup
        name = (known.lookup name).or (entries.lookup name) := by
    intro entries
    induction entries with
    | nil => intro known; simp
    | cons entry entries ih =>
      intro known
      obtain ⟨key, doc⟩ := entry
      rw [List.foldl_cons, ih]
      by_cases same : name = key
      · subst same
        -- A name that is known keeps its entry, and a new one gets this entry.
        split
        case isTrue isKnown =>
          have found : (known.lookup name).isSome := by
            obtain ⟨pair, member, equal⟩ := List.any_eq_true.mp isKnown
            rw [Option.isSome_iff_ne_none, ne_eq, List.lookup_eq_none_iff]
            intro unknown
            have different := unknown pair member
            simp only [beq_iff_eq] at equal
            simp [equal] at different
          obtain ⟨value, isValue⟩ := Option.isSome_iff_exists.mp found
          rw [isValue, Option.some_or, Option.some_or]
        case isFalse => simp [List.lookup_append]
      · -- An entry of another name does not matter.
        have different : (name == key) = false := beq_false_of_ne same
        split <;> simp [List.lookup_append, List.lookup_cons, different]
  rw [docLookup, general, List.lookup_nil, Option.none_or]

/-- The first documented method of a name is the first method of that name with documentation. -/
theorem lookup_entries (methods : List MethodText) (name : List Char) :
    (methods.filterMap MethodText.entry).lookup name =
      (methods.find? fun method => method.name == name && !method.documentation.isEmpty).map
        fun method => ['\n'].intercalate method.documentation := by
  induction methods with
  | nil => rfl
  | cons method methods ih =>
    -- Only a method with documentation can be found, and it has an entry.
    by_cases documented : method.documentation = []
    · have entry : method.entry = none := by simp [MethodText.entry, documented]
      rw [List.filterMap_cons_none entry, List.find?_cons_of_neg (by simp [documented]), ih]
    · have entry : method.entry = some (method.name, ['\n'].intercalate method.documentation) := by
        simp [MethodText.entry, documented]
      rw [List.filterMap_cons_some entry, List.lookup_cons]
      by_cases same : method.name = name
      · rw [List.find?_cons_of_pos (by simp [same, documented])]
        simp [same]
      · rw [List.find?_cons_of_neg (by simp [same]), ← ih]
        simp [beq_false_of_ne (Ne.symm same)]

end Lineage.Java
