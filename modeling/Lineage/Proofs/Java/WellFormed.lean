import Lineage.Proofs.Java.Grammar.Passing
import Lineage.Proofs.Java.Layout
import Lineage.Proofs.Text.Reads

/-! Declarations are well formed, whatever the text: their names are names, and each has one
interface for each reference in the list that its header gives. -/

namespace Lineage.Java

open Lineage.Text

/-- A path as it is read: a name, or a path and one more name behind a dot. -/
inductive IsQualified : List Char → Prop where
  | name {name : List Char} : Reader.IsName name → IsQualified name
  | dotted {path name : List Char} : IsQualified path → Reader.IsName name →
    IsQualified (path ++ '.' :: name)

/-- A qualified name is a path. -/
theorem IsQualified.isPath {path : List Char} (qualified : IsQualified path) : IsPath path := by
  have letters : ∀ {name : List Char}, Reader.IsName name → ∀ c ∈ name, isPathChar c = true := by
    intro name isName c inside
    simp [isPathChar, isName.2 c inside]
  -- The names and the dots between them are made of characters of paths.
  induction qualified with
  | name isName => exact ⟨isName.1, letters isName⟩
  | dotted _ isName ih =>
    have isDot : isPathChar '.' = true := by decide
    refine ⟨by simp, List.forall_mem_append.mpr ⟨ih.letters, ?_⟩⟩
    exact List.forall_mem_cons.mpr ⟨isDot, letters isName⟩

/-- The last part of a path is a name. -/
theorem IsQualified.isName_afterLastDot {path : List Char} (qualified : IsQualified path) :
    Reader.IsName (afterLastDot path) := by
  have noDot : ∀ {name : List Char}, Reader.IsName name → '.' ∉ name := fun isName =>
    notMem_of_class isName.2 (by decide)
  -- Only the last name counts, so there is nothing to show for the path before it.
  cases qualified with
  | name isName =>
    rw [afterLastDot_of_noDot (noDot isName)]
    exact isName
  | dotted _ isName =>
    rw [afterLastDot_append_cons _ (noDot isName)]
    exact isName

/-- A list of references holds `count` of them. -/
def ListsReferences (count : Nat) (text : List Char) : Prop :=
  ∃ paths, Reader.References paths text ∧ (∀ path ∈ paths, IsQualified path) ∧ paths.length = count

/-- No reference of a list is left out, since the last part of each path is a name. -/
theorem simpleNames_qualified {paths : List (List Char)} {text : List Char}
    (references : Reader.References paths text) (qualified : ∀ path ∈ paths, IsQualified path) :
    simpleNames text = paths.map afterLastDot := by
  obtain ⟨path, more, one, further, rfl, rfl, reference, others⟩ := references
  rw [simpleNames_references reference others, List.filter_eq_self]
  -- Only empty names would be left out.
  intro name member
  obtain ⟨path, listed, rfl⟩ := List.mem_map.mp member
  simpa using (qualified path listed).isName_afterLastDot.1

namespace Reader

open Lineage.Text.Reader

/-- Nothing of type arguments stands outside of their brackets. -/
theorem reads_arguments : Reads arguments fun _ taken => Angled 3 taken [] := by
  refine .bind .char ?_
  rintro _ _ ⟨c, isAngle, rfl⟩
  obtain rfl : c = '<' := by simpa using isAngle
  -- Behind the first bracket the arguments end where the brackets close.
  intro place read member
  obtain ⟨after, closed, rfl⟩ := List.mem_map.mp member
  obtain ⟨taken, took, closing⟩ := took_closeAngles? (Option.mem_toList.mp closed)
  exact ⟨taken, took, closing.angled⟩

/-- What is read as type arguments that may be missing is such. -/
theorem reads_someArguments : Reads someArguments fun _ taken => IsArguments taken := by
  have present : Reads (do blanks; arguments : Text.Reader Unit) fun _ taken => IsArguments taken :=
    .bind .run fun _ blanks allBlank => reads_arguments.mono fun _ angles angled =>
      ⟨blanks, angles, rfl, allBlank, angled⟩
  refine .bind present.optional ?_
  -- Arguments that are absent take neither brackets nor the blanks before them.
  rintro _ taken (⟨_, _, isArguments⟩ | ⟨_, rfl⟩)
  · exact .pure (by rwa [List.append_nil])
  · exact .pure ⟨[], [], rfl, by simp, .nil⟩

/-- What is read as a path is a qualified name. -/
theorem reads_path : Reads path fun _ taken => IsQualified taken := by
  have step : Reads (do char (· == '.'); run1 isNameChar : Text.Reader Unit) fun _ taken =>
      ∃ name, IsName name ∧ taken = '.' :: name := by
    refine .bind .char ?_
    rintro _ _ ⟨c, isDot, rfl⟩
    obtain rfl : c = '.' := by simpa using isDot
    exact Reads.run1.mono fun _ name isName => ⟨name, isName, rfl⟩
  -- Each round of the loop makes the path that stands before it longer by a name.
  have row : ∀ {path : List Char} {values : List Unit} {parts : List (List Char)},
      List.Forall₂ (fun _ part => ∃ name, IsName name ∧ part = '.' :: name) values parts →
        IsQualified path →
      IsQualified (path ++ parts.flatten) := by
    intro path values parts steps
    induction steps generalizing path with
    | nil => simp
    | cons here _ ih =>
      obtain ⟨name, isName, rfl⟩ := here
      intro qualified
      rw [List.flatten_cons, ← List.append_assoc]
      exact ih (.dotted qualified isName)
  refine .bind .run1 fun _ first isName => .bind step.many ?_
  rintro _ _ ⟨parts, rfl, steps⟩
  refine .pure ?_
  rw [List.append_nil]
  exact row steps (.name isName)

/-- What is read as a reference has a qualified name for its path. -/
theorem reads_reference :
    Reads reference fun _ taken => ∃ path, IsQualified path ∧ Reference path taken := by
  refine .bind reads_path fun _ path qualified => reads_someArguments.mono ?_
  rintro _ _ ⟨blanks, angles, rfl, allBlank, angled⟩
  exact ⟨path, qualified, blanks, angles, rfl, qualified.isPath, allBlank, angled⟩

/-- What is read as a further reference has a qualified name for its path. -/
theorem reads_nextReference :
    Reads nextReference fun _ taken => ∃ path, IsQualified path ∧ NextReference path taken := by
  refine .bind .run fun _ front frontBlank => .bind .char ?_
  rintro _ _ ⟨c, isComma, rfl⟩
  obtain rfl : c = ',' := by simpa using isComma
  refine .bind .run fun _ back backBlank => reads_reference.mono ?_
  rintro _ one ⟨path, qualified, reference⟩
  exact ⟨path, qualified, front, back, one, rfl, frontBlank, backBlank, reference⟩

/-- What is read as references has qualified names for its paths. -/
theorem reads_references :
    Reads references fun _ taken => ∃ paths, References paths taken ∧
      ∀ path ∈ paths, IsQualified path := by
  -- Each round of the loop reads one reference, so the rounds make up the references behind the
  -- first one.
  have row : ∀ {values : List Unit} {parts : List (List Char)},
      List.Forall₂ (fun _ part => ∃ path, IsQualified path ∧ NextReference path part) values parts →
      ∃ paths, FurtherReferences paths parts.flatten ∧ ∀ path ∈ paths, IsQualified path := by
    intro values parts steps
    induction steps with
    | nil => exact ⟨[], .none, by simp⟩
    | cons here _ ih =>
      obtain ⟨path, qualified, next⟩ := here
      obtain ⟨paths, further, allQualified⟩ := ih
      exact ⟨path :: paths, next.more further, List.forall_mem_cons.mpr ⟨qualified, allQualified⟩⟩
  refine .bind reads_reference ?_
  rintro _ one ⟨path, qualified, reference⟩
  refine .bind reads_nextReference.many ?_
  rintro _ _ ⟨parts, rfl, steps⟩
  obtain ⟨paths, further, allQualified⟩ := row steps
  refine .pure ⟨path :: paths, ?_, List.forall_mem_cons.mpr ⟨qualified, allQualified⟩⟩
  exact ⟨path, paths, one, parts.flatten, rfl, by rw [List.append_nil], reference, further⟩

/-- What a clause keeps is what its content took. -/
theorem reads_clause {word : List Char} {content : Text.Reader Unit} {P : List Char → Prop}
    (reads : Reads content fun _ taken => P taken) :
    Reads (clause word content) fun value _ => ∀ excerpt ∈ value, P excerpt.text := by
  have present : Reads (do blanks1; literal word; blanks1; stretch content : Text.Reader Excerpt)
      fun excerpt _ =>
        P excerpt.text := by
    refine .bind .run1 fun _ _ _ => .bind (.literal word) fun _ _ _ => .bind .run1 fun _ _ _ =>
      reads.stretch.mono ?_
    rintro excerpt _ ⟨rfl, _, fits⟩
    exact fits
  -- A clause that is absent keeps nothing.
  refine present.optional.mono ?_
  rintro _ _ (⟨excerpt, rfl, fits⟩ | ⟨rfl, _⟩)
  · rintro _ ⟨⟩
    exact fits
  · rintro _ ⟨⟩

/-- What is announced has a name. -/
theorem reads_announcement (kind : Kind) :
    Reads (announcement kind anyName) fun announced _ => IsName announced.2.text := by
  rintro ⟨offset, before, text⟩ ⟨⟨values, excerpt⟩, after⟩ member
  obtain ⟨_, spelled, named, rest, rfl, _, isName, _, rfl, rfl⟩ :=
    (mem_announcement spells_anyName).mp member
  refine ⟨spelled, Took.beyond offset before spelled rest, ?_⟩
  have isText : Excerpt.text ⟨named ++ rest, named.length⟩ = named := List.take_left
  show IsName (Excerpt.text _)
  rw [isText]
  exact isName

/-- What a header gives: a name, perhaps a reference to a superclass, and perhaps a list of
references. -/
structure Gives (name : Excerpt) (superclass interfaces : Option Excerpt) : Prop where
  name : IsName name.text
  superclass : ∀ one ∈ superclass, ∃ path, IsQualified path ∧ Reference path one.text
  interfaces : ∀ list ∈ interfaces, ∃ paths, References paths list.text ∧
    ∀ path ∈ paths, IsQualified path

/-- A class header gives names for the class, its superclass and its interfaces. -/
theorem reads_classHeader :
    Reads (classHeader anyName) fun header _ =>
      Gives header.name header.superclass header.interfaces := by
  -- Behind the name only the two clauses are kept.
  rw [classHeader_eq]
  exact .bind (reads_announcement .plainClass) fun _ _ isName =>
    .bind reads_someArguments fun _ _ _ =>
    .bind (reads_clause reads_reference) fun _ _ extended =>
      .bind (reads_clause reads_references) fun _ _ listed =>
      .pure ⟨isName, extended, listed⟩

/-- An interface header gives names for the interface and what it extends. -/
theorem reads_interfaceHeader :
    Reads (interfaceHeader anyName) fun header _ => Gives header.name none header.interfaces := by
  rw [interfaceHeader_eq]
  exact .bind (reads_announcement .interface) fun _ _ isName =>
    .bind reads_someArguments fun _ _ _ =>
    .bind (reads_clause reads_references) fun _ _ listed => .pure ⟨isName, by simp, listed⟩

end Reader

/-- A name with nothing around it and nothing in front of it: characters of names, and no sign that
sets names apart. -/
structure IsSimple (name : String) : Prop where
  nonempty : name.toList ≠ []
  letters : ∀ c ∈ name.toList, isNameChar c = true
  noSign : ∀ c ∈ name.toList, isBlank c = false ∧ c ∉ ['.', ',', '<', '>']

/-- A name is simple. -/
theorem Reader.IsName.isSimple {name : List Char} (isName : IsName name) :
    IsSimple (String.ofList name) := by
  -- What is said of a name as characters is said of it as a string.
  rw [← String.toList_ofList (l := name)] at isName
  refine ⟨isName.1, isName.2, fun c inside =>
    ⟨isBlank_of_isNameChar (isName.2 c inside), fun isSign => ?_⟩⟩
  -- None of the signs is a character of names.
  have signs : ∀ d ∈ ['.', ',', '<', '>'], isNameChar d = false := by decide
  exact ne_of_class (isName.2 c inside) (signs c isSign) rfl

end Lineage.Java

namespace Lineage

/-- Every declaration can be made from what it consists of. -/
theorem Declaration.make_self (declaration : Declaration) :
    Declaration.make declaration.name declaration.kind.label declaration.superclass
      declaration.interfaces declaration.methods declaration.sourceFile = .ok declaration := by
  -- Both reasons for a fault are out of the question: the kind is known, and an interface has no
  -- superclass.
  have known : Kind.ofLabel? declaration.kind.label = some declaration.kind := by
    cases declaration.kind <;> decide
  rw [Declaration.make, known]
  exact dif_pos declaration.superless

/-- A declaration that names types by simple names, gives an interface no superclass and is not
refused when it is made. -/
structure Declaration.WellFormed (declaration : Declaration) : Prop where
  name : Java.IsSimple declaration.name
  superclass : ∀ name ∈ declaration.superclass, Java.IsSimple name
  interfaces : ∀ name ∈ declaration.interfaces, Java.IsSimple name
  superless : declaration.kind = .interface → declaration.superclass = none
  accepted : Declaration.make declaration.name declaration.kind.label declaration.superclass
    declaration.interfaces declaration.methods declaration.sourceFile = .ok declaration

end Lineage

namespace Lineage.Java

open Lineage.Text

/-- The header that a declaration of a text comes from, and the list of interfaces in it. -/
inductive Scanned (text : List Char) : Declaration → Option Excerpt → Prop where
  | ofClass {found : Reader.Found ClassHeader} : found ∈
      (Reader.classHeader Reader.anyName).all text →
    Scanned text found.value.declaration found.value.interfaces
  | ofInterface {found : Reader.Found InterfaceHeader} : found ∈
      (Reader.interfaceHeader Reader.anyName).all text →
    Scanned text found.value.declaration found.value.interfaces

/-- The declarations in a text are those that are scanned in it. -/
theorem mem_declarationsIn {text : List Char} {declaration : Declaration} :
    declaration ∈ declarationsIn text ↔ ∃ list, Scanned text declaration list := by
  -- Merging the two scans neither adds nor drops a declaration.
  simp only [declarationsIn, classesIn, interfacesIn, List.mem_map, List.mem_merge]
  constructor
  · rintro ⟨_, ⟨found, member, rfl⟩ | ⟨found, member, rfl⟩, rfl⟩
    · exact ⟨_, .ofClass member⟩
    · exact ⟨_, .ofInterface member⟩
  · rintro ⟨_, @⟨found, member⟩ | @⟨found, member⟩⟩
    · exact ⟨_, Or.inl ⟨found, member, rfl⟩, rfl⟩
    · exact ⟨_, Or.inr ⟨found, member, rfl⟩, rfl⟩

/-- There is one name for each reference in a list. The references of a list can be counted in one
way only. -/
def OneForEach (names : List String) : Option Excerpt → Prop
  | none => names = []
  | some list => ∀ count, ListsReferences count list.text ↔ names.length = count

namespace Reader.Gives

variable {name : Excerpt} {superclass interfaces : Option Excerpt}

/-- What is left of the reference to a superclass is a simple name. -/
theorem isSimple_superclass (gives : Gives name superclass interfaces) :
    ∀ one ∈ (superclass.map fun reference => simpleName reference.text).bind fun name =>
      if name.isEmpty then none else some (String.ofList name), IsSimple one := by
  -- The superclass is the last name of a qualified one, so it is not empty.
  intro one member
  obtain ⟨_, isSimpleName, isOne⟩ := Option.bind_eq_some_iff.mp member
  obtain ⟨reference, given, rfl⟩ := Option.map_eq_some_iff.mp isSimpleName
  obtain ⟨path, qualified, isReference⟩ := gives.superclass reference given
  have isName : IsName (simpleName reference.text) :=
    isReference.simpleName_text ▸ qualified.isName_afterLastDot
  rw [if_neg (by simpa using isName.1), Option.some.injEq] at isOne
  exact isOne ▸ isName.isSimple

/-- What is left of the references in a list are simple names. -/
theorem isSimple_namesIn (gives : Gives name superclass interfaces) :
    ∀ one ∈ namesIn interfaces, IsSimple one := by
  -- The interfaces are the last names of qualified ones.
  cases interfaces with
  | none =>
    have noName : namesIn none = [] := by decide
    simp [noName]
  | some list =>
    obtain ⟨paths, references, qualified⟩ := gives.interfaces list rfl
    have names : simpleNames list.text = paths.map afterLastDot :=
      simpleNames_qualified references qualified
    intro one member
    simp only [namesIn, Option.elim_some, names, List.map_map, List.mem_map] at member
    obtain ⟨path, listed, rfl⟩ := member
    exact (qualified path listed).isName_afterLastDot.isSimple

/-- Each reference in a clause gives one interface. -/
theorem oneForEach_namesIn (gives : Gives name superclass interfaces) :
    OneForEach (namesIn interfaces) interfaces := by
  cases interfaces with
  | none =>
    show namesIn none = []
    decide
  | some list =>
    obtain ⟨paths, references, qualified⟩ := gives.interfaces list rfl
    -- However the references are counted, each of them gives one name.
    have length : ∀ {paths}, References paths list.text → (∀ path ∈ paths, IsQualified path) →
        (namesIn (some list)).length = paths.length := by
      intro paths references qualified
      simp [namesIn, simpleNames_qualified references qualified]
    intro count
    constructor
    · rintro ⟨paths, references, qualified, rfl⟩
      exact length references qualified
    · rintro rfl
      exact ⟨paths, references, qualified, (length references qualified).symm⟩

end Reader.Gives

/-- What is scanned is well formed. -/
theorem Scanned.wellFormed {text : List Char} {declaration : Declaration} {list : Option Excerpt}
    (scanned : Scanned text declaration list) : declaration.WellFormed := by
  cases scanned with
  | ofClass member =>
    obtain ⟨_, gives⟩ := Reader.reads_classHeader.of_mem_all member
    exact ⟨gives.name.isSimple, gives.isSimple_superclass, gives.isSimple_namesIn,
      Declaration.superless _, Declaration.make_self _⟩
  | ofInterface member =>
    obtain ⟨_, gives⟩ := Reader.reads_interfaceHeader.of_mem_all member
    exact ⟨gives.name.isSimple, gives.isSimple_superclass, gives.isSimple_namesIn,
      Declaration.superless _, Declaration.make_self _⟩

/-- What is scanned has one interface for each reference of its clause. -/
theorem Scanned.oneForEach {text : List Char} {declaration : Declaration} {list : Option Excerpt}
    (scanned : Scanned text declaration list) : OneForEach declaration.interfaces list := by
  cases scanned with
  | ofClass member =>
    obtain ⟨_, gives⟩ := Reader.reads_classHeader.of_mem_all member
    exact gives.oneForEach_namesIn
  | ofInterface member =>
    obtain ⟨_, gives⟩ := Reader.reads_interfaceHeader.of_mem_all member
    exact gives.oneForEach_namesIn

/-- Every declaration in a text has a name. -/
theorem named_of_mem_declarationsIn {text : List Char} {declaration : Declaration}
    (member : declaration ∈ declarationsIn text) :
    declaration.name.toList ≠ [] ∧ ∀ c ∈ declaration.name.toList, isNameChar c = true := by
  obtain ⟨_, scanned⟩ := mem_declarationsIn.mp member
  exact ⟨scanned.wellFormed.name.nonempty, scanned.wellFormed.name.letters⟩

/-- Whatever the text, its declarations are well formed. Each comes from a header, and it has one
interface for each reference in the list of that header. -/
theorem declarationsIn_wellFormed (text : List Char) : ∀ declaration ∈ declarationsIn text,
    declaration.WellFormed ∧ (∃ list, Scanned text declaration list) ∧
      ∀ list, Scanned text declaration list → OneForEach declaration.interfaces list := by
  intro declaration member
  obtain ⟨list, scanned⟩ := mem_declarationsIn.mp member
  exact ⟨scanned.wellFormed, ⟨list, scanned⟩, fun _ other => other.oneForEach⟩

/-- A header in which commas stand outside of brackets and within them. -/
def commaHeader : List Char :=
  "class Box<T> extends a.Base<T> implements java.util.Map<K, V>, C \x7b".toList

/-- A comma between type arguments sets no references apart. -/
theorem declarationsIn_commaHeader :
    ∃ declaration ∈ declarationsIn commaHeader,
      (declaration.name, declaration.superclass, declaration.interfaces) =
      ("Box", some "Base", ["Map", "C"]) ∧
      declaration.WellFormed ∧ ∃ list, Scanned commaHeader declaration
        (some list) ∧ ListsReferences 2 list.text := by
  have noInterface : interfacesIn commaHeader = [] := by decide +kernel
  have found : (declarationsIn commaHeader).map
      (fun declaration => (declaration.name, declaration.superclass, declaration.interfaces)) =
        [("Box", some "Base", ["Map", "C"])] := by
    rw [declarationsIn, noInterface, List.merge_right]
    decide +kernel
  obtain ⟨declaration, isOnly, isBox⟩ := List.map_eq_singleton_iff.mp found
  have member : declaration ∈ declarationsIn commaHeader := isOnly ▸ List.mem_singleton_self _
  obtain ⟨wellFormed, ⟨list, scanned⟩, counted⟩ := declarationsIn_wellFormed _ declaration member
  have interfaces : declaration.interfaces = ["Map", "C"] := congrArg (·.2.2) isBox
  have each := counted list scanned
  rw [interfaces] at each
  -- There is a list, since there are interfaces, and its references can only be counted as two.
  cases list with
  | none => cases each
  | some list => exact ⟨declaration, member, isBox, wellFormed, list, scanned, (each 2).mpr rfl⟩

end Lineage.Java
