import Lineage.Proofs.Java.Grammar.Scan
import Lineage.Proofs.Text.Confined

/-! Headers do not reach across braces and semicolons, so that a text may be scanned in parts. -/

namespace Lineage.Java

open Lineage.Text

/-- Braces and semicolons. -/
def isBoundary (c : Char) : Bool :=
  c == '{' || c == '}' || c == ';'

/-- Characters behind which no header begins. -/
def barsHeader (c : Char) : Bool :=
  isNameChar c || c == '.' || c == '@'

/-- A class of characters without braces and semicolons has no boundary in it. -/
theorem isBoundary_of_class {p : Char → Bool}
    (outside : p '{' = false ∧ p '}' = false ∧ p ';' = false) {c : Char} (fits : p c = true) :
    isBoundary c = false := by
  have notOpen : c ≠ '{' := ne_of_class fits outside.1
  have notClose : c ≠ '}' := ne_of_class fits outside.2.1
  have notEnd : c ≠ ';' := ne_of_class fits outside.2.2
  simp [isBoundary, notOpen, notClose, notEnd]

theorem isBoundary_of_isNameChar {c : Char} (fits : isNameChar c = true) : isBoundary c = false :=
  isBoundary_of_class (by decide) fits

theorem isBoundary_of_isBlank {c : Char} (fits : isBlank c = true) : isBoundary c = false :=
  isBoundary_of_class (by decide) fits

theorem isBoundary_of_beq {c d : Char} (outside : isBoundary d = false) (fits : (c == d) = true) :
    isBoundary c = false := by
  rwa [beq_iff_eq.mp fits]

/-- A header may begin behind a brace or a semicolon. -/
theorem barsHeader_of_isBoundary {c : Char} (fits : isBoundary c = true) :
    barsHeader c = false := by
  simp only [isBoundary, Bool.or_eq_true, beq_iff_eq] at fits
  rcases fits with (rfl | rfl) | rfl <;> decide

namespace Reader

open Lineage.Text.Reader

variable {α : Type}

/-- A reader that does not look beyond a brace or a semicolon. -/
def Enclosed (P : α → α → Prop) (reader : Text.Reader α) : Prop :=
  Confined isBoundary barsHeader P reader reader

theorem enclosed_blanks : Enclosed Eq blanks :=
  .run fun _ => isBoundary_of_isBlank

theorem enclosed_blanks1 : Enclosed Eq blanks1 :=
  .run1 fun _ => isBoundary_of_isBlank

theorem enclosed_anyName : Enclosed Eq anyName :=
  .run1 fun _ => isBoundary_of_isNameChar

/-- Brackets are closed behind the same stretch in texts that are the same up to a brace or a
semicolon. -/
theorem closeAngles?_sameUpTo {text text' : List Char} (same : SameUpTo isBoundary text text')
    (depth : Nat) (offset offset' : Nat) (before before' : Option Char) :
    Option.Rel (fun after after' => ∃ taken, Took ⟨offset, before, text⟩ taken after ∧
        Took ⟨offset', before', text'⟩ taken after' ∧ SameUpTo isBoundary after.rest after'.rest)
      (closeAngles? depth offset text) (closeAngles? depth offset' text') := by
  induction text generalizing text' depth offset offset' before before' with
  | nil =>
    cases same
    exact .none
  | cons c rest ih =>
    by_cases boundary : isBoundary c = true
    · -- The search for the closing bracket gives up here.
      obtain ⟨rest', rfl⟩ : ∃ rest', text' = c :: rest' := by cases same <;> exact ⟨_, rfl⟩
      have stops : ∀ offset rest, closeAngles? depth offset (c :: rest) = none := by
        intro offset rest
        have notOpen : c ≠ '<' := ne_of_class boundary (by decide)
        have notClose : c ≠ '>' := ne_of_class boundary (by decide)
        rw [closeAngles?.eq_def]
        dsimp only
        rw [if_neg (by simpa using notOpen), if_neg (by simpa using notClose)]
        exact if_pos boundary
      rw [stops, stops]
      exact .none
    · have inside : isBoundary c = false := by simpa using boundary
      obtain ⟨rest', rfl, further⟩ := same.tail inside
      have step : ∀ {after after' : Cursor} {taken : List Char},
        Took ⟨offset + 1, some c, rest⟩ taken after →
          Took ⟨offset' + 1, some c, rest'⟩ taken after' →
            Took ⟨offset, before, c :: rest⟩ (c :: taken) after ∧
            Took ⟨offset', before', c :: rest'⟩ (c :: taken) after' :=
        fun took took' => ⟨(Took.beyond offset before [c] rest).trans took,
          (Took.beyond offset' before' [c] rest').trans took'⟩
      -- What is taken behind this character is taken with it.
      have later : ∀ depth, Option.Rel
          (fun after after' => ∃ taken, Took ⟨offset, before, c :: rest⟩ taken after ∧
              Took ⟨offset', before', c :: rest'⟩ taken after' ∧
                SameUpTo isBoundary after.rest after'.rest)
            (closeAngles? depth (offset + 1) rest) (closeAngles? depth (offset' + 1) rest') := by
        intro depth
        have found := ih further depth (offset + 1) (offset' + 1) (some c) (some c)
        generalize closeAngles? depth (offset + 1) rest = stop at found ⊢
        generalize closeAngles? depth (offset' + 1) rest' = stop' at found ⊢
        cases found with
        | none => exact .none
        | some both =>
          obtain ⟨taken, took, took', ends⟩ := both
          exact .some ⟨c :: taken, (step took took').1, (step took took').2, ends⟩
      rw [closeAngles?.eq_def, closeAngles?.eq_def]
      dsimp only
      split
      · split
        · exact later _
        · exact .none
      · split
        · split
          · exact .some ⟨[c], Took.beyond offset before [c] rest,
              Took.beyond offset' before' [c] rest', further⟩
          · exact later _
        · split
          · exact .none
          · exact later _

/-- So do type arguments. -/
theorem enclosed_arguments : Enclosed Eq arguments := by
  -- The search for the closing bracket gives up at a boundary, on both sides alike.
  refine (Confined.char fun _ => isBoundary_of_beq (by decide)).bind fun _ _ _ => ?_
  intro place place' level
  have stops :=
    closeAngles?_sameUpTo level.rest 0 place.offset place'.offset place.before place'.before
  dsimp only
  generalize closeAngles? 0 place.offset place.rest = stop at stops ⊢
  generalize closeAngles? 0 place'.offset place'.rest = stop' at stops ⊢
  cases stops with
  | none => exact .nil
  | some both =>
    obtain ⟨taken, took, took', ends⟩ := both
    exact .cons ⟨taken, took, took', ends, rfl⟩ .nil

theorem enclosed_path : Enclosed Eq path :=
  enclosed_anyName.bind fun _ _ _ =>
    ((Confined.char fun _ => isBoundary_of_beq (by decide)).bind fun _ _ _ =>
      enclosed_anyName).many.bind fun _ _ _ => .pure rfl

theorem enclosed_someArguments : Enclosed Eq someArguments :=
  (enclosed_blanks.bind fun _ _ _ => enclosed_arguments).optional.bind fun _ _ _ => .pure rfl

theorem enclosed_reference : Enclosed Eq reference :=
  enclosed_path.bind fun _ _ _ => enclosed_someArguments

/-- So do references in a row. -/
theorem enclosed_references : Enclosed Eq references :=
  enclosed_reference.bind fun _ _ _ =>
    (enclosed_blanks.bind fun _ _ _ =>
      (Confined.char fun _ => isBoundary_of_beq (by decide)).bind fun _ _ _ =>
      enclosed_blanks.bind fun _ _ _ => enclosed_reference).many.bind fun _ _ _ => .pure rfl

/-- So does a clause, if what it holds does. -/
theorem enclosed_clause {word : List Char} (inside : ∀ c ∈ word, isBoundary c = false)
    {content : Text.Reader Unit} (enclosed : Enclosed Eq content) :
    Enclosed (Option.Rel fun one other => one.text = other.text) (clause word content) :=
  (enclosed_blanks1.bind fun _ _ _ => (Confined.literal inside).bind fun _ _ _ =>
    enclosed_blanks1.bind fun _ _ _ =>
    enclosed.stretch).optional

/-- So do modifiers. -/
theorem enclosed_modifiers {words : List (List Char)}
    (inside : ∀ word ∈ words, ∀ c ∈ word, isBoundary c = false) :
    Enclosed Eq (modifiers words) := by
  refine ((Confined.wordOf inside).bind fun word word' same => enclosed_blanks1.bind fun _ _ _ =>
    (.pure same : Confined isBoundary barsHeader Eq (pure word) (pure word'))).many.mono ?_
  intro values values' same
  rwa [List.forall₂_eq_eq_eq] at same

/-- Clauses with the same text name the same types. -/
theorem namesIn_of_rel {one other : Option Excerpt}
    (same : Option.Rel (fun one other => one.text = other.text) one other) :
    namesIn one = namesIn other := by
  cases same with
  | none => rfl
  | some same => simp only [namesIn, Option.elim_some, same]

/-- A class header is read without a look beyond a brace or a semicolon, as far as its declaration
goes. -/
theorem enclosed_classHeader :
    Enclosed (fun one other => one.declaration = other.declaration) (classHeader anyName) := by
  refine Confined.notAfter.bind fun _ _ _ => ?_
  refine (enclosed_modifiers (by decide)).bind fun modifiers _ sameModifiers => ?_
  subst sameModifiers
  refine (Confined.literal (by decide)).bind fun _ _ _ => enclosed_blanks1.bind fun _ _ _ => ?_
  refine enclosed_anyName.stretch.bind fun name name' sameName => ?_
  refine (Confined.notBefore isNameChar).bind fun _ _ _ =>
    enclosed_someArguments.bind fun _ _ _ => ?_
  refine (enclosed_clause (by decide) enclosed_reference).bind fun superclass superclass'
    sameSuper => ?_
  refine (enclosed_clause (by decide) enclosed_references).bind fun interfaces interfaces'
    sameInterfaces => ?_
  -- A declaration depends on the texts of the parts only.
  refine .pure ?_
  have superName : (superclass.map fun reference => simpleName reference.text) =
      superclass'.map fun reference => simpleName reference.text := by
    cases sameSuper with
    | none => rfl
    | some same => rw [Option.map_some, Option.map_some, same]
  simp only [ClassHeader.declaration, sameName, superName, namesIn_of_rel sameInterfaces]

/-- So does the header of an interface. -/
theorem enclosed_interfaceHeader :
    Enclosed (fun one other => one.declaration = other.declaration) (interfaceHeader anyName) := by
  refine Confined.notAfter.bind fun _ _ _ => ?_
  refine (enclosed_modifiers (by decide)).bind fun _ _ _ => ?_
  refine (Confined.literal (by decide)).bind fun _ _ _ => enclosed_blanks1.bind fun _ _ _ => ?_
  refine enclosed_anyName.stretch.bind fun name name' sameName => ?_
  refine (Confined.notBefore isNameChar).bind fun _ _ _ =>
    enclosed_someArguments.bind fun _ _ _ => ?_
  refine (enclosed_clause (by decide) enclosed_references).bind fun interfaces interfaces'
    sameInterfaces => ?_
  refine .pure ?_
  simp only [InterfaceHeader.declaration, sameName, namesIn_of_rel sameInterfaces]

end Reader

/-- A declaration whose header begins further on. -/
def Placed.moved (distance : Nat) (placed : Placed) : Placed :=
  ⟨distance + placed.start, placed.declaration⟩

/-- What a reader finds in a text, as declarations at their places. -/
def placedIn {α : Type} (reader : Text.Reader α) (declare : α → Declaration) (text : List Char) :
    List Placed :=
  (reader.all text).map fun found => ⟨found.start, declare found.value⟩

section Placing

variable {α : Type} {reader : Text.Reader α} {declare : α → Declaration}

/-- A declaration starts inside of the text. -/
theorem start_lt_of_mem_placedIn {text : List Char} {placed : Placed}
    (member : placed ∈ placedIn reader declare text) :
    placed.start < text.length := by
  obtain ⟨found, inText, rfl⟩ := List.mem_map.mp member
  have := (Text.Reader.bounds_of_mem_allFrom inText).2
  simp only
  omega

/-- A search for headers falls into two behind a brace or a semicolon. -/
theorem placedIn_append
    (enclosed : Reader.Enclosed (fun one other => declare one = declare other) reader)
    {text more : List Char} (ended : ∀ c ∈ text.getLast?, isBoundary c = true) :
    placedIn reader declare (text ++ more) =
      placedIn reader declare text ++
        (placedIn reader declare more).map (Placed.moved text.length) := by
  -- Findings that lie a distance apart are declarations that do.
  have sameRow : ∀ {row row' : List (Text.Reader.Found α)} {distance : Nat},
      List.Forall₂ (Text.Reader.SameFinding (fun one other => declare one = declare other) distance
        0) row row' →
      (row.map fun found => (⟨found.start, declare found.value⟩ : Placed)) =
        (row'.map fun found => ⟨found.start, declare found.value⟩).map (Placed.moved distance) := by
    intro row row' distance same
    rw [List.map_map, ← List.forall₂_eq_eq_eq, List.forall₂_map_left_iff,
      List.forall₂_map_right_iff]
    refine same.imp ?_
    rintro found found' ⟨start, declares⟩
    rw [Function.comp_apply, Placed.moved, declares, Nat.add_comm distance]
    exact congrArg (Placed.mk · _) start
  have level : (text.getLast?.or none).any barsHeader = (none : Option Char).any barsHeader := by
    cases last : text.getLast? with
    | none => rfl
    | some c => exact barsHeader_of_isBoundary (ended c last)
  obtain ⟨early, split, sameEarly⟩ :=
    @Text.Reader.Confined.allFrom_append _ _ _ _ _ _ _ enclosed text more (Or.inr ended)
    0 0 0 none none rfl (Nat.zero_le _)
  -- Behind the first part the search runs as it does from the front of the second.
  obtain ⟨late, splitLate, sameLate⟩ :=
    @Text.Reader.Confined.allFrom_append _ _ _ _ _ _ _ enclosed more [] (Or.inl rfl)
    text.length 0 0 (text.getLast?.or none) none level (Nat.zero_le _)
  rw [List.append_nil] at splitLate
  have stays : Placed.moved 0 = id := funext fun placed => by simp [Placed.moved]
  rw [placedIn, Text.Reader.all, split, Nat.zero_add, splitLate, List.map_append, sameRow sameEarly,
    stays, List.map_id]
  simp only [Text.Reader.allFrom, List.append_nil, sameRow sameLate]
  rfl

end Placing

/-- Rows of declarations merge part by part if all of the first parts begin before all of the second
ones. -/
theorem merge_append {early early' late late' : List Placed}
    (before : ∀ one ∈ early, ∀ other ∈ late', one.start < other.start)
    (before' : ∀ one ∈ early', ∀ other ∈ late, one.start < other.start) :
    (early ++ late).merge (early' ++ late') (fun one other => one.start ≤ other.start) =
      early.merge early' (fun one other => one.start ≤ other.start) ++
        late.merge late' (fun one other => one.start ≤ other.start) := by
  induction early generalizing early' with
  | nil =>
    induction early' with
    | nil => rw [List.nil_append, List.nil_append, List.nil_merge, List.nil_append]
    | cons other early' ih =>
      -- What is left of the first parts comes before the second part.
      have later := ih fun one member => before' one (List.mem_cons_of_mem other member)
      rw [List.nil_append, List.nil_merge] at later ⊢
      rw [List.cons_append, merge_cons (before' other List.mem_cons_self), later]
      rfl
  | cons one early ih =>
    have beforeRest : ∀ one ∈ early, ∀ other ∈ late', one.start < other.start :=
      fun one member => before one (List.mem_cons_of_mem _ member)
    induction early' with
    | nil =>
      have rest := ih beforeRest before'
      rw [List.nil_append, List.merge_right] at rest ⊢
      rw [List.cons_append, cons_merge (before one List.mem_cons_self), rest]
      rfl
    | cons other early' ihOther =>
      -- Whichever of the two comes first does so with and without the second parts.
      have laterOther := ihOther fun one member => before' one (List.mem_cons_of_mem other member)
      rw [List.cons_append, List.cons_append, List.cons_merge_cons, List.cons_merge_cons]
      split
      · exact congrArg (one :: ·) (ih beforeRest before')
      · exact congrArg (other :: ·) laterOther

/-- Scanning a text that is cut behind a brace or a semicolon comes to scanning its two parts. -/
theorem declarationsIn_append (text more : List Char)
    (ended : ∀ c ∈ text.getLast?, c = '{' ∨ c = '}' ∨ c = ';') :
    declarationsIn (text ++ more) = declarationsIn text ++ declarationsIn more := by
  have boundary : ∀ c ∈ text.getLast?, isBoundary c = true := by
    intro c isLast
    rcases ended c isLast with rfl | rfl | rfl <;> rfl
  have classes : classesIn (text ++ more) = classesIn text ++
    (classesIn more).map (Placed.moved text.length) :=
    placedIn_append Reader.enclosed_classHeader boundary
  have interfaces :
      interfacesIn (text ++ more) = interfacesIn text ++
        (interfacesIn more).map (Placed.moved text.length) :=
    placedIn_append Reader.enclosed_interfaceHeader boundary
  -- What is found in the first part begins before all that is found in the second.
  have apart : ∀ {start : Nat} {row : List Placed}, start < text.length →
      ∀ other ∈ row.map (Placed.moved text.length), start < other.start := by
    intro start row inside other member
    obtain ⟨placed, _, rfl⟩ := List.mem_map.mp member
    exact Nat.lt_of_lt_of_le inside (Nat.le_add_right _ _)
  have classesFirst : ∀ one ∈ classesIn text,
      ∀ other ∈ (interfacesIn more).map (Placed.moved text.length), one.start < other.start :=
      fun one member => apart (start_lt_of_mem_placedIn member)
  have interfacesFirst : ∀ one ∈ interfacesIn text,
      ∀ other ∈ (classesIn more).map (Placed.moved text.length), one.start < other.start :=
      fun one member => apart (start_lt_of_mem_placedIn member)
  rw [declarationsIn, classes, interfaces, merge_append classesFirst interfacesFirst,
    List.map_append, ← List.map_merge (fun one _ other _ => ?_), List.map_map]
  · rfl
  · simp [Placed.moved]

/-- A bracket that is open at a brace is not closed behind it, and the clause there belongs to
nothing. -/
theorem declarationsIn_append_brace :
    (∀ c ∈ "class A<T \x7b".toList.getLast?, c = '{' ∨ c = '}' ∨ c = ';') ∧
      (declarationsIn ("class A<T \x7b".toList ++ "> extends B \x7b interface C \x7b".toList)).map
        (fun declaration => (declaration.name, declaration.superclass)) =
          [("A", none), ("C", none)] := by
  have isLast : "class A<T \x7b".toList.getLast? = some '{' := by decide
  have ended : ∀ c ∈ "class A<T \x7b".toList.getLast?, c = '{' ∨ c = '}' ∨ c = ';' := by
    intro c isEnd
    rw [isLast, Option.mem_some] at isEnd
    exact Or.inl isEnd.symm
  have noInterface : interfacesIn "class A<T \x7b".toList = [] := by decide +kernel
  have noClass : classesIn "> extends B \x7b interface C \x7b".toList = [] := by decide +kernel
  refine ⟨ended, ?_⟩
  rw [declarationsIn_append _ _ ended, declarationsIn, declarationsIn, noInterface, noClass,
    List.merge_right, List.nil_merge]
  decide +kernel

end Lineage.Java
