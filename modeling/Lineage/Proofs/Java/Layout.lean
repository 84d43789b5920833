import Lineage.Java.Method
import Lineage.Java.Scan
import Lineage.Proofs.Java.Reference
import Lineage.Proofs.Java.Words
import Lineage.Proofs.Text.SearchAlike

/-! Headers and their layout: how long the blanks in a text are makes no difference to what is
declared in it. -/

namespace Lineage.Java

open Lineage.Text

variable {text text' : List Char}

namespace Reader

open Lineage.Text.Reader

/-- No character of a name is a blank. -/
theorem solid_isNameChar : Solid isNameChar :=
  fun _ => isNameChar_of_isBlank

/-- A single character that is no blank makes up a class without blanks. -/
theorem solid_beq {c : Char} (solid : isBlank c = false) : Solid (· == c) := by
  intro d blank
  have different : d ≠ c := ne_of_class blank solid
  simpa using different

/-- What closes the open brackets: for each of them a text in which all brackets are closed that are
opened in it, and the closing bracket. -/
inductive Closing : Nat → List Char → Prop where
  | last {inner lost : List Char} : Angled 2 inner lost → Closing 0 (inner ++ ['>'])
  | more {depth : Nat} {inner lost rest : List Char} : Angled (2 - (depth + 1)) inner lost →
    Closing depth rest →
    Closing (depth + 1) (inner ++ '>' :: rest)

variable {depth : Nat}

/-- A character that is no bracket may stand before what closes the open brackets. -/
theorem Closing.plain {c : Char} (closing : Closing depth text) (notOpen : c ≠ '<')
    (notClose : c ≠ '>') : Closing depth (c :: text) := by
  cases closing with
  | last angled => exact .last (.plain notOpen notClose angled)
  | more angled rest => exact .more (.plain notOpen notClose angled) rest

/-- An opening bracket and what closes it belong to what stands before the next closing bracket. -/
theorem Closing.nest (closing : Closing (depth + 1) text) (shallow : depth < 2) :
    Closing depth ('<' :: text) := by
  cases closing with
  | @more _ inner lost rest angled closingRest =>
    -- There is room for one more level in front of the next closing bracket.
    have nested : ∀ {before bare : List Char}, Angled (2 - depth) before bare →
        Angled (2 - depth) ('<' :: (inner ++ '>' :: before)) bare := by
      intro before bare angledBefore
      rw [show 2 - depth = 2 - (depth + 1) + 1 by omega] at angledBefore ⊢
      exact .nest angled angledBefore
    cases closingRest with
    | last angledRest => simpa using Closing.last (nested angledRest)
    | more angledRest closingRest => simpa using Closing.more (nested angledRest) closingRest

/-- The search for the bracket that closes the first one takes what closes all open ones. -/
theorem closeAngles?_closing {offset : Nat} {before : Option Char} {after : Cursor}
    (closed : closeAngles? depth offset text = some after) :
    ∃ taken rest, text = taken ++ rest ∧ Closing depth taken ∧
      after = .beyond offset before taken rest := by
  induction text generalizing depth offset before with
  | nil => cases closed
  | cons c text ih =>
    -- What is taken behind a character is taken with it.
    have behind : ∀ {deep : Nat}, closeAngles? deep (offset + 1) text = some after →
        ∃ taken rest, c :: text = c :: taken ++ rest ∧ Closing deep taken ∧
          after = .beyond offset before (c :: taken) rest := by
      intro deep closedDeep
      obtain ⟨taken, rest, rfl, closing, isAfter⟩ := @ih deep (offset + 1) (some c) closedDeep
      refine ⟨taken, rest, rfl, closing, ?_⟩
      rw [isAfter]
      exact Cursor.beyond_cons offset before c taken rest
    rw [closeAngles?.eq_def] at closed
    dsimp only at closed
    by_cases opens : c = '<'
    · -- An opening bracket is followed only if it is not too deep.
      subst opens
      by_cases shallow : depth < 2
      · simp only [beq_self_eq_true, if_true, shallow] at closed
        obtain ⟨taken, rest, split, closing, isAfter⟩ := behind closed
        exact ⟨_, rest, split, closing.nest shallow, isAfter⟩
      · simp [shallow] at closed
    · by_cases closes : c = '>'
      · -- A closing bracket ends the search or closes one that was opened on the way.
        subst closes
        cases depth with
        | zero =>
          obtain rfl : ⟨offset + 1, some '>', text⟩ = after := by simpa using closed
          exact ⟨['>'], text, rfl, .last .nil, rfl⟩
        | succ depth =>
          obtain ⟨taken, rest, split, closing, isAfter⟩ := behind (by simpa using closed)
          exact ⟨_, rest, split, .more .nil closing, isAfter⟩
      · by_cases ends : (c == '{' || c == '}' || c == ';') = true
        · simp [opens, closes, ends] at closed
        · obtain ⟨taken, rest, split, closing, isAfter⟩ :=
            behind (by simpa [opens, closes, ends] using closed)
          exact ⟨_, rest, split, closing.plain opens closes, isAfter⟩

/-- What is passed up to the closing bracket closes it. -/
theorem took_closeAngles? {place after : Cursor}
    (closed : closeAngles? 0 place.offset place.rest = some after) :
    ∃ taken, Took place taken after ∧ Closing 0 taken := by
  obtain ⟨taken, rest, split, closing, rfl⟩ :=
    @closeAngles?_closing place.rest 0 place.offset place.before after closed
  exact ⟨taken, ⟨split, rfl⟩, closing⟩

/-- An opening bracket and what closes it leave nothing outside. -/
theorem Closing.angled {taken : List Char} (closing : Closing 0 taken) :
    Angled 3 ('<' :: taken) [] := by
  cases closing with
  | last angled => exact .nest angled .nil

variable {R : List Char → List Char → Prop}

/-- The search for a closing bracket passes over blanks. -/
theorem closeAngles?_blanks {run : List Char} (allBlank : ∀ c ∈ run, isBlank c = true)
    (depth offset : Nat) (rest : List Char) :
    closeAngles? depth offset (run ++ rest) = closeAngles? depth (offset + run.length) rest := by
  -- A blank is neither a bracket nor an end, so each of them is passed.
  induction run generalizing offset with
  | nil => rfl
  | cons c run ih =>
    have blank := allBlank c List.mem_cons_self
    have notAngle : c ≠ '<' := ne_of_class blank (by decide)
    have notClose : c ≠ '>' := ne_of_class blank (by decide)
    have notEnd : (c == '{' || c == '}' || c == ';') = false := by
      have : c ≠ '{' := ne_of_class blank (by decide)
      have : c ≠ '}' := ne_of_class blank (by decide)
      have : c ≠ ';' := ne_of_class blank (by decide)
      simp [*]
    have later := ih (fun d inside => allBlank d (List.mem_cons_of_mem c inside)) (offset + 1)
    rw [List.cons_append, closeAngles?.eq_def]
    dsimp only
    rw [if_neg (by simpa using notAngle), if_neg (by simpa using notClose),
      if_neg (by simpa using notEnd), later, List.length_cons, Nat.add_assoc, Nat.add_comm 1]

/-- Brackets are closed at level places of texts that look alike. -/
theorem closeAngles?_level (relayout : Relayout R) (depth offset offset' : Nat)
    (alike : R text text') :
    Option.Rel (Abreast R) (closeAngles? depth offset text) (closeAngles? depth offset' text') := by
  -- A run of blanks is passed in one step.
  induction sized : text.length using Nat.strongRecOn
    generalizing text text' depth offset offset' with
  | ind length ih =>
    subst sized
    cases text with
    | nil =>
      rw [relayout.nil alike]
      exact .none
    | cons c rest =>
      by_cases blank : isBlank c = true
      · obtain ⟨d, rest', rfl, blank', alikeRest⟩ := relayout.blank blank alike
        obtain ⟨run, split, all, _⟩ := Parallel.took_blanks blank offset none rest
        obtain ⟨run', split', all', _⟩ := Parallel.took_blanks blank' offset' none rest'
        have shorter : (trimStart rest).length < (c :: rest).length :=
          Nat.lt_succ_of_le (length_trimStart_le rest)
        rw [split, split', ← List.cons_append, ← List.cons_append, closeAngles?_blanks all,
          closeAngles?_blanks all']
        exact ih _ shorter _ _ _ alikeRest rfl
      · have solid : isBlank c = false := by simpa using blank
        obtain ⟨rest', rfl, alikeRest⟩ := relayout.solid solid alike
        have later := fun depth => ih _ (by simp) depth (offset + 1) (offset' + 1) alikeRest rfl
        -- The same character is in both texts, so the search does the same in both.
        rw [closeAngles?.eq_def, closeAngles?.eq_def]
        dsimp only
        split
        · split
          · exact later _
          · exact .none
        · split
          · split
            · exact .some (abreast_of_solid solid alikeRest)
            · exact later _
          · split
            · exact .none
            · exact later _

theorem begins_arguments : Begins arguments (· == '<') :=
  (Begins.char fun _ same => same).bind _

theorem solid_angle : Solid (· == '<') :=
  solid_beq (by decide)

/-- Type arguments end with a bracket, and so never within blanks. -/
theorem endsWhole_arguments : EndsWhole arguments := by
  refine .bind ((EndsWhole.char solid_angle).cleared _) fun _ place _ read member => ?_
  obtain ⟨after, closed, rfl⟩ := List.mem_map.mp member
  -- Every text looks like itself, so the place behind the brackets is level with itself.
  have level :=
    closeAngles?_level relayout_squeezed 0 place.offset place.offset (rfl : squeezed place.rest = _)
  rw [Option.mem_toList.mp closed] at level
  cases level with
  | some level => exact level.whole

/-- Type arguments end alike in texts that look alike, and nothing of them stands outside of their
brackets. -/
theorem parallel_arguments (relayout : Relayout R) :
    Parallel R (fun _ taken _ taken' => Angled 3 taken [] ∧ Angled 3 taken' []) arguments
      arguments := by
  have cleared := (EndsWhole.char solid_angle).cleared
    fun _ place => (closeAngles? 0 place.offset place.rest).toList.map fun after => ((), after)
  refine (Parallel.char relayout solid_angle).bind cleared cleared ?_
  rintro _ _ _ _ ⟨c, isAngle, rfl, rfl⟩
  obtain rfl : c = '<' := by simpa using isAngle
  intro place place' level
  have stops := closeAngles?_level relayout 0 place.offset place'.offset level.rest
  unfold settled
  dsimp only
  -- The search has one result at most in either text.
  generalize closed : closeAngles? 0 place.offset place.rest = stop at stops ⊢
  generalize closed' : closeAngles? 0 place'.offset place'.rest = stop' at stops ⊢
  cases stops with
  | none => exact .nil
  | some ends =>
    obtain ⟨taken, tookTaken, closing⟩ := took_closeAngles? closed
    obtain ⟨taken', tookTaken', closing'⟩ := took_closeAngles? closed'
    simp only [Option.toList_some, List.map_cons, List.map_nil, List.filter_cons, ends.whole,
      ends.whole']
    exact .cons ⟨taken, taken', tookTaken, tookTaken', ends, closing.angled, closing'.angled⟩ .nil

theorem endsWhole_name : EndsWhole anyName :=
  .run1 solid_isNameChar

theorem solid_dot : Solid (· == '.') :=
  solid_beq (by decide)

/-- A further name of a path. -/
theorem endsWhole_pathStep : EndsWhole (do char (· == '.'); run1 isNameChar : Text.Reader Unit) :=
  .bind ((EndsWhole.char solid_dot).cleared _) fun _ => endsWhole_name

theorem endsWhole_path : EndsWhole path :=
  .bind (endsWhole_name.cleared _) fun _ => .bind (endsWhole_pathStep.many.cleared _) fun _ =>
    .pure ()

/-- A path is the same in texts that look alike. -/
theorem parallel_path (relayout : Relayout R) :
    Parallel R (fun _ taken _ taken' => taken = taken' ∧ IsPath taken) path path := by
  have cleared := (EndsWhole.char solid_dot).cleared fun _ => run1 isNameChar
  have isPathChar : ∀ {c : Char}, isNameChar c = true → isPathChar c = true := fun isName => by
    simp [Java.isPathChar, isName]
  have step :
      Parallel R (fun _ taken _ taken' =>
      taken = taken' ∧ taken ≠ [] ∧ ∀ c ∈ taken, Java.isPathChar c = true)
        (do char (· == '.'); run1 isNameChar : Text.Reader Unit)
        (do char (· == '.'); run1 isNameChar) := by
    refine (Parallel.char relayout solid_dot).bind cleared cleared ?_
    rintro _ _ _ _ ⟨c, isDot, rfl, rfl⟩
    refine (Parallel.run1 relayout solid_isNameChar).mono ?_
    rintro _ more _ more' ⟨rfl, _, named⟩
    have first : Java.isPathChar c = true := by simp [Java.isPathChar, isDot]
    exact ⟨rfl, by simp, by simpa [first] using fun d inside => isPathChar (named d inside)⟩
  -- Names behind dots are the same in both texts one by one, so all of them are.
  have row : ∀ {values values' : List Unit} {taken taken' : List Char},
      RowAlike (fun _ taken _ taken' =>
        taken = taken' ∧ taken ≠ [] ∧ ∀ c ∈ taken, Java.isPathChar c = true)
        values taken values' taken' → taken = taken' ∧ ∀ c ∈ taken, Java.isPathChar c = true := by
    intro values values' taken taken' alike
    induction alike with
    | nil => simp
    | cons here _ ih =>
      obtain ⟨rfl, _, letters⟩ := here
      obtain ⟨rfl, further⟩ := ih
      exact ⟨rfl, List.forall_mem_append.mpr ⟨letters, further⟩⟩
  refine (Parallel.run1 relayout solid_isNameChar).bind (endsWhole_name.cleared _)
    (endsWhole_name.cleared _) ?_
  rintro _ name _ _ ⟨rfl, nonempty, named⟩
  refine (step.many (endsWhole_pathStep.cleared _) (endsWhole_pathStep.cleared _)
    (by rintro _ _ _ _ ⟨rfl, nonempty, _⟩; exact ⟨nonempty, nonempty⟩)).bind
      (endsWhole_pathStep.many.cleared _)
    (endsWhole_pathStep.many.cleared _) ?_
  intro _ more _ more' alike
  obtain ⟨rfl, letters⟩ := row alike
  refine .pure ⟨rfl, ?_, ?_⟩
  · simp [nonempty]
  · rw [List.append_nil]
    exact List.forall_mem_append.mpr ⟨fun c inside => isPathChar (named c inside), letters⟩

/-- Blanks are read alike in both layouts. -/
theorem parallel_blanks (relayout : Relayout R) :
    Parallel R (fun _ taken _ taken' => (∀ c ∈ taken, isBlank c = true) ∧
      ∀ c ∈ taken', isBlank c = true) blanks
      blanks :=
  .spacedRun relayout fun _ blank => blank

theorem endsWhole_someArguments : EndsWhole someArguments :=
  .bind ((EndsWhole.optional (.bind (cleared_of_begins solid_angle blanks fun _ => begins_arguments)
    fun _ => endsWhole_arguments)).cleared _) fun _ => .pure ()

/-- Type arguments that may be absent, with blanks before them. -/
def IsArguments (text : List Char) : Prop :=
  ∃ blanks angles, text = blanks ++ angles ∧ (∀ c ∈ blanks, isBlank c = true) ∧ Angled 3 angles []

/-- Type arguments that may be missing are read alike in both layouts. -/
theorem parallel_someArguments (relayout : Relayout R) :
    Parallel R (fun _ taken _ taken' => IsArguments taken ∧ IsArguments taken') someArguments
      someArguments := by
  -- With blanks before the bracket they are there in both texts, and else in none.
  have cleared : Cleared blanks fun _ => arguments :=
    cleared_of_begins solid_angle blanks fun _ => begins_arguments
  have present : Parallel R (fun _ taken _ taken' => IsArguments taken ∧ IsArguments taken')
      (do blanks; arguments : Text.Reader Unit) (do blanks; arguments) := by
    refine (parallel_blanks relayout).bind cleared cleared ?_
    rintro _ taken _ taken' ⟨allBlank, allBlank'⟩
    refine (parallel_arguments relayout).mono ?_
    rintro _ angles _ angles' ⟨angled, angled'⟩
    exact ⟨⟨taken, angles, rfl, allBlank, angled⟩, taken', angles', rfl, allBlank', angled'⟩
  have whole := EndsWhole.optional (.bind cleared fun _ => endsWhole_arguments)
  have absent : IsArguments [] := ⟨[], [], rfl, by simp, .nil⟩
  refine present.optional.bind (whole.cleared _) (whole.cleared _) ?_
  rintro _ taken _ taken' (⟨_, _, _, _, isArguments, isArguments'⟩ | ⟨_, _, rfl, rfl⟩)
  · exact .pure ⟨by simpa using isArguments, by simpa using isArguments'⟩
  · exact .pure ⟨absent, absent⟩

theorem begins_reference : Begins reference isNameChar :=
  ((Begins.run1 fun _ isName => isName).bind _).bind _

theorem endsWhole_reference : EndsWhole reference :=
  .bind (endsWhole_path.cleared _) fun _ => endsWhole_someArguments

/-- References in texts that look alike have the same path. -/
theorem parallel_reference (relayout : Relayout R) :
    Parallel R (fun _ taken _ taken' => ∃ path, Reference path taken ∧ Reference path taken')
      reference reference := by
  -- The path is the same in both texts, and the arguments may differ in their blanks.
  refine (parallel_path relayout).bind (endsWhole_path.cleared _) (endsWhole_path.cleared _) ?_
  rintro _ path _ _ ⟨rfl, isPath⟩
  refine (parallel_someArguments relayout).mono ?_
  rintro _ taken _ taken' ⟨⟨blanks, angles, rfl, allBlank, angled⟩, blanks', angles', rfl,
    allBlank', angled'⟩
  exact ⟨path, ⟨blanks, angles, rfl, isPath, allBlank, angled⟩, blanks', angles', rfl, isPath,
    allBlank', angled'⟩

/-- One reference or more with commas between them, and the paths of all. -/
def References (paths : List (List Char)) (text : List Char) : Prop :=
  ∃ path more one further, paths = path :: more ∧ text = one ++ further ∧ Reference path one ∧
    FurtherReferences more further

theorem solid_comma : Solid (· == ',') :=
  solid_beq (by decide)

/-- A comma, with blanks around it, and the reference behind it. -/
def nextReference : Text.Reader Unit := do
  blanks
  char (· == ',')
  blanks
  reference

theorem cleared_comma :
    Cleared blanks fun _ => (do char (· == ','); blanks; reference : Text.Reader Unit) :=
  cleared_of_begins solid_comma blanks fun _ => (Begins.char fun _ same => same).bind _

theorem cleared_reference : Cleared blanks fun _ => reference :=
  cleared_of_begins solid_isNameChar blanks fun _ => begins_reference

theorem endsWhole_nextReference : EndsWhole nextReference :=
  .bind cleared_comma fun _ => .bind ((EndsWhole.char solid_comma).cleared _) fun _ =>
    .bind cleared_reference fun _ => endsWhole_reference

theorem endsWhole_references : EndsWhole references :=
  .bind (endsWhole_reference.cleared _) fun _ =>
    .bind (endsWhole_nextReference.many.cleared _) fun _ => .pure ()

/-- A reference behind a comma, as it is written. -/
def NextReference (path text : List Char) : Prop :=
  ∃ front back one, text = front ++ (',' :: (back ++ one)) ∧ (∀ c ∈ front, isBlank c = true) ∧
    (∀ c ∈ back, isBlank c = true) ∧ Reference path one

/-- A reference behind a comma comes before those that follow it. -/
theorem NextReference.more {path rest : List Char} {paths : List (List Char)}
    (next : NextReference path text) (further : FurtherReferences paths rest) :
    FurtherReferences (path :: paths) (text ++ rest) := by
  obtain ⟨front, back, one, rfl, frontBlank, backBlank, reference⟩ := next
  simpa using FurtherReferences.more frontBlank backBlank reference further

/-- A further reference is read alike in both layouts. -/
theorem parallel_nextReference (relayout : Relayout R) :
    Parallel R (fun _ taken _ taken' => ∃ path, NextReference path taken ∧
      NextReference path taken') nextReference
      nextReference := by
  -- Part by part: blanks, the comma, blanks and the reference.
  refine (parallel_blanks relayout).bind cleared_comma cleared_comma ?_
  rintro _ front _ front' ⟨frontBlank, frontBlank'⟩
  have cleared :=
    (EndsWhole.char solid_comma).cleared fun _ => (do blanks; reference : Text.Reader Unit)
  refine (Parallel.char relayout solid_comma).bind cleared cleared ?_
  rintro _ _ _ _ ⟨c, isComma, rfl, rfl⟩
  obtain rfl : c = ',' := by simpa using isComma
  refine (parallel_blanks relayout).bind cleared_reference cleared_reference ?_
  rintro _ back _ back' ⟨backBlank, backBlank'⟩
  refine (parallel_reference relayout).mono ?_
  rintro _ one _ one' ⟨path, reference, reference'⟩
  exact ⟨path, ⟨front, back, one, rfl, frontBlank, backBlank, reference⟩, front', back', one', rfl,
    frontBlank', backBlank', reference'⟩

/-- References that follow each other behind commas. -/
theorem furtherReferences_of_rowAlike {values values' : List Unit}
    (row : RowAlike (fun _ taken _ taken' => ∃ path, NextReference path taken ∧
      NextReference path taken') values text values' text') :
    ∃ paths, FurtherReferences paths text ∧ FurtherReferences paths text' := by
  -- Pair by pair, both name the same path.
  induction row with
  | nil => exact ⟨[], .none, .none⟩
  | cons here _ ih =>
    obtain ⟨path, next, next'⟩ := here
    obtain ⟨paths, further, further'⟩ := ih
    exact ⟨path :: paths, next.more further, next'.more further'⟩

/-- Lists of references in texts that look alike have the same paths. -/
theorem parallel_references (relayout : Relayout R) :
    Parallel R (fun _ taken _ taken' => ∃ paths, References paths taken ∧ References paths taken')
      references references := by
  -- The comma is there in any case.
  have progress : ∀ (value : Unit) taken (value' : Unit) taken',
      (∃ path, NextReference path taken ∧ NextReference path taken') →
        taken ≠ [] ∧ taken' ≠ [] := by
    rintro _ _ _ _ ⟨_, ⟨_, _, _, rfl, _⟩, _, _, _, rfl, _⟩
    simp
  have cleared : Cleared nextReference fun _ => nextReference := endsWhole_nextReference.cleared _
  refine (parallel_reference relayout).bind (endsWhole_reference.cleared _)
    (endsWhole_reference.cleared _) ?_
  rintro _ one _ one' ⟨path, reference, reference'⟩
  refine ((parallel_nextReference relayout).many cleared cleared progress).bind
    (endsWhole_nextReference.many.cleared _) (endsWhole_nextReference.many.cleared _) ?_
  intro _ further _ further' row
  obtain ⟨paths, isFurther, isFurther'⟩ := furtherReferences_of_rowAlike row
  refine .pure ⟨path :: paths, ?_, ?_⟩
  · exact ⟨path, paths, one, further, rfl, by simp, reference, isFurther⟩
  · exact ⟨path, paths, one', further', rfl, by simp, reference', isFurther'⟩

theorem parallel_blanks1 (relayout : Relayout R) :
    Parallel R (fun _ taken _ taken' => taken ≠ [] ∧ taken' ≠ []) blanks1 blanks1 :=
  (Parallel.blanks1 relayout).mono fun _ _ _ _ both => ⟨both.1.1, both.2.1⟩

/-- A word made of characters of names. -/
structure Lettered (word : List Char) : Prop where
  nonempty : word ≠ []
  letters : ∀ c ∈ word, isNameChar c = true

theorem Lettered.begins {word : List Char} (lettered : Lettered word) :
    Begins (literal word) isNameChar := by
  obtain ⟨c, more, rfl⟩ := List.exists_cons_of_ne_nil lettered.nonempty
  exact .literal (lettered.letters c List.mem_cons_self)

theorem Lettered.solid {word : List Char} (lettered : Lettered word) :
    ∀ c ∈ word, isBlank c = false :=
  fun c inside => isBlank_of_isNameChar (lettered.letters c inside)

theorem Lettered.endsWhole {word : List Char} (lettered : Lettered word) :
    EndsWhole (literal word) :=
  .literal lettered.solid

theorem lettered_keywordOf (kind : Kind) : Lettered (keywordOf kind) :=
  ⟨keywordOf_ne_nil kind, isNameChar_keywordOf kind⟩

theorem lettered_extends : Lettered "extends".toList :=
  ⟨by decide, by decide⟩

theorem lettered_implements : Lettered "implements".toList :=
  ⟨by decide, by decide⟩

section Clause

variable {word : List Char} {content : Text.Reader Unit}

/-- A clause ends like what it holds, or where it began. -/
theorem endsWhole_clause (lettered : Lettered word) (begins : Begins content isNameChar)
    (endsWhole : EndsWhole content) :
    EndsWhole (clause word content) :=
  -- All blanks in it stand before words, and so they are read to their end.
  .optional (.bind (cleared_of_begins solid_isNameChar _ fun _ => lettered.begins.bind _) fun _ =>
    .bind (lettered.endsWhole.cleared _) fun _ =>
      .bind (cleared_of_begins solid_isNameChar _ fun _ => begins.stretch) fun _ =>
        endsWhole.stretch)

/-- A clause is there in both of two texts that look alike or in neither. -/
theorem parallel_clause (relayout : Relayout R) (lettered : Lettered word)
    (begins : Begins content isNameChar) {S : List Char → List Char → Prop}
    (parallel : Parallel R (fun _ taken _ taken' => S taken taken') content content) :
    Parallel R (fun found _ found' _ =>
      Option.Rel (fun one one' => S one.text one'.text) found found')
      (clause word content) (clause word content) := by
  -- The blanks around the word may differ, and what the clause holds is read alike.
  have clearedWord : Cleared blanks1 fun _ =>
    (do literal word; blanks1; stretch content : Text.Reader Excerpt) :=
    cleared_of_begins solid_isNameChar _ fun _ => lettered.begins.bind _
  have clearedContent : Cleared blanks1 fun _ => stretch content :=
    cleared_of_begins solid_isNameChar _ fun _ => begins.stretch
  have present : Parallel R (fun one _ one' _ => S one.text one'.text)
      (do blanks1; literal word; blanks1; stretch content : Text.Reader Excerpt)
      (do blanks1; literal word; blanks1; stretch content) := by
    refine (parallel_blanks1 relayout).bind clearedWord clearedWord fun _ _ _ _ _ => ?_
    refine (Parallel.literal relayout lettered.solid).bind (lettered.endsWhole.cleared _)
      (lettered.endsWhole.cleared _) fun _ _ _ _ _ => ?_
    refine (parallel_blanks1 relayout).bind clearedContent clearedContent fun _ _ _ _ _ => ?_
    refine parallel.stretch.mono ?_
    rintro _ _ _ _ ⟨rfl, rfl, _, _, related⟩
    exact related
  refine present.optional.mono ?_
  rintro _ _ _ _ (⟨one, one', rfl, rfl, related⟩ | ⟨rfl, rfl, _, _⟩)
  · exact .some related
  · exact .none

end Clause

section Modifiers

variable {words : List (List Char)}

theorem AreModifiers.begins (areModifiers : AreModifiers words) :
    Begins (modifier words) isNameChar :=
  (Begins.wordOf areModifiers.begun).bind _

/-- The same modifiers stand in texts that look alike. -/
theorem AreModifiers.parallel (areModifiers : AreModifiers words) (relayout : Relayout R) :
    Parallel R (fun values _ values' _ => values = values') (modifiers words)
      (modifiers words) := by
  -- One modifier is read alike in both layouts, and so are modifiers in a row.
  have cleared : Cleared (modifier words) fun _ => modifier words :=
    cleared_of_begins solid_isNameChar _ fun _ => areModifiers.begins
  have endsWhole := EndsWhole.wordOf areModifiers.solid
  have one : Parallel R (fun word taken word' taken' => word = word' ∧ taken ≠ [] ∧ taken' ≠ [])
      (modifier words) (modifier words) := by
    refine (Parallel.wordOf relayout areModifiers.solid).bind (endsWhole.cleared _)
      (endsWhole.cleared _) ?_
    rintro word _ _ _ ⟨_, rfl, rfl, rfl⟩
    exact (parallel_blanks1 relayout).map fun _ _ _ _ both =>
      ⟨rfl, by simp [both.1], by simp [both.2]⟩
  refine (one.many cleared cleared fun _ _ _ _ both => both.2).mono ?_
  intro values _ values' _ row
  induction row with
  | nil => rfl
  | cons here _ ih => rw [here.1, ih]

end Modifiers

/-- What must not stand before a header is no blank. -/
theorem solid_headerStart : Solid fun c => isNameChar c || c == '.' || c == '@' := by
  intro c blank
  have notDot : c ≠ '.' := ne_of_class blank (by decide)
  have notAt : c ≠ '@' := ne_of_class blank (by decide)
  simp [isNameChar_of_isBlank blank, notDot, notAt]

theorem begins_anyName : Begins anyName isNameChar :=
  .run1 fun _ isName => isName

theorem begins_announcement (kind : Kind) : Begins (announcement kind anyName) isNameChar :=
  .behind (.ensure _) fun _ => .behind (.many (areModifiers_modifiersOf kind).begins) fun _ =>
    (lettered_keywordOf kind).begins.bind _

/-- The announcement of a type ends with the name of the type. -/
theorem endsWhole_announcement (kind : Kind) : EndsWhole (announcement kind anyName) :=
  .bind ((EndsWhole.ensure _).cleared _) fun _ =>
    .bind (cleared_of_begins solid_isNameChar _ fun _ =>
        (lettered_keywordOf kind).begins.bind _) fun _ =>
      .bind ((lettered_keywordOf kind).endsWhole.cleared _) fun _ =>
        .bind (cleared_of_begins solid_isNameChar _ fun _ => begins_anyName.stretch.bind _) fun _ =>
          .bind (endsWhole_name.stretch.cleared _) fun _ =>
            .bind ((EndsWhole.ensure _).cleared _) fun _ => .pure _

/-- Announcements in texts that look alike have the same modifiers and the same name. -/
theorem parallel_announcement (relayout : Relayout R) (kind : Kind) :
    Parallel R (fun announced taken announced' taken' => announced.1 = announced'.1 ∧
        announced.2.text = announced'.2.text ∧ taken ≠ [] ∧ taken' ≠ [])
      (announcement kind anyName) (announcement kind anyName) := by
  have lettered := lettered_keywordOf kind
  refine (Parallel.notAfter solid_headerStart).bind ((EndsWhole.ensure _).cleared _)
    ((EndsWhole.ensure _).cleared _) ?_
  rintro _ _ _ _ ⟨rfl, rfl⟩
  -- Blanks within the header are followed by a word or a name.
  refine ((areModifiers_modifiersOf kind).parallel relayout).bind
    (cleared_of_begins solid_isNameChar _ fun _ => lettered.begins.bind _)
    (cleared_of_begins solid_isNameChar _ fun _ => lettered.begins.bind _) ?_
  rintro modifiers _ _ _ rfl
  refine (Parallel.literal relayout lettered.solid).bind (lettered.endsWhole.cleared _)
    (lettered.endsWhole.cleared _) ?_
  rintro _ _ _ _ ⟨rfl, rfl⟩
  refine (parallel_blanks1 relayout).bind
    (cleared_of_begins solid_isNameChar _ fun _ => begins_anyName.stretch.bind _)
    (cleared_of_begins solid_isNameChar _ fun _ => begins_anyName.stretch.bind _)
    fun _ _ _ _ _ => ?_
  refine (Parallel.run1 relayout solid_isNameChar).stretch.bind (endsWhole_name.stretch.cleared _)
    (endsWhole_name.stretch.cleared _) ?_
  rintro name _ name' _ ⟨isText, isText', _, _, rfl, nonempty, _⟩
  refine (Parallel.notBefore relayout solid_isNameChar).bind ((EndsWhole.ensure _).cleared _)
    ((EndsWhole.ensure _).cleared _) ?_
  rintro _ _ _ _ ⟨rfl, rfl⟩
  exact .pure ⟨rfl, isText.trans
    isText'.symm, by simp [lettered.nonempty], by simp [lettered.nonempty]⟩

end Reader

variable {R : List Char → List Char → Prop}

/-- Excerpts that hold references to the same paths, or none. -/
def SamePaths (one one' : Option Excerpt) : Prop :=
  Option.Rel (fun excerpt excerpt' => ∃ paths, Reader.References paths excerpt.text ∧
    Reader.References paths excerpt'.text) one one'

/-- Clauses with the same paths name the same types. -/
theorem SamePaths.namesIn_eq {one one' : Option Excerpt} (same : SamePaths one one') :
    namesIn one = namesIn one' := by
  cases same with
  | none => rfl
  | some both =>
    obtain ⟨paths, ⟨path, more, reference, further, rfl, isText, isReference, areFurther⟩, path',
      more', reference', further', same, isText', isReference', areFurther'⟩ := both
    cases same
    simp only [namesIn, Option.elim_some, isText, isText',
      simpleNames_references isReference areFurther,
      simpleNames_references isReference' areFurther']

/-- Excerpts that hold a reference to the same path, or none. -/
def SamePath (one one' : Option Excerpt) : Prop :=
  Option.Rel (fun excerpt excerpt' => ∃ path, Reference path excerpt.text ∧
    Reference path excerpt'.text) one one'

/-- Clauses with the same path name the same type. -/
theorem SamePath.map_simpleName {one one' : Option Excerpt} (same : SamePath one one') :
    (one.map fun reference => simpleName reference.text) = one'.map fun reference =>
      simpleName reference.text := by
  cases same with
  | none => rfl
  | some both =>
    obtain ⟨path, reference, reference'⟩ := both
    rw [Option.map_some, Option.map_some, reference.simpleName_text, reference'.simpleName_text]

/-- The headers of classes have the same modifiers and names, whatever blanks stand between them. -/
structure ClassHeader.Alike (header header' : ClassHeader) : Prop where
  modifiers : header.modifiers = header'.modifiers
  name : header.name.text = header'.name.text
  superclass : SamePath header.superclass header'.superclass
  interfaces : SamePaths header.interfaces header'.interfaces

/-- Class headers that are alike declare the same. -/
theorem ClassHeader.Alike.declaration_eq {header header' : ClassHeader}
    (alike : header.Alike header') :
    header.declaration = header'.declaration := by
  simp only [ClassHeader.declaration, alike.modifiers, alike.name, alike.superclass.map_simpleName,
    alike.interfaces.namesIn_eq]

/-- The headers of interfaces have the same names, whatever blanks stand between them. -/
structure InterfaceHeader.Alike (header header' : InterfaceHeader) : Prop where
  name : header.name.text = header'.name.text
  interfaces : SamePaths header.interfaces header'.interfaces

theorem InterfaceHeader.Alike.declaration_eq {header header' : InterfaceHeader}
    (alike : header.Alike header') :
    header.declaration = header'.declaration := by
  simp only [InterfaceHeader.declaration, alike.name, alike.interfaces.namesIn_eq]

namespace Reader

open Lineage.Text.Reader

theorem begins_references : Begins references isNameChar :=
  begins_reference.bind _

/-- A class header ends like the last of its parts that is there. -/
theorem endsWhole_classHeader : EndsWhole (classHeader anyName) := by
  rw [classHeader_eq]
  exact .bind ((endsWhole_announcement _).cleared _) fun _ =>
    .bind (endsWhole_someArguments.cleared _) fun _ =>
    .bind ((endsWhole_clause lettered_extends begins_reference
        endsWhole_reference).cleared _) fun _ =>
    .bind ((endsWhole_clause lettered_implements begins_references
        endsWhole_references).cleared _) fun _ => .pure _

/-- An interface header ends like the last of its parts that is there. -/
theorem endsWhole_interfaceHeader : EndsWhole (interfaceHeader anyName) := by
  rw [interfaceHeader_eq]
  exact .bind ((endsWhole_announcement _).cleared _) fun _ =>
    .bind (endsWhole_someArguments.cleared _) fun _ =>
    .bind ((endsWhole_clause lettered_extends begins_references endsWhole_references).cleared _)
      fun _ => .pure _

/-- Class headers are read alike in both layouts. -/
theorem parallel_classHeader (relayout : Relayout R) :
    Parallel R (fun header taken header' taken' => header.Alike header' ∧ taken ≠ [] ∧ taken' ≠ [])
      (classHeader anyName) (classHeader anyName) := by
  -- Part by part: the announcement, the arguments and the two clauses.
  have wholeName := endsWhole_announcement .plainClass
  have wholeSuper := endsWhole_clause lettered_extends begins_reference endsWhole_reference
  have wholeInterfaces :=
    endsWhole_clause lettered_implements begins_references endsWhole_references
  rw [classHeader_eq]
  refine (parallel_announcement relayout _).bind (wholeName.cleared _) (wholeName.cleared _) ?_
  rintro announced taken announced' taken' ⟨sameModifiers, sameName, nonempty, nonempty'⟩
  refine (parallel_someArguments relayout).bind (endsWhole_someArguments.cleared _)
    (endsWhole_someArguments.cleared _) fun _ _ _ _ _ => ?_
  refine (parallel_clause relayout lettered_extends begins_reference
    (parallel_reference relayout)).bind
    (wholeSuper.cleared _) (wholeSuper.cleared _) fun superclass _ superclass' _ samePath => ?_
  refine (parallel_clause relayout lettered_implements begins_references
    (parallel_references relayout)).bind
    (wholeInterfaces.cleared _) (wholeInterfaces.cleared _) fun interfaces _ interfaces'
      _ samePaths => ?_
  exact .pure ⟨⟨sameModifiers, sameName, samePath, samePaths⟩, by simp [nonempty], by
    simp [nonempty']⟩

/-- Interface headers are read alike in both layouts. -/
theorem parallel_interfaceHeader (relayout : Relayout R) :
    Parallel R (fun header taken header' taken' => header.Alike header' ∧ taken ≠ [] ∧ taken' ≠ [])
      (interfaceHeader anyName) (interfaceHeader anyName) := by
  -- Part by part: the announcement, the arguments and the clause.
  have wholeName := endsWhole_announcement .interface
  have wholeInterfaces := endsWhole_clause lettered_extends begins_references endsWhole_references
  rw [interfaceHeader_eq]
  refine (parallel_announcement relayout _).bind (wholeName.cleared _) (wholeName.cleared _) ?_
  rintro announced taken announced' taken' ⟨_, sameName, nonempty, nonempty'⟩
  refine (parallel_someArguments relayout).bind (endsWhole_someArguments.cleared _)
    (endsWhole_someArguments.cleared _) fun _ _ _ _ _ => ?_
  refine (parallel_clause relayout lettered_extends begins_references
    (parallel_references relayout)).bind
    (wholeInterfaces.cleared _) (wholeInterfaces.cleared _) fun interfaces _ interfaces'
      _ samePaths => ?_
  exact .pure ⟨⟨sameName, samePaths⟩, by simp [nonempty], by simp [nonempty']⟩

theorem begins_classHeader : Begins (classHeader anyName) isNameChar := by
  rw [classHeader_eq]
  exact (begins_announcement _).bind _

theorem begins_interfaceHeader : Begins (interfaceHeader anyName) isNameChar := by
  rw [interfaceHeader_eq]
  exact (begins_announcement _).bind _

end Reader

/-- The same declaration at positions of one rank in two texts. -/
def PlacedAlike (text text' : List Char) (placed placed' : Placed) : Prop :=
  ∃ rank, Ranked text placed.start rank ∧ Ranked text' placed'.start rank ∧
    placed.declaration = placed'.declaration

/-- A search for headers comes to the same declarations in texts that look alike. -/
theorem placed_of_parallel (relayout : Relayout R) (alike : R text text') {α : Type}
    {reader : Text.Reader α} {declaration : α → Declaration} {Alike : α → α → Prop}
    (parallel : Text.Reader.Parallel R (fun header taken header' taken' =>
      Alike header header' ∧ taken ≠ [] ∧ taken' ≠ []) reader reader) (endsWhole : reader.EndsWhole)
    (begins : reader.Begins isNameChar)
    (same : ∀ header header', Alike header header' → declaration header = declaration header') :
    List.Forall₂ (PlacedAlike text text')
      ((reader.all text).map fun found => ⟨found.start, declaration found.value⟩)
      ((reader.all text').map fun found => ⟨found.start, declaration found.value⟩) := by
  -- The matches in both texts pair up, and each pair declares the same at places of one rank.
  rw [List.forall₂_map_left_iff, List.forall₂_map_right_iff]
  have found := ((parallel.squeezed relayout).headAlike endsWhole endsWhole).all relayout
    (fun _ _ _ _ both => ⟨both.1.2.1, both.1.2.2, both.2⟩)
    Reader.solid_isNameChar begins begins alike
  refine found.imp ?_
  rintro one one' ⟨rank, ranked, ranked', _, _, ⟨alikeHeaders, _⟩, _⟩
  exact ⟨rank, ranked, ranked', same _ _ alikeHeaders⟩

/-- Merging keeps the correspondence of two rows to two others if it compares corresponding members
alike. -/
theorem forall₂_merge {α : Type} {Rel : α → α → Prop} {le : α → α → Bool}
    (same : ∀ {one one' other other' : α}, Rel one one' → Rel other other' →
      le one other = le one' other')
    {left left' right right' : List α} (alike : List.Forall₂ Rel left left')
    (alikeRight : List.Forall₂ Rel right right') :
    List.Forall₂ Rel (left.merge right le) (left'.merge right' le) := by
  induction alike generalizing right right' with
  | nil => simpa using alikeRight
  | cons first rest ih =>
    -- The first members of the left rows stay where they are until those of the right rows come
    -- later.
    induction alikeRight with
    | nil => simpa using List.Forall₂.cons first rest
    | cons firstRight restRight ihRight =>
      rw [List.cons_merge_cons, List.cons_merge_cons, same first firstRight]
      split
      · exact .cons first (ih (.cons firstRight restRight))
      · exact .cons firstRight ihRight

/-- Texts that differ in their blanks only have the same declarations. -/
theorem declarationsIn_of_relayout (relayout : Relayout R) (alike : R text text') :
    declarationsIn text = declarationsIn text' := by
  have classes : List.Forall₂ (PlacedAlike text text') (classesIn text) (classesIn text') :=
    placed_of_parallel relayout alike (Reader.parallel_classHeader relayout)
      Reader.endsWhole_classHeader Reader.begins_classHeader fun _ _ same => same.declaration_eq
  have interfaces : List.Forall₂ (PlacedAlike text text') (interfacesIn text)
    (interfacesIn text') :=
    placed_of_parallel relayout alike (Reader.parallel_interfaceHeader relayout)
      Reader.endsWhole_interfaceHeader
      Reader.begins_interfaceHeader fun _ _ same => same.declaration_eq
  -- Declarations come in the order of their positions, and the ranks of these are the same in both
  -- texts.
  have merged :=
    @forall₂_merge Placed (PlacedAlike text text') (fun one other => one.start ≤ other.start) (by
    rintro one one' other other' ⟨rank, ranked, ranked', _⟩
      ⟨rankOther, rankedOther, rankedOther', _⟩
    exact decide_eq_decide.mpr ((ranked.le_iff rankedOther).trans
      (ranked'.le_iff rankedOther').symm))
    _ _ _ _ classes interfaces
  rw [declarationsIn, declarationsIn]
  generalize (classesIn text).merge (interfacesIn text) _ = placed at merged ⊢
  generalize (classesIn text').merge (interfacesIn text') _ = placed' at merged ⊢
  induction merged with
  | nil => rfl
  | cons first _ ih =>
    obtain ⟨_, _, _, same⟩ := first
    rw [List.map_cons, List.map_cons, same, ih]

end Lineage.Java
