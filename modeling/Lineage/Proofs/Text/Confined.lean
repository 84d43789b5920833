import Lineage.Proofs.Text.Parallel

/-! Readers that do not look beyond certain characters, and searches that fall into two behind one
of these. -/

namespace Lineage.Text

/-- Texts that are the same up to the first character of a class and with it, or all the way. -/
inductive SameUpTo (wall : Char → Bool) : List Char → List Char → Prop where
  | whole (text : List Char) : SameUpTo wall text text
  | wall {c : Char} (rest rest' : List Char) : wall c = true →
    SameUpTo wall (c :: rest) (c :: rest')
  | cons {c : Char} {rest rest' : List Char} : SameUpTo wall rest rest' →
    SameUpTo wall (c :: rest) (c :: rest')

section SameUpTo

variable {wall : Char → Bool} {text text' : List Char}

theorem SameUpTo.head?_eq (same : SameUpTo wall text text') : text.head? = text'.head? := by
  cases same <;> rfl

/-- Before the end of the same part the texts go on with the same character. -/
theorem SameUpTo.tail {c : Char} {rest : List Char} (same : SameUpTo wall (c :: rest) text')
    (inside : wall c = false) :
    ∃ rest', text' = c :: rest' ∧ SameUpTo wall rest rest' := by
  cases same with
  | whole => exact ⟨rest, rfl, .whole rest⟩
  | wall _ rest' ends =>
    rw [inside] at ends
    cases ends
  | cons same => exact ⟨_, rfl, same⟩

/-- What is added to a text that ends with a character of the class makes no difference before
it. -/
theorem sameUpTo_append (ended : text.getLast?.any wall = true) (more : List Char) :
    SameUpTo wall (text ++ more) text := by
  -- The text ends with a wall, and what follows it does not count.
  induction text with
  | nil => cases ended
  | cons c text ih =>
    cases text with
    | nil => exact .wall more [] ended
    | cons d text => exact .cons (ih (by rwa [List.getLast?_cons_cons] at ended))

end SameUpTo

/-- Places that cannot be told apart by what stands behind them, up to a character of one class, nor
by whether a character of the other class stands before them. -/
structure Indistinct (wall barred : Char → Bool) (place place' : Cursor) : Prop where
  rest : SameUpTo wall place.rest place'.rest
  before : place.before.any barred = place'.before.any barred

namespace Reader

variable {α α' β β' : Type} {wall barred : Char → Bool}

/-- Two readings that take the same stretch, come to places from which the texts go on alike and
have related values. -/
def SameReading (wall : Char → Bool) (P : α → α' → Prop) (place place' : Cursor) (read : α × Cursor)
    (read' : α' × Cursor) : Prop :=
  ∃ taken, Took place taken read.2 ∧ Took place' taken read'.2 ∧
    SameUpTo wall read.2.rest read'.2.rest ∧
    P read.1 read'.1

/-- Readers that read alike at places that cannot be told apart, in the same order. -/
def Confined (wall barred : Char → Bool) (P : α → α' → Prop) (reader : Reader α)
    (reader' : Reader α') : Prop :=
  ∀ place place', Indistinct wall barred place place' →
    List.Forall₂ (SameReading wall P place place') (reader place) (reader' place')

variable {P : α → α' → Prop} {reader : Reader α} {reader' : Reader α'} {offset : Nat}

/-- Places remain indistinct behind the same stretch. -/
theorem SameReading.indistinct {place place' : Cursor} {read : α × Cursor} {read' : α' × Cursor}
    (same : SameReading wall P place place' read read')
    (level : Indistinct wall barred place place') : Indistinct wall barred read.2 read'.2 := by
  obtain ⟨taken, took, took', rest, _⟩ := same
  refine ⟨rest, ?_⟩
  rw [took.after, took'.after]
  -- The last character taken is the same, and with none taken the places before are compared.
  cases last : taken.getLast? with
  | none => simpa [Cursor.beyond, last] using level.before
  | some c => simp [Cursor.beyond, last]

namespace Confined

/-- A confined pair stays confined under a weaker relation. -/
theorem mono {Q : α → α' → Prop} (confined : Confined wall barred P reader reader')
    (weaker : ∀ value value', P value value' → Q value value') :
    Confined wall barred Q reader reader' := by
  intro place place' level
  refine (confined place place' level).imp ?_
  rintro read read' ⟨taken, took, took', rest, related⟩
  exact ⟨taken, took, took', rest, weaker _ _ related⟩

/-- To take nothing is a reading at both places. -/
theorem nothing {value : α} {value' : α'} (related : P value value') {place place' : Cursor}
    (level : Indistinct wall barred place place') :
    SameReading wall P place place' (value, place) (value', place') :=
  ⟨[], Took.nothing place, Took.nothing place', level.rest, related⟩

theorem pure {value : α} {value' : α'} (related : P value value') :
    Confined wall barred P (Pure.pure value) (Pure.pure value') :=
  fun _ _ level => .cons (nothing related level) .nil

/-- Confined readers in a row are confined. -/
theorem bind {Q : β → β' → Prop} {first : Reader α} {first' : Reader α'} {next : α → Reader β}
    {next' : α' → Reader β'} (confined : Confined wall barred P first first')
    (onward : ∀ value value', P value value' → Confined wall barred Q (next value) (next' value')) :
    Confined wall barred Q (first >>= next) (first' >>= next') := by
  intro place place' level
  refine List.rel_flatMap (confined place place' level) ?_
  intro read read' same
  have later := same.indistinct level
  obtain ⟨taken, took, took', _, related⟩ := same
  -- What the second part takes comes behind what the first one took.
  refine (onward _ _ related _ _ later).imp ?_
  rintro result result' ⟨more, tookMore, tookMore', rest, relatedMore⟩
  exact ⟨taken ++ more, took.trans tookMore, took'.trans tookMore', rest, relatedMore⟩

/-- A test that cannot tell the places apart is confined. -/
theorem ensure {p : Cursor → Bool}
    (same : ∀ place place', Indistinct wall barred place place' → p place = p place') :
    Confined wall barred Eq (ensure p) (ensure p) := by
  intro place place' level
  unfold Reader.ensure
  rw [← same place place' level]
  split
  · exact .cons (nothing rfl level) .nil
  · exact .nil

/-- Only the class of characters that are told apart may be looked for before a place. -/
theorem notAfter : Confined wall barred Eq (notAfter barred) (notAfter barred) :=
  ensure fun _ _ level => by rw [level.before]

theorem notBefore (p : Char → Bool) : Confined wall barred Eq (notBefore p) (notBefore p) :=
  ensure fun _ _ level => by rw [level.rest.head?_eq]

variable {p : Char → Bool}

/-- A character that is not of the class that ends the texts is followed by like texts. -/
theorem char (inside : ∀ c, p c = true → wall c = false) :
    Confined wall barred Eq (char p) (char p) := by
  rintro ⟨offset, before, text⟩ ⟨offset', before', text'⟩ level
  have same : SameUpTo wall text text' := level.rest
  cases text with
  | nil =>
    cases same
    exact .nil
  | cons c rest =>
    by_cases fits : p c = true
    · obtain ⟨rest', rfl, further⟩ := same.tail (inside c fits)
      simp only [Reader.char, fits, if_true]
      exact .cons ⟨[c], Took.beyond offset before [c] rest, Took.beyond offset' before' [c] rest',
        further, rfl⟩ .nil
    · -- The same character stands in both texts, and it does not belong to the class.
      cases same <;> simp [Reader.char, fits]

/-- A word with no wall in it is confined. -/
theorem literal {word : List Char} (inside : ∀ c ∈ word, wall c = false) :
    Confined wall barred Eq (literal word) (literal word) := by
  induction word with
  | nil => exact pure rfl
  | cons c word ih =>
    have unfolded : Reader.literal (c :: word) =
      (Reader.char (· == c) >>= fun _ => Reader.literal word) := rfl
    rw [unfolded]
    refine (char fun d isFirst => ?_).bind fun _ _ _ => ih fun d within =>
      inside d (List.mem_cons_of_mem c within)
    rw [beq_iff_eq.mp isFirst]
    exact inside c List.mem_cons_self

/-- Words with no wall in them are confined. -/
theorem wordOf {words : List (List Char)} (inside : ∀ word ∈ words, ∀ c ∈ word, wall c = false) :
    Confined wall barred Eq (wordOf words) (wordOf words) := by
  intro place place' level
  unfold Reader.wordOf
  -- Along the list of words, of which each is a literal.
  induction words with
  | nil => exact .nil
  | cons word words ih =>
    rw [List.flatMap_cons, List.flatMap_cons]
    refine List.rel_append ?_ (ih fun other isOther =>
      inside other (List.mem_cons_of_mem word isOther))
    rw [List.forall₂_map_left_iff, List.forall₂_map_right_iff]
    refine (literal (inside word List.mem_cons_self) place place' level).imp ?_
    rintro read read' ⟨taken, took, took', rest, _⟩
    exact ⟨taken, took, took', rest, rfl⟩

/-- A run of characters that are no walls is confined. -/
theorem run (inside : ∀ c, p c = true → wall c = false) :
    Confined wall barred Eq (run p) (run p) := by
  rintro ⟨offset, before, text⟩ ⟨offset', before', text'⟩ level
  -- The stops are the same from the first to the last.
  have stops :
      List.Forall₂ (fun stop stop' =>
      SameReading wall Eq ⟨offset, before, text⟩ ⟨offset', before', text'⟩
        ((), stop) ((), stop')) (stops p offset before text) (stops p offset' before' text') := by
    have same : SameUpTo wall text text' := level.rest
    clear level
    induction text generalizing offset before offset' before' text' with
    | nil =>
      cases same
      exact .cons ⟨[], Took.nothing _, Took.nothing _, .whole [], rfl⟩ .nil
    | cons c rest ih =>
      have here : SameReading wall Eq ⟨offset, before, c :: rest⟩ ⟨offset', before', text'⟩
          ((), ⟨offset, before, c :: rest⟩) ((), ⟨offset', before', text'⟩) :=
        ⟨[], Took.nothing _, Took.nothing _, same, rfl⟩
      by_cases fits : p c = true
      · obtain ⟨rest', rfl, further⟩ := same.tail (inside c fits)
        rw [stops, stops, if_pos fits, if_pos fits]
        refine .cons here ((ih (offset + 1) (some c) (offset' + 1) (some c) rest' further).imp ?_)
        rintro stop stop' ⟨taken, took, took', rest, related⟩
        exact ⟨c :: taken, (Took.beyond offset before [c] _).trans took,
          (Took.beyond offset' before' [c] _).trans took', rest, related⟩
      · -- The run ends here in both texts.
        obtain ⟨rest', rfl⟩ : ∃ rest', text' = c :: rest' := by cases same <;> exact ⟨_, rfl⟩
        rw [stops, stops, if_neg fits, if_neg fits]
        exact .cons here .nil
  unfold Reader.run
  rw [List.forall₂_map_left_iff, List.forall₂_map_right_iff]
  exact List.rel_reverse stops

theorem run1 (inside : ∀ c, p c = true → wall c = false) :
    Confined wall barred Eq (run1 p) (run1 p) :=
  (char inside).bind fun _ _ _ => run inside

/-- A confined reader may be skipped. -/
theorem optional (confined : Confined wall barred P reader reader') :
    Confined wall barred (Option.Rel P) (optional reader) (optional reader') := by
  intro place place' level
  refine List.rel_append ?_ (.cons (nothing .none level) .nil)
  rw [List.forall₂_map_left_iff, List.forall₂_map_right_iff]
  refine (confined place place' level).imp ?_
  rintro read read' ⟨taken, took, took', rest, related⟩
  exact ⟨taken, took, took', rest, .some related⟩

/-- A stretch is the same text at both places. -/
theorem stretch (confined : Confined wall barred P reader reader') :
    Confined wall barred (fun one other => one.text = other.text) (stretch reader)
      (stretch reader') := by
  intro place place' level
  unfold Reader.stretch
  rw [List.forall₂_map_left_iff, List.forall₂_map_right_iff]
  refine (confined place place' level).imp ?_
  rintro read read' ⟨taken, took, took', rest, _⟩
  exact ⟨taken, took, took', rest, took.text_excerpt.trans took'.text_excerpt.symm⟩

/-- Confined readings any number of times are confined. -/
theorem many (confined : Confined wall barred P reader reader') :
    Confined wall barred (List.Forall₂ P) (many reader) (many reader') := by
  intro place place' level
  -- Only values that take something count, so less is left behind each of them.
  induction sized : place.rest.length using Nat.strongRecOn generalizing place place' with
  | ind length ih =>
    rw [Reader.many, Reader.many]
    refine List.rel_append ?_ (.cons (nothing .nil level) .nil)
    refine List.rel_flatMap (confined place place' level) ?_
    intro read read' same
    have later := same.indistinct level
    obtain ⟨taken, took, took', _, related⟩ := same
    have shorter : ∀ {place after : Cursor}, Took place taken after →
        (after.rest.length < place.rest.length ↔ taken ≠ []) := by
      intro place after took
      rw [took.rest, List.length_append, ← List.length_pos_iff]
      omega
    dsimp only
    by_cases progress : taken = []
    · rw [if_neg fun less => (shorter took).mp less progress, if_neg fun less =>
        (shorter took').mp less progress]
      exact .nil
    · have less := (shorter took).mpr progress
      rw [if_pos less, if_pos ((shorter took').mpr progress), List.forall₂_map_left_iff,
        List.forall₂_map_right_iff]
      refine (ih _ (sized ▸ less) _ _ later rfl).imp ?_
      rintro further further' ⟨more, tookMore, tookMore', rest, row⟩
      exact ⟨taken ++ more, took.trans tookMore, took'.trans tookMore', rest, .cons related row⟩

end Confined

/-- All that is found in a text begins in it. -/
theorem bounds_of_mem_allFrom {text : List Char} {skip : Nat} {before : Option Char}
    {found : Found α} (member : found ∈ reader.allFrom offset before skip text) :
    offset ≤ found.start ∧ found.start < offset + text.length := by
  induction text generalizing offset before skip with
  | nil => cases skip <;> cases member
  | cons c rest ih =>
    simp only [List.length_cons]
    cases skip with
    | succ skip =>
      have := ih member
      omega
    | zero =>
      rw [allFrom] at member
      split at member
      · have := ih member
        omega
      · rename_i here atPlace
        rcases List.mem_cons.mp member with rfl | later
        · -- What is found here begins here.
          obtain ⟨_, _, rfl⟩ := Option.map_eq_some_iff.mp atPlace
          simp only
          omega
        · have := ih later
          omega

/-- Two findings equally far from where the searches began, with related values. -/
def SameFinding (P : α → α' → Prop) (offset offset' : Nat) (found : Found α) (found' : Found α') :
    Prop :=
  found.start + offset' = found'.start + offset ∧ P found.value found'.value

/-- What is found in the same way further on is found so from here. -/
theorem SameFinding.back {offset' : Nat} {found : Found α} {found' : Found α'}
    (same : SameFinding P (offset + 1) (offset' + 1) found found') :
    SameFinding P offset offset' found found' := by
  obtain ⟨distance, related⟩ := same
  exact ⟨by omega, related⟩

/-- A search finds in the front of a text what it finds in this part alone, and then goes on behind
it, if the front ends with a character beyond which the readers do not look. -/
theorem Confined.allFrom_append {P : α → α' → Prop} {reader : Reader α} {reader' : Reader α'}
    (confined : Confined wall barred P reader reader') {text more : List Char}
    (ended : more = [] ∨ ∀ c ∈ text.getLast?, wall c = true) {offset offset' skip : Nat}
    {before before' : Option Char} (level : before.any barred = before'.any barred)
    (within : skip ≤ text.length) :
    ∃ early, reader.allFrom offset before skip (text ++ more) =
        early ++ reader.allFrom (offset + text.length) (text.getLast?.or before) 0 more ∧
      List.Forall₂ (SameFinding P offset offset') early
        (reader'.allFrom offset' before' skip text) := by
  -- Along the text; what was found before may reach into it, but not beyond it.
  induction text generalizing offset offset' skip before before' with
  | nil =>
    obtain rfl : skip = 0 := Nat.le_zero.mp within
    exact ⟨[], rfl, .nil⟩
  | cons c text ih =>
    have endedTail : more = [] ∨ ∀ d ∈ text.getLast?, wall d = true := by
      refine ended.imp id fun last d isLast => last d ?_
      rw [List.getLast?_cons, Option.mem_def.mp isLast]
      rfl
    have onward : ∀ skip ≤ text.length, ∃ early,
        reader.allFrom (offset + 1) (some c) skip (text ++ more) =
            early ++ reader.allFrom (offset + (c :: text).length) ((c :: text).getLast?.or before) 0
              more ∧
          List.Forall₂ (SameFinding P offset offset') early
            (reader'.allFrom (offset' + 1) (some c) skip text) := by
      intro skip within
      obtain ⟨early, split, same⟩ :=
        @ih endedTail (offset + 1) (offset' + 1) skip (some c) (some c) rfl within
      rw [getLast?_or_cons before, Nat.add_assoc, Nat.add_comm 1] at split
      exact ⟨early, split, same.imp fun _ _ => SameFinding.back⟩
    cases skip with
    | succ skip => exact onward skip (Nat.le_of_succ_le_succ within)
    | zero =>
      have indistinct : Indistinct wall barred ⟨offset, before, c :: (text ++ more)⟩
          ⟨offset', before', c :: text⟩ := by
        refine ⟨?_, level⟩
        rcases ended with rfl | last
        · rw [List.append_nil]
          exact .whole _
        · refine @sameUpTo_append wall (c :: text) ?_ more
          rw [List.getLast?_cons] at last ⊢
          exact last _ rfl
      have readings := confined _ _ indistinct
      rw [List.cons_append, allFrom, allFrom, foundAt, foundAt]
      generalize reader ⟨offset, before, c :: (text ++ more)⟩ = reads at readings ⊢
      generalize reader' ⟨offset', before', c :: text⟩ = reads' at readings ⊢
      cases readings with
      | nil => exact onward 0 (Nat.zero_le _)
      | @cons read read' _ _ same =>
        obtain ⟨taken, took, took', _, related⟩ := same
        have reach : read.2.offset - offset - 1 = taken.length - 1 := by
          rw [took.after]
          simp only [Cursor.offset_beyond]
          omega
        have reach' : read'.2.offset - offset' - 1 = taken.length - 1 := by
          rw [took'.after]
          simp only [Cursor.offset_beyond]
          omega
        -- What was taken stands in the front alone, so it ends there.
        have short : taken.length ≤ (c :: text).length := by
          have split : c :: text = taken ++ read'.2.rest := took'.rest
          rw [split, List.length_append]
          omega
        obtain ⟨early, split, later⟩ :=
          onward (taken.length - 1) (by simp only [List.length_cons] at short; omega)
        refine ⟨⟨offset, read.2, read.1⟩ :: early, ?_, ?_⟩
        · simp only [List.head?_cons, Option.map_some, reach, split, List.cons_append]
        · simp only [List.head?_cons, Option.map_some, reach']
          exact .cons ⟨Nat.add_comm .., related⟩ later

end Reader

end Lineage.Text
