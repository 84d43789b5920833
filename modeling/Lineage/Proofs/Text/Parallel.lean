import Lineage.Proofs.Text.Layout
import Lineage.Proofs.Text.Preferred
import Mathlib.Data.List.Forall2

/-! Readers that cannot tell texts apart that differ in their blanks only. -/

namespace Lineage.Text

/-- A place within a run of blanks, where blanks stand on both sides. -/
def Cursor.midBlank (place : Cursor) : Bool :=
  place.before.any isBlank && place.rest.head?.any isBlank

/-- A place at the end of what was taken from another place. -/
structure Took (place : Cursor) (taken : List Char) (after : Cursor) : Prop where
  rest : place.rest = taken ++ after.rest
  after : after = .beyond place.offset place.before taken after.rest

theorem Took.nothing (place : Cursor) : Took place [] place :=
  ⟨rfl, rfl⟩

theorem Took.beyond (offset : Nat) (before : Option Char) (taken rest : List Char) :
    Took ⟨offset, before, taken ++ rest⟩ taken (.beyond offset before taken rest) :=
  ⟨rfl, rfl⟩

/-- What is taken on two ways in a row is taken on both. -/
theorem Took.trans {place middle last : Cursor} {one other : List Char}
    (first : Took place one middle) (second : Took middle other last) :
    Took place (one ++ other) last where
  rest := by rw [first.rest, second.rest, List.append_assoc]
  after := by
    have behind := second.after
    rw [first.after] at behind
    rw [← Cursor.beyond_append]
    exact behind

/-- An excerpt over what was taken, whose length the offsets tell, holds just that. -/
theorem Took.text_excerpt {place after : Cursor} {taken : List Char}
    (took : Took place taken after) :
    Excerpt.text ⟨place.rest, after.offset - place.offset⟩ = taken := by
  rw [took.after, Cursor.offset_beyond, Nat.add_sub_cancel_left, took.rest]
  exact List.take_left

/-- Places in two texts from which the texts look alike, behind like characters and not within
blanks. -/
structure Abreast (R : List Char → List Char → Prop) (place place' : Cursor) : Prop where
  rest : R place.rest place'.rest
  before : place.before = place'.before ∨ place.before.any isBlank = true ∧
    place'.before.any isBlank = true
  whole : place.midBlank = false
  whole' : place'.midBlank = false

variable {p : Char → Bool} {c : Char} {offset : Nat} {rest : List Char} {before : Option Char}

section Abreast

variable {R : List Char → List Char → Prop} {place place' : Cursor}

/-- At level places no class without blanks tells the characters before them apart. -/
theorem Abreast.any_before (level : Abreast R place place')
    (solid : ∀ c, isBlank c = true → p c = false) : place.before.any p = place'.before.any p := by
  rcases level.before with same | ⟨blank, blank'⟩
  · rw [same]
  · -- Blanks stand before both places, and no blank is of the class.
    rw [Option.any_eq_true] at blank blank'
    obtain ⟨c, isBefore, isBlank⟩ := blank
    obtain ⟨d, isBefore', isBlank'⟩ := blank'
    simp [isBefore, isBefore', solid c isBlank, solid d isBlank']

/-- Behind the same character that is no blank, texts that look alike are at level places. -/
theorem abreast_of_solid (solid : isBlank c = false) {offset' : Nat} {rest' : List Char}
    (alike : R rest rest') : Abreast R ⟨offset, some c, rest⟩ ⟨offset', some c, rest'⟩ where
  rest := alike
  before := Or.inl rfl
  whole := by simp [Cursor.midBlank, solid]
  whole' := by simp [Cursor.midBlank, solid]

/-- Behind all of their blanks, texts that look alike are at level places. -/
theorem abreast_of_trimStart {offset' : Nat} {before' : Option Char} {rest' : List Char}
    (alike : R (trimStart rest) (trimStart rest')) (blank : before.any isBlank = true)
    (blank' : before'.any isBlank = true) :
    Abreast R ⟨offset, before, trimStart rest⟩ ⟨offset', before', trimStart rest'⟩ where
  rest := alike
  before := Or.inr ⟨blank, blank'⟩
  whole := by simp [Cursor.midBlank, head?_trimStart]
  whole' := by simp [Cursor.midBlank, head?_trimStart]

end Abreast

namespace Reader

variable {α α' β β' : Type}

/-- The readings that do not end within blanks. -/
def settled (reader : Reader α) : Reader α :=
  fun place => (reader place).filter fun read => !read.2.midBlank

/-- A reader that ends within blanks only if it begins there. -/
def EndsWhole (reader : Reader α) : Prop :=
  ∀ place, place.midBlank = false → ∀ read ∈ reader place, read.2.midBlank = false

variable {reader first : Reader α} {next : α → Reader β} {P : α → List Char → α' → List Char → Prop}
  {reader' : Reader α'} {place' : Cursor}

/-- Of a reader that ends whole all readings are settled. -/
theorem EndsWhole.settled_eq (endsWhole : EndsWhole reader) {place : Cursor}
    (whole : place.midBlank = false) : settled reader place = reader place := by
  refine List.filter_eq_self.mpr fun read member => ?_
  rw [endsWhole place whole read member]
  rfl

/-- A reader is cleared by what comes next if readings that end within blanks come to nothing. -/
def Cleared (first : Reader α) (next : α → Reader β) : Prop :=
  ∀ place, place.midBlank = false → ∀ read ∈ first place, read.2.midBlank = true →
    next read.1 read.2 = []

/-- A reader that ends whole is cleared by whatever comes next. -/
theorem EndsWhole.cleared (endsWhole : EndsWhole first) (next : α → Reader β) :
    Cleared first next := by
  intro place whole read member within
  rw [endsWhole place whole read member] at within
  cases within

/-- A class without blanks. -/
def Solid (p : Char → Bool) : Prop :=
  ∀ c, isBlank c = true → p c = false

theorem Solid.isBlank_eq (solid : Solid p) (fits : p c = true) : isBlank c = false := by
  by_contra blank
  rw [solid c (by simpa using blank)] at fits
  cases fits

/-- Behind characters that are no blanks no place is within blanks. -/
theorem midBlank_beyond {taken : List Char} (solid : ∀ c ∈ taken, isBlank c = false)
    (whole : Cursor.midBlank ⟨offset, before, taken ++ rest⟩ = false) :
    (Cursor.beyond offset before taken rest).midBlank = false := by
  cases last : taken.getLast? with
  | none =>
    -- Nothing was taken, so the place is the same.
    rw [List.getLast?_eq_none_iff.mp last] at whole ⊢
    exact whole
  | some c => simp [Cursor.midBlank, Cursor.beyond, last, solid c (List.mem_of_getLast? last)]

/-- A reader that begins with no blank reads nothing within blanks. -/
theorem Begins.eq_nil_of_midBlank (begins : Begins reader p) (solid : Solid p) {place : Cursor}
    (within : place.midBlank = true) : reader place = [] := by
  -- A blank is next, so no character of the class is.
  refine begins.eq_nil ?_
  obtain ⟨_, next⟩ := Bool.and_eq_true_iff.mp within
  obtain ⟨c, isNext, blank⟩ := (Option.any_eq_true _ _).mp next
  simp [isNext, solid c blank]

/-- What begins with a character that is no blank clears what comes before it. -/
theorem cleared_of_begins (solid : Solid p) (first : Reader α)
    (begins : ∀ value, Begins (next value) p) : Cleared first next :=
  fun _ _ read _ within => (begins read.1).eq_nil_of_midBlank solid within

/-- Readers in a row end whole if the last one does and the first is cleared. -/
theorem EndsWhole.bind (cleared : Cleared first next)
    (endsWhole : ∀ value, EndsWhole (next value)) :
    EndsWhole (first >>= next) := by
  intro place whole result read
  obtain ⟨value, middle, readFirst, readNext⟩ := mem_bind.mp read
  cases within : middle.midBlank with
  | false => exact endsWhole value middle within result readNext
  | true =>
    -- Nothing is read from within blanks.
    rw [cleared place whole (value, middle) readFirst within] at readNext
    exact absurd readNext List.not_mem_nil

theorem EndsWhole.pure (value : α) : EndsWhole (Pure.pure value : Reader α) := by
  intro place whole read member
  rw [mem_pure.mp member]
  exact whole

theorem EndsWhole.ensure (p : Cursor → Bool) : EndsWhole (ensure p) := by
  intro place whole read member
  rw [(mem_ensure.mp member).2]
  exact whole

theorem EndsWhole.char (solid : Solid p) : EndsWhole (char p) := by
  rintro ⟨offset, before, text⟩ whole read member
  obtain ⟨c, rest, rfl, fits, rfl⟩ := mem_char.mp member
  exact @midBlank_beyond offset rest before [c] (by simpa using solid.isBlank_eq fits) whole

theorem EndsWhole.optional (endsWhole : EndsWhole reader) : EndsWhole (optional reader) := by
  intro place whole read member
  rcases mem_optional.mp member with ⟨value, after, readValue, rfl⟩ | rfl
  · exact endsWhole place whole _ readValue
  · exact whole

theorem EndsWhole.stretch (endsWhole : EndsWhole reader) : EndsWhole (stretch reader) := by
  intro place whole read member
  obtain ⟨value, after, readValue, rfl⟩ := mem_stretch.mp member
  exact endsWhole place whole _ readValue

/-- Any number of readings that end whole end whole. -/
theorem EndsWhole.many (endsWhole : EndsWhole reader) : EndsWhole (many reader) := by
  intro place whole read member
  -- Each value leaves less to be read.
  induction sized : place.rest.length using Nat.strongRecOn generalizing place read with
  | ind length ih =>
    obtain ⟨values, last⟩ := read
    rcases mem_many.mp member with ⟨value, after, more, readValue, shorter, further, rfl⟩
      | ⟨rfl, rfl⟩
    · exact ih _ (sized ▸ shorter) after (endsWhole place whole _ readValue) (more, last) further
        rfl
    · exact whole

theorem EndsWhole.run (solid : Solid p) : EndsWhole (run p) := by
  rintro ⟨offset, before, text⟩ whole read member
  obtain ⟨taken, rest, rfl, all, rfl⟩ := mem_run.mp member
  exact midBlank_beyond (fun c inside => solid.isBlank_eq (all c inside)) whole

theorem EndsWhole.run1 (solid : Solid p) : EndsWhole (run1 p) :=
  .bind ((EndsWhole.char solid).cleared _) fun _ => .run solid

theorem EndsWhole.literal {word : List Char} (solid : ∀ c ∈ word, isBlank c = false) :
    EndsWhole (literal word) := by
  rintro ⟨offset, before, text⟩ whole read member
  obtain ⟨rest, rfl, rfl⟩ := mem_literal.mp member
  exact midBlank_beyond solid whole

/-- So does one of several words without blanks. -/
theorem EndsWhole.wordOf {words : List (List Char)}
    (solid : ∀ word ∈ words, ∀ c ∈ word, isBlank c = false) :
    EndsWhole (wordOf words) := by
  rintro ⟨offset, before, text⟩ whole read member
  obtain ⟨word, listed, rest, split, rfl⟩ := mem_wordOf.mp member
  exact EndsWhole.literal (solid word listed) _ whole _ (mem_literal.mpr ⟨rest, split, rfl⟩)

variable {R : List Char → List Char → Prop}

/-- Two readings, one in each text, that end at level places. What relates their values may depend
on what they took. -/
def ReadAlike (R : List Char → List Char → Prop) (P : α → List Char → α' → List Char → Prop)
    (place place' : Cursor) (read : α × Cursor) (read' : α' × Cursor) : Prop :=
  ∃ taken taken', Took place taken read.2 ∧ Took place' taken' read'.2 ∧ Abreast R read.2 read'.2 ∧
    P read.1 taken read'.1 taken'

/-- Two readers that read level places alike, reading for reading. -/
def Parallel (R : List Char → List Char → Prop) (P : α → List Char → α' → List Char → Prop)
    (reader : Reader α) (reader' : Reader α') : Prop :=
  ∀ place place', Abreast R place place' →
    List.Forall₂ (ReadAlike R P place place') (settled reader place) (settled reader' place')

/-- Members that contribute nothing need not be gone through. -/
theorem flatMap_eq_flatMap_filter {keep : α → Bool} {each other : α → List β} {list : List α}
    (dropped : ∀ one ∈ list, keep one = false → each one = [])
    (kept : ∀ one ∈ list, keep one = true → each one = other one) :
    list.flatMap each = (list.filter keep).flatMap other := by
  -- Member by member; one that is dropped contributes nothing.
  induction list with
  | nil => rfl
  | cons one list ih =>
    have later := ih (fun two member => dropped two (List.mem_cons_of_mem one member))
      fun two member => kept two (List.mem_cons_of_mem one member)
    cases keeps : keep one with
    | false => simp [keeps, dropped one List.mem_cons_self keeps, later]
    | true => simp [keeps, kept one List.mem_cons_self keeps, later]

namespace Parallel

/-- Parallel readers stay parallel under a weaker relation. -/
theorem mono {Q : α → List Char → α' → List Char → Prop} (parallel : Parallel R P reader reader')
    (weaker : ∀ value taken value' taken', P value taken value' taken' →
      Q value taken value' taken') : Parallel R Q reader reader' := by
  intro place place' level
  refine (parallel place place' level).imp ?_
  rintro read read' ⟨taken, taken', took, took', ends, related⟩
  exact ⟨taken, taken', took, took', ends, weaker _ _ _ _ related⟩

/-- A reading of nothing in either text. -/
theorem nothing {place : Cursor} (level : Abreast R place place') {value : α} {value' : α'}
    (related : P value [] value' []) : ReadAlike R P place place' (value, place) (value', place') :=
  ⟨[], [], Took.nothing place, Took.nothing place', level, related⟩

/-- Readers that read nothing are parallel. -/
theorem pure {value : α} {value' : α'} (related : P value [] value' []) :
    Parallel R P (Pure.pure value) (Pure.pure value') := by
  intro place place' level
  rw [(EndsWhole.pure value).settled_eq level.whole,
    (EndsWhole.pure value').settled_eq level.whole']
  exact .cons (nothing level related) .nil

/-- Readings in a row that end within blanks on the way can be left out. -/
theorem settled_bind (cleared : Cleared first next) {place : Cursor}
    (whole : place.midBlank = false) :
    settled (first >>= next) place = (settled first place).flatMap fun read =>
      settled (next read.1) read.2 := by
  -- A reading that ends within blanks comes to nothing, so it need not be gone through.
  have unfolded : (first >>= next) place = (first place).flatMap fun read => next read.1 read.2 :=
    rfl
  unfold settled
  rw [unfolded, List.filter_flatMap]
  refine flatMap_eq_flatMap_filter (fun read member within => ?_) fun _ _ _ => rfl
  rw [cleared place whole read member (by simpa using within), List.filter_nil]

/-- Parallel readers in a row are parallel. -/
theorem bind {Q : β → List Char → β' → List Char → Prop} {first' : Reader α'}
    {next' : α' → Reader β'} (parallel : Parallel R P first first') (cleared : Cleared first next)
    (cleared' : Cleared first' next')
    (onward : ∀ value taken value' taken', P value taken value' taken' →
      Parallel R (fun result more result' more' =>
        Q result (taken ++ more) result' (taken' ++ more'))
        (next value) (next' value')) : Parallel R Q (first >>= next) (first' >>= next') := by
  intro place place' level
  rw [settled_bind cleared level.whole, settled_bind cleared' level.whole']
  refine List.rel_flatMap (parallel place place' level) ?_
  rintro read read' ⟨taken, taken', took, took', ends, related⟩
  -- What the second part takes comes behind what the first one took.
  refine (onward _ _ _ _ related _ _ ends).imp ?_
  rintro result result' ⟨more, more', tookMore, tookMore', endsMore, relatedMore⟩
  exact ⟨taken ++ more, taken' ++ more', took.trans tookMore, took'.trans tookMore', endsMore,
    relatedMore⟩

/-- The values may be changed behind a reading, wherever it ends. -/
theorem map {Q : β → List Char → β' → List Char → Prop} {f : α → β} {f' : α' → β'}
    (parallel : Parallel R P reader reader')
    (related : ∀ value taken value' taken', P value taken value' taken' →
      Q (f value) taken (f' value') taken') :
    Parallel R Q (reader >>= fun value => Pure.pure (f value))
      (reader' >>= fun value => Pure.pure (f' value)) := by
  -- Only the values are changed, and neither the places nor the order.
  intro place place' level
  have unfolded : ∀ {α β : Type} (reader : Reader α) (f : α → β) (place : Cursor),
      settled (reader >>= fun value => Pure.pure (f value)) place =
        (settled reader place).map fun read => (f read.1, read.2) := by
    intro α β reader f place
    have parts : (reader >>= fun value => Pure.pure (f value)) place =
        (reader place).flatMap fun read => [(f read.1, read.2)] := rfl
    unfold settled
    rw [parts, ← List.map_eq_flatMap, List.filter_map]
    rfl
  rw [unfolded, unfolded, List.forall₂_map_left_iff, List.forall₂_map_right_iff]
  refine (parallel place place' level).imp ?_
  rintro read read' ⟨taken, taken', took, took', ends, relatedValues⟩
  exact ⟨taken, taken', took, took', ends, related _ _ _ _ relatedValues⟩

/-- A condition on a place that level places satisfy alike. -/
theorem ensure {p : Cursor → Bool}
    (same : ∀ place place', Abreast R place place' → p place = p place') :
    Parallel R (fun _ taken _ taken' => taken = [] ∧ taken' = []) (ensure p) (ensure p) := by
  intro place place' level
  rw [(EndsWhole.ensure p).settled_eq level.whole, (EndsWhole.ensure p).settled_eq level.whole']
  unfold Reader.ensure
  rw [← same place place' level]
  split
  · exact .cons (nothing level ⟨rfl, rfl⟩) .nil
  · exact .nil

theorem notAfter (solid : Solid p) :
    Parallel R (fun _ taken _ taken' => taken = [] ∧ taken' = []) (notAfter p) (notAfter p) :=
  ensure fun _ _ level => by rw [level.any_before solid]

theorem notBefore (relayout : Relayout R) (solid : Solid p) :
    Parallel R (fun _ taken _ taken' => taken = [] ∧ taken' = []) (notBefore p) (notBefore p) :=
  ensure fun _ _ level => by rw [relayout.any_head? solid level.rest]

/-- A character that is no blank is the same in both texts. -/
theorem char (relayout : Relayout R) (solid : Solid p) :
    Parallel R (fun _ taken _ taken' => ∃ c, p c = true ∧ taken = [c] ∧ taken' = [c]) (char p)
      (char p) := by
  rintro ⟨offset, before, text⟩ ⟨offset', before', text'⟩ level
  rw [(EndsWhole.char solid).settled_eq level.whole, (EndsWhole.char solid).settled_eq level.whole']
  have alike : R text text' := level.rest
  cases text with
  | nil =>
    rw [relayout.nil alike]
    exact .nil
  | cons c rest =>
    by_cases blank : isBlank c = true
    · -- Blanks are not of the class.
      obtain ⟨d, rest', rfl, blank', _⟩ := relayout.blank blank alike
      simp [Reader.char, solid c blank, solid d blank']
    · have notBlank : isBlank c = false := by simpa using blank
      obtain ⟨rest', rfl, alikeRest⟩ := relayout.solid notBlank alike
      by_cases fits : p c = true
      · simp only [Reader.char, fits, if_true]
        exact .cons ⟨[c], [c], Took.beyond offset before [c] rest,
          Took.beyond offset' before' [c] rest', abreast_of_solid notBlank alikeRest, c, fits, rfl,
          rfl⟩ .nil
      · simp [Reader.char, fits]

/-- A word without blanks is the same in both texts. -/
theorem literal (relayout : Relayout R) {word : List Char} (solid : ∀ c ∈ word, isBlank c = false) :
    Parallel R (fun _ taken _ taken' => taken = word ∧ taken' = word) (literal word)
      (literal word) := by
  induction word with
  | nil =>
    intro place place' level
    have endsWhole : EndsWhole (Reader.literal []) := EndsWhole.literal (by simp)
    rw [endsWhole.settled_eq level.whole, endsWhole.settled_eq level.whole']
    exact .cons (nothing level ⟨rfl, rfl⟩) .nil
  | cons c word ih =>
    have isChar : Solid (· == c) := by
      intro d blank
      have different : d ≠ c := ne_of_class blank (solid c List.mem_cons_self)
      simpa using different
    -- A word is its first character and the rest of it.
    have unfolded : Reader.literal (c :: word) =
      (Reader.char (· == c) >>= fun _ => Reader.literal word) := rfl
    rw [unfolded]
    refine (char relayout isChar).bind ((EndsWhole.char isChar).cleared _)
      ((EndsWhole.char isChar).cleared _) ?_
    rintro _ taken _ taken' ⟨d, isFirst, rfl, rfl⟩
    obtain rfl : d = c := by simpa using isFirst
    refine (ih fun e inside => solid e (List.mem_cons_of_mem d inside)).mono ?_
    rintro _ _ _ _ ⟨rfl, rfl⟩
    exact ⟨rfl, rfl⟩

/-- One of several words is the same in both texts, and is tried in the same order. -/
theorem wordOf (relayout : Relayout R) {words : List (List Char)}
    (solid : ∀ word ∈ words, ∀ c ∈ word, isBlank c = false) :
    Parallel R (fun word taken word' taken' =>
        word ∈ words ∧ word' = word ∧ taken = word ∧ taken' = word)
      (wordOf words) (wordOf words) := by
  intro place place' level
  have unfolded : ∀ place, settled (Reader.wordOf words) place = words.flatMap fun word =>
      (settled (Reader.literal word) place).map fun read => (word, read.2) := by
    intro place
    unfold settled Reader.wordOf
    rw [List.filter_flatMap]
    congr
    funext word
    rw [List.filter_map]
    rfl
  rw [unfolded, unfolded]
  -- Along the list of words, of which each is a literal.
  have general : ∀ listed : List (List Char), (∀ word ∈ listed, word ∈ words) → List.Forall₂
      (ReadAlike R (fun word taken word' taken' =>
        word ∈ words ∧ word' = word ∧ taken = word ∧ taken' = word) place place')
      (listed.flatMap fun word => (settled (Reader.literal word) place).map fun read =>
        (word, read.2))
      (listed.flatMap fun word => (settled (Reader.literal word) place').map fun read =>
        (word, read.2)) := by
    intro listed
    induction listed with
    | nil => exact fun _ => .nil
    | cons word listed ih =>
      intro among
      have member := among word List.mem_cons_self
      rw [List.flatMap_cons, List.flatMap_cons]
      refine List.rel_append ?_ (ih fun other isOther =>
        among other (List.mem_cons_of_mem word isOther))
      rw [List.forall₂_map_left_iff, List.forall₂_map_right_iff]
      refine (literal relayout (solid word member) place place' level).imp ?_
      rintro read read' ⟨taken, taken', took, took', ends, isWord, isWord'⟩
      exact ⟨taken, taken', took, took', ends, member, rfl, isWord, isWord'⟩
  exact general words fun _ member => member

/-- What may be missing is read in both texts or missing in both. -/
theorem optional (parallel : Parallel R P reader reader') :
    Parallel R (fun value taken value' taken' =>
        (∃ one one', value = some one ∧ value' = some one' ∧ P one taken one' taken') ∨
          value = none ∧ value' = none ∧ taken = [] ∧ taken' = [])
      (optional reader) (optional reader') := by
  intro place place' level
  have unfolded : ∀ {α : Type} (reader : Reader α) (place : Cursor), place.midBlank = false →
      settled (Reader.optional reader) place =
        (settled reader place).map (fun read => (some read.1, read.2)) ++ [(none, place)] := by
    intro α reader place whole
    unfold settled Reader.optional
    rw [List.filter_append, List.filter_map]
    simp only [List.filter_cons, whole, List.filter_nil]
    rfl
  rw [unfolded reader place level.whole, unfolded reader' place' level.whole']
  -- To read nothing comes last, after all that can be read.
  refine List.rel_append ?_ (.cons (nothing level (Or.inr ⟨rfl, rfl, rfl, rfl⟩)) .nil)
  rw [List.forall₂_map_left_iff, List.forall₂_map_right_iff]
  refine (parallel place place' level).imp ?_
  rintro read read' ⟨taken, taken', took, took', ends, related⟩
  exact ⟨taken, taken', took, took', ends, Or.inl ⟨_, _, rfl, rfl, related⟩⟩

/-- A stretch keeps what its reader takes. -/
theorem stretch (parallel : Parallel R P reader reader') :
    Parallel R (fun excerpt taken excerpt' taken' => excerpt.text = taken ∧ excerpt'.text = taken' ∧
        ∃ value value', P value taken value' taken')
      (stretch reader) (stretch reader') := by
  -- The places are those of the readings, and the text between them is what was taken.
  intro place place' level
  have unfolded : ∀ {α : Type} (reader : Reader α) (place : Cursor),
      settled (Reader.stretch reader) place =
        (settled reader place).map fun read =>
        (⟨place.rest, read.2.offset - place.offset⟩, read.2) := by
    intro α reader place
    unfold settled Reader.stretch
    rw [List.filter_map]
    rfl
  rw [unfolded reader place, unfolded reader' place', List.forall₂_map_left_iff,
    List.forall₂_map_right_iff]
  refine (parallel place place' level).imp ?_
  rintro read read' ⟨taken, taken', took, took', ends, related⟩
  exact ⟨taken, taken', took, took', ends, took.text_excerpt, took'.text_excerpt, _, _, related⟩

end Parallel

/-- Values in a row in either text, each related to its counterpart. -/
inductive RowAlike (P : α → List Char → α' → List Char → Prop) :
    List α → List Char → List α' → List Char → Prop where
  | nil : RowAlike P [] [] [] []
  | cons {value : α} {value' : α'} {values : List α} {values' : List α'}
      {one one' more more' : List Char} :
    P value one value' one' → RowAlike P values more values' more' →
    RowAlike P (value :: values) (one ++ more) (value' :: values') (one' ++ more')

namespace Parallel

/-- Readings of a row of values that end within blanks on the way can be left out. -/
theorem settled_many (cleared : Cleared reader fun _ => reader) {place : Cursor}
    (whole : place.midBlank = false) :
    settled (Reader.many reader) place = ((settled reader place).flatMap fun read =>
      if read.2.rest.length < place.rest.length then
        (settled (Reader.many reader) read.2).map fun further => (read.1 :: further.1, further.2)
      else []) ++ [([], place)] := by
  have last : List.filter (fun read : List α × Cursor => !read.2.midBlank) [([], place)] =
      [([], place)] := by
    simp [whole]
  unfold settled
  rw [Reader.many, List.filter_append, last, List.filter_flatMap]
  refine congrArg (· ++ [([], place)])
    (flatMap_eq_flatMap_filter (fun read member within => ?_) fun read _ _ => ?_)
  · -- Nothing more can be read within the blanks, so the row would end there.
    have stuck : reader read.2 = [] := cleared place whole read member (by simpa using within)
    have ends : Reader.many reader read.2 = [([], read.2)] := by
      rw [Reader.many, stuck]
      rfl
    dsimp only
    rw [ends]
    split <;> simp_all
  · dsimp only
    split
    · rw [List.filter_map]
      rfl
    · rfl

/-- A row of values is read alike, value for value. -/
theorem many (parallel : Parallel R P reader reader') (cleared : Cleared reader fun _ => reader)
    (cleared' : Cleared reader' fun _ => reader')
    (progress : ∀ value taken value' taken', P value taken value' taken' →
      taken ≠ [] ∧ taken' ≠ []) : Parallel R (RowAlike P) (many reader) (many reader') := by
  intro place place' level
  -- Every value takes something, so less is left behind it.
  induction sized : place.rest.length using Nat.strongRecOn generalizing place place' with
  | ind length ih =>
    rw [settled_many cleared level.whole, settled_many cleared' level.whole']
    refine List.rel_append ?_ (.cons (nothing level .nil) .nil)
    refine List.rel_flatMap (parallel place place' level) ?_
    rintro read read' ⟨taken, taken', took, took', ends, related⟩
    obtain ⟨nonempty, nonempty'⟩ := progress _ _ _ _ related
    have shorter : ∀ {place after : Cursor} {taken : List Char},
        Took place taken after → taken ≠ [] →
          after.rest.length < place.rest.length := by
      intro place after taken took nonempty
      have := List.length_pos_iff.mpr nonempty
      rw [took.rest, List.length_append]
      omega
    dsimp only
    rw [if_pos (shorter took nonempty), if_pos (shorter took' nonempty'), List.forall₂_map_left_iff,
      List.forall₂_map_right_iff]
    refine (ih _ (sized ▸ shorter took nonempty) _ _ ends rfl).imp ?_
    rintro further further' ⟨more, more', tookMore, tookMore', endsMore, row⟩
    exact ⟨taken ++ more, taken' ++ more', took.trans tookMore, took'.trans tookMore', endsMore,
      .cons related row⟩

/-- The stops within a run of blanks are not settled, apart from the one behind it. -/
theorem filter_stops_blanks (blanksFit : ∀ c, isBlank c = true → p c = true) {run : List Char}
    (allBlank : ∀ c ∈ run, isBlank c = true) (offset : Nat) (blank : before.any isBlank = true) :
    (stops p offset before (run ++ rest)).filter (!·.midBlank) =
      (stops p (offset + run.length) (run.getLast?.or before) rest).filter (!·.midBlank) := by
  -- All stops before the last blank are within blanks.
  induction run generalizing offset before with
  | nil => rfl
  | cons c run ih =>
    have isBlank := allBlank c List.mem_cons_self
    have within : Cursor.midBlank ⟨offset, before, c :: (run ++ rest)⟩ = true := by
      simp [Cursor.midBlank, blank, isBlank]
    have later :=
      @ih (some c) (fun d inside => allBlank d (List.mem_cons_of_mem c inside)) (offset + 1) isBlank
    rw [List.cons_append, stops, if_pos (blanksFit c isBlank),
      List.filter_cons_of_neg (by simp [within]), later, getLast?_or_cons before, List.length_cons,
      Nat.add_assoc, Nat.add_comm 1]

/-- The settled readings of a run, which are its settled stops from the last to the first. -/
theorem settled_run (p : Char → Bool) (place : Cursor) :
    settled (Reader.run p) place =
      ((stops p place.offset place.before place.rest).filter (!·.midBlank)).reverse.map fun stop =>
      ((), stop) := by
  unfold settled Reader.run
  rw [List.filter_map, ← List.filter_reverse]
  rfl

/-- Two stops in texts that look alike. -/
def StopAlike (R : List Char → List Char → Prop) (P : List Char → List Char → Prop)
    (place place' stop stop' : Cursor) :
    Prop :=
  ReadAlike R (fun _ taken _ taken' => P taken taken') place place' ((), stop) ((), stop')

/-- Runs with like stops are read alike. -/
theorem run_of_stops {P : List Char → List Char → Prop}
    (alike : ∀ place place', Abreast R place place' → List.Forall₂ (StopAlike R P place place')
      ((stops p place.offset place.before place.rest).filter (!·.midBlank))
      ((stops p place'.offset place'.before place'.rest).filter (!·.midBlank))) :
    Parallel R (fun _ taken _ taken' => P taken taken') (Reader.run p) (Reader.run p) := by
  intro place place' level
  rw [settled_run, settled_run, List.forall₂_map_left_iff, List.forall₂_map_right_iff]
  exact List.rel_reverse (alike place place' level)

/-- A stop behind what was taken before counts from the earlier place. -/
theorem StopAlike.behind {P Q : List Char → List Char → Prop}
    {place middle middle' stop stop' : Cursor} {one one' : List Char} (took : Took place one middle)
    (took' : Took place' one' middle') (alike : StopAlike R P middle middle' stop stop')
    (further : ∀ more more', P more more' → Q (one ++ more) (one' ++ more')) :
    StopAlike R Q place place' stop stop' := by
  obtain ⟨more, more', tookMore, tookMore', ends, related⟩ := alike
  exact ⟨one ++ more, one' ++ more', took.trans tookMore, took'.trans tookMore', ends,
    further _ _ related⟩

/-- A run of a class without blanks is the same in both texts. -/
theorem run (relayout : Relayout R) (solid : Solid p) :
    Parallel R (fun _ taken _ taken' => taken = taken' ∧ ∀ c ∈ taken, p c = true) (run p)
      (run p) := by
  refine run_of_stops ?_
  rintro ⟨offset, before, text⟩ ⟨offset', before', text'⟩ level
  induction text generalizing offset before offset' before' text' with
  | nil =>
    -- At the end of the texts there is only the stop at this place.
    obtain rfl : text' = [] := relayout.nil level.rest
    have whole := level.whole
    have whole' := level.whole'
    simp only [stops, List.filter_cons, whole, whole', List.filter_nil]
    exact .cons (nothing level ⟨rfl, by simp⟩) .nil
  | cons c rest ih =>
    have here : StopAlike R (fun taken taken' => taken = taken' ∧ ∀ c ∈ taken, p c = true)
        ⟨offset, before, c :: rest⟩ ⟨offset', before', text'⟩ ⟨offset, before, c :: rest⟩
          ⟨offset', before', text'⟩ :=
      nothing level ⟨rfl, by simp⟩
    by_cases fits : p c = true
    · -- The character is no blank, so it stands in both texts.
      have notBlank := solid.isBlank_eq fits
      obtain ⟨rest', rfl, alikeRest⟩ := relayout.solid notBlank level.rest
      have later :=
        ih (offset + 1) (some c) (offset' + 1) (some c) rest' (abreast_of_solid notBlank alikeRest)
      have whole := level.whole
      have whole' := level.whole'
      simp only [stops, fits, if_true, List.filter_cons, whole, whole', Bool.not_false]
      refine .cons here (later.imp fun stop stop' alike => ?_)
      refine alike.behind (Took.beyond offset before [c] rest)
        (Took.beyond offset' before' [c] rest') ?_
      rintro more more' ⟨rfl, all⟩
      exact ⟨rfl, by simpa [fits] using all⟩
    · -- The run ends here in the one text, and so it does in the other.
      have whole := level.whole
      have whole' := level.whole'
      have same := relayout.any_head? solid level.rest
      have ended : (text'.head?.any p) = false := by rw [← same]; simpa using fits
      simp only [stops, fits, List.filter_cons, whole]
      cases text' with
      | nil =>
        simp only [stops, List.filter_cons, whole']
        exact .cons here .nil
      | cons d rest' =>
        have fits' : ¬ p d = true := by simpa using ended
        simp only [stops, fits', List.filter_cons, whole']
        exact .cons here .nil

/-- The place behind a run of blanks. -/
theorem took_blanks (blank : isBlank c = true) (offset : Nat) (before : Option Char)
    (rest : List Char) :
    ∃ run, rest = run ++ trimStart rest ∧ (∀ d ∈ c :: run, isBlank d = true) ∧
      (run.getLast?.or (some c)).any isBlank = true ∧
      Took ⟨offset, before, c :: rest⟩ (c :: run)
        ⟨offset + 1 + run.length, run.getLast?.or (some c), trimStart rest⟩ := by
  obtain ⟨run, split, allBlank⟩ := exists_trimStart rest
  have all : ∀ d ∈ c :: run, isBlank d = true := by simpa [blank] using allBlank
  refine ⟨run, split, all, ?_, ?_, ?_⟩
  · rw [getLast?_or_cons none]
    cases last : (c :: run).getLast? with
    | none => simp at last
    | some d => exact all d (List.mem_of_getLast? last)
  · rw [List.cons_append, ← split]
  · exact Cursor.beyond_cons offset before c run (trimStart rest)

/-- A run of a class with all the blanks in it ends alike in both texts. -/
theorem spacedRun (relayout : Relayout R) (blanksFit : ∀ c, isBlank c = true → p c = true) :
    Parallel R (fun _ taken _ taken' => (∀ c ∈ taken, p c = true) ∧ ∀ c ∈ taken', p c = true)
      (Reader.run p) (Reader.run p) := by
  refine run_of_stops ?_
  rintro ⟨offset, before, text⟩ ⟨offset', before', text'⟩ level
  -- The induction passes over a run of blanks in one step.
  induction sized : text.length using Nat.strongRecOn generalizing offset before text offset'
    before' text' with
  | ind length ih =>
    subst sized
    have whole := level.whole
    have whole' := level.whole'
    have here :
      StopAlike R (fun taken taken' => (∀ c ∈ taken, p c = true) ∧ ∀ c ∈ taken', p c = true)
        ⟨offset, before, text⟩ ⟨offset', before', text'⟩ ⟨offset, before, text⟩
          ⟨offset', before', text'⟩ :=
      nothing level ⟨by simp, by simp⟩
    cases text with
    | nil =>
      obtain rfl : text' = [] := relayout.nil level.rest
      simp only [stops, List.filter_cons, whole, whole', List.filter_nil]
      exact .cons here .nil
    | cons c rest =>
      by_cases blank : isBlank c = true
      · -- Behind the stop before the blanks comes the one behind them.
        obtain ⟨d, rest', rfl, blank', alikeRest⟩ := relayout.blank blank level.rest
        obtain ⟨run, split, all, last, took⟩ := took_blanks blank offset before rest
        obtain ⟨run', split', all', last', took'⟩ := took_blanks blank' offset' before' rest'
        have later :=
          ih _ (by have := length_trimStart_le rest; simp; omega) (offset + 1 + run.length)
          (run.getLast?.or (some c)) (trimStart rest) (offset' + 1 + run'.length)
            (run'.getLast?.or (some d))
          (trimStart rest') (abreast_of_trimStart alikeRest last last') rfl
        have passed := @filter_stops_blanks p (trimStart rest) (some c) blanksFit run
          (fun e inside => all e (List.mem_cons_of_mem c inside)) (offset + 1) blank
        have passed' := @filter_stops_blanks p (trimStart rest') (some d) blanksFit run'
          (fun e inside => all' e (List.mem_cons_of_mem d inside)) (offset' + 1) blank'
        rw [← split] at passed
        rw [← split'] at passed'
        simp only [stops, blanksFit c blank, blanksFit d blank', if_true, List.filter_cons, whole,
          whole', Bool.not_false, passed, passed']
        refine .cons here (later.imp fun stop stop' alike => alike.behind took took' ?_)
        rintro more more' ⟨fits, fits'⟩
        exact ⟨List.forall_mem_append.mpr ⟨fun e inside => blanksFit e (all e inside), fits⟩,
          List.forall_mem_append.mpr ⟨fun e inside => blanksFit e (all' e inside), fits'⟩⟩
      · -- The character stands in both texts, and the run goes on behind it or ends before it in
        -- both.
        have notBlank : isBlank c = false := by simpa using blank
        obtain ⟨rest', rfl, alikeRest⟩ := relayout.solid notBlank level.rest
        by_cases fits : p c = true
        · have later := ih _ (by simp) (offset + 1) (some c) rest (offset' + 1) (some c) rest'
            (abreast_of_solid notBlank alikeRest) rfl
          simp only [stops, fits, if_true, List.filter_cons, whole, whole', Bool.not_false]
          refine .cons here (later.imp fun stop stop' alike => ?_)
          refine alike.behind (Took.beyond offset before [c] rest)
            (Took.beyond offset' before' [c] rest') ?_
          rintro more more' ⟨all, all'⟩
          exact ⟨by simpa [fits] using all, by simpa [fits] using all'⟩
        · simp only [stops, fits, List.filter_cons, whole, whole']
          exact .cons here .nil

/-- At least one character that is no blank is read alike. -/
theorem run1 (relayout : Relayout R) (solid : Solid p) :
    Parallel R (fun _ taken _ taken' => taken = taken' ∧ taken ≠ [] ∧ ∀ c ∈ taken, p c = true)
      (Reader.run1 p) (Reader.run1 p) := by
  refine (char relayout solid).bind ((EndsWhole.char solid).cleared _)
    ((EndsWhole.char solid).cleared _) ?_
  rintro _ taken _ taken' ⟨c, fits, rfl, rfl⟩
  refine (run relayout solid).mono ?_
  rintro _ more _ more' ⟨rfl, all⟩
  exact ⟨rfl, by simp, by simpa [fits] using all⟩

/-- At least one blank is a blank and a run of them. -/
theorem settled_run1 (offset : Nat) (before : Option Char) (c : Char) (rest : List Char) :
    settled (Reader.run1 isBlank) ⟨offset, before, c :: rest⟩ =
      if isBlank c = true then settled (Reader.run isBlank) ⟨offset + 1, some c, rest⟩ else [] := by
  have parts : Reader.run1 isBlank ⟨offset, before, c :: rest⟩ =
      (Reader.char isBlank ⟨offset, before, c :: rest⟩).flatMap fun read =>
        Reader.run isBlank read.2 := rfl
  unfold settled
  rw [parts]
  by_cases blank : isBlank c = true
  · simp [Reader.char, blank]
  · simp [Reader.char, blank]

/-- Behind a blank, only the end of the run that it belongs to is settled. -/
theorem settled_blanks (blank : isBlank c = true) (offset : Nat) (before : Option Char)
    (rest : List Char) :
    ∃ run last, settled (Reader.run isBlank) ⟨offset + 1, some c, rest⟩ =
        [((), ⟨last, run.getLast?.or (some c), trimStart rest⟩)] ∧
      (∀ d ∈ c :: run, isBlank d = true) ∧ (run.getLast?.or (some c)).any isBlank = true ∧
      Took ⟨offset, before, c :: rest⟩
        (c :: run) ⟨last, run.getLast?.or (some c), trimStart rest⟩ := by
  obtain ⟨run, split, all, last, took⟩ := took_blanks blank offset before rest
  refine ⟨run, _, ?_, all, last, took⟩
  -- The stops within the run are passed over, and no blank comes behind it.
  have passed := @filter_stops_blanks isBlank (trimStart rest) (some c) (fun _ => id) run
    (fun e inside => all e (List.mem_cons_of_mem c inside)) (offset + 1) blank
  rw [← split] at passed
  have ended := head?_trimStart rest
  rw [settled_run]
  simp only [passed]
  cases rear : trimStart rest with
  | nil => simp [stops, Cursor.midBlank]
  | cons e more =>
    rw [rear] at ended
    have notBlank : ¬ isBlank e = true := by simpa using ended
    simp [stops, notBlank, Cursor.midBlank]

/-- At least one blank is read alike in both texts, whatever their number. -/
theorem blanks1 (relayout : Relayout R) :
    Parallel R (fun _ taken _ taken' => (taken ≠ [] ∧ ∀ c ∈ taken, isBlank c = true) ∧
        taken' ≠ [] ∧ ∀ c ∈ taken', isBlank c = true)
      (Reader.run1 isBlank) (Reader.run1 isBlank) := by
  rintro ⟨offset, before, text⟩ ⟨offset', before', text'⟩ level
  have alike : R text text' := level.rest
  cases text with
  | nil =>
    rw [relayout.nil alike]
    exact .nil
  | cons c rest =>
    by_cases blank : isBlank c = true
    · obtain ⟨d, rest', rfl, blank', alikeRest⟩ := relayout.blank blank alike
      obtain ⟨run, stop, isOnly, all, last, took⟩ := settled_blanks blank offset before rest
      obtain ⟨run', stop', isOnly', all', last', took'⟩ :=
        settled_blanks blank' offset' before' rest'
      rw [settled_run1, settled_run1, if_pos blank, if_pos blank', isOnly, isOnly']
      exact .cons ⟨_, _, took, took', abreast_of_trimStart alikeRest last last',
        ⟨by simp, all⟩, by simp, all'⟩ .nil
    · -- Neither text has a blank here.
      obtain ⟨rest', rfl, _⟩ := relayout.solid (by simpa using blank) alike
      rw [settled_run1, settled_run1, if_neg blank, if_neg blank]
      exact .nil

end Parallel

/-- What two readings take looks alike. -/
theorem ReadAlike.squeezed (relayout : Relayout R) {place : Cursor} (level : Abreast R place place')
    {read : α × Cursor} {read' : α' × Cursor} (alike : ReadAlike R P place place' read read') :
    ReadAlike R (fun value taken value' taken' => P value taken value' taken' ∧
      Text.squeezed taken = Text.squeezed taken') place place' read read' := by
  obtain ⟨taken, taken', took, took', ends, related⟩ := alike
  refine ⟨taken, taken', took, took', ends, related, ?_⟩
  -- No run of blanks reaches over the end of what was taken.
  have split : ∀ {place after : Cursor} {taken : List Char}, Took place taken after →
      after.midBlank = false →
        Text.squeezed place.rest = Text.squeezed taken ++ Text.squeezed after.rest := by
    intro place after taken took whole
    rw [took.rest]
    refine squeezed_append ?_
    rw [took.after, Cursor.midBlank, Bool.and_eq_false_iff] at whole
    refine whole.imp (fun solid => ?_) id
    cases last : taken.getLast? with
    | none => rfl
    | some c => simpa [Cursor.beyond, last] using solid
  have whole := relayout.squeezed_eq level.rest
  rw [split took ends.whole, split took' ends.whole', relayout.squeezed_eq ends.rest] at whole
  exact List.append_cancel_right whole

/-- What parallel readers take is the same with its blanks squeezed. -/
theorem Parallel.squeezed (relayout : Relayout R) (parallel : Parallel R P reader reader') :
    Parallel R (fun value taken value' taken' => P value taken value' taken' ∧
      Text.squeezed taken = Text.squeezed taken') reader reader' :=
  fun place place' level => (parallel place place' level).imp fun _ _ alike =>
    alike.squeezed relayout level

end Reader

end Lineage.Text
