import Lineage.Text.Reader
import Mathlib.Data.List.Basic

/-! What readers read: which texts a reading takes, and which reading is preferred. -/

namespace Lineage.Text

/-- The place behind a stretch of text, with what follows it. -/
def Cursor.beyond (offset : Nat) (before : Option Char) (taken rest : List Char) : Cursor :=
  ⟨offset + taken.length, taken.getLast?.or before, rest⟩

/-- Nothing taken leaves the place as it is. -/
@[simp] theorem Cursor.beyond_nil (offset : Nat) (before : Option Char) (rest : List Char) :
    Cursor.beyond offset before [] rest = ⟨offset, before, rest⟩ :=
  rfl

@[simp] theorem Cursor.rest_beyond (offset : Nat) (before : Option Char) (taken rest : List Char) :
    (Cursor.beyond offset before taken rest).rest = rest :=
  rfl

/-- Beyond a stretch that is not empty less is left than before it. -/
theorem Cursor.length_beyond_lt (offset : Nat) (before : Option Char) {taken : List Char}
    (nonempty : taken ≠ []) (rest : List Char) :
    (Cursor.beyond offset before taken rest).rest.length < (taken ++ rest).length := by
  have := List.length_pos_iff.mpr nonempty
  rw [Cursor.rest_beyond, List.length_append]
  omega

@[simp] theorem Cursor.offset_beyond (offset : Nat) (before : Option Char)
    (taken rest : List Char) :
    (Cursor.beyond offset before taken rest).offset = offset + taken.length :=
  rfl

/-- Two stretches taken one after the other are one stretch. -/
theorem Cursor.beyond_append (offset : Nat) (before : Option Char) (one other rest : List Char) :
    Cursor.beyond (offset + one.length) (one.getLast?.or before) other rest =
      Cursor.beyond offset before (one ++ other) rest := by
  simp only [Cursor.beyond, List.length_append, List.getLast?_append, Option.or_assoc,
    Cursor.mk.injEq, and_true]
  omega

/-- One character taken before a stretch is part of it. -/
theorem Cursor.beyond_cons (offset : Nat) (before : Option Char) (c : Char)
    (taken rest : List Char) :
    Cursor.beyond (offset + 1) (some c) taken rest = Cursor.beyond offset before
      (c :: taken) rest :=
  Cursor.beyond_append offset before [c] taken rest

/-- Behind a character the last one taken does not depend on what came before. -/
theorem getLast?_or_cons (before : Option Char) (c : Char) (taken : List Char) :
    taken.getLast?.or (some c) = (c :: taken).getLast?.or before :=
  congrArg Cursor.before (Cursor.beyond_cons 0 before c taken [])

namespace Reader

variable {α β : Type}

variable {place : Cursor} {first reader : Reader α} {next : α → Reader β} {result : Unit × Cursor}
  {offset : Nat} {before : Option Char} {text : List Char} {found : Found α}

theorem mem_pure {value : α} {result : α × Cursor} :
    result ∈ (pure value : Reader α) place ↔ result = (value, place) :=
  List.mem_singleton

/-- A reading of two parts in a row is a reading of the second where one of the first ends. -/
theorem mem_bind {result : β × Cursor} :
    result ∈ (first >>= next) place ↔
      ∃ value middle, (value, middle) ∈ first place ∧ result ∈ next value middle := by
  -- Readings in a row are all those of the second part behind each one of the first.
  show result ∈ (first place).flatMap (fun read => next read.1 read.2) ↔ _
  simp only [List.mem_flatMap, Prod.exists]

/-- The preferred reading of two parts in a row is preferred where some reading of the first one
ends. -/
theorem exists_of_head?_bind {result : β × Cursor}
    (isHead : ((first >>= next) place).head? = some result) :
    ∃ value middle, (value, middle) ∈ first place ∧ (next value middle).head? = some result := by
  have parts : (first >>= next) place = (first place).flatMap fun read => next read.1 read.2 := rfl
  rw [parts, List.head?_flatMap] at isHead
  obtain ⟨⟨value, middle⟩, member, found⟩ := List.exists_of_findSome?_eq_some isHead
  exact ⟨value, middle, member, found⟩

/-- What is made of the values leaves the order of the readings as it is. -/
theorem head?_bind_pure (reader : Reader α) (f : α → β) (place : Cursor) :
    ((reader >>= fun value => pure (f value)) place).head? =
      (reader place).head?.map fun read => (f read.1, read.2) := by
  have parts : (reader >>= fun value => pure (f value)) place =
      (reader place).flatMap fun read => [(f read.1, read.2)] := rfl
  rw [parts, ← List.map_eq_flatMap, List.head?_map]

/-- A character is read if it stands there and fits. -/
theorem mem_char {p : Char → Bool} :
    result ∈ char p ⟨offset, before, text⟩ ↔
      ∃ c rest, text = c :: rest ∧ p c = true ∧ result = ((), .beyond offset before [c] rest) := by
  cases text with
  | nil => simp [char]
  | cons c rest =>
    by_cases fits : p c
    · simp [char, fits, Cursor.beyond]
    · simp [char, fits]

/-- A literal reads its own text and nothing else. -/
theorem mem_literal {word : List Char} :
    result ∈ literal word ⟨offset, before, text⟩ ↔
      ∃ rest, text = word ++ rest ∧ result = ((), .beyond offset before word rest) := by
  induction word generalizing offset before text with
  | nil => simp [literal]
  | cons c word ih =>
    -- The first character is read alone, and the rest of the word one place further.
    simp only [literal, List.mem_flatMap, Prod.exists, mem_char, beq_iff_eq]
    constructor
    · rintro ⟨_, _, ⟨_, rest, rfl, rfl, same⟩, read⟩
      cases same
      obtain ⟨rest, rfl, rfl⟩ := ih.mp read
      exact ⟨rest, rfl, by rw [← Cursor.beyond_cons offset before]; rfl⟩
    · rintro ⟨rest, rfl, rfl⟩
      refine ⟨(), _, ⟨c, word ++ rest, rfl, rfl, rfl⟩, ?_⟩
      exact ih.mpr ⟨rest, rfl, by rw [← Cursor.beyond_cons offset before]; rfl⟩

/-- One of several words is read if it stands there. -/
theorem mem_wordOf {words : List (List Char)} {result : List Char × Cursor} :
    result ∈ wordOf words ⟨offset, before, text⟩ ↔
      ∃ word ∈ words, ∃ rest, text = word ++ rest ∧ result =
        (word, .beyond offset before word rest) := by
  -- A word is read as a literal, with itself as the value.
  simp only [wordOf, List.mem_flatMap, List.mem_map, Prod.exists]
  constructor
  · rintro ⟨word, listed, _, _, read, rfl⟩
    obtain ⟨rest, split, same⟩ := mem_literal.mp read
    cases same
    exact ⟨word, listed, rest, split, rfl⟩
  · rintro ⟨word, listed, rest, split, rfl⟩
    exact ⟨word, listed, (), _, mem_literal.mpr ⟨rest, split, rfl⟩, rfl⟩

/-- The stops within a class are the places behind the stretches of that class. -/
theorem mem_stops {p : Char → Bool} {stop : Cursor} :
    stop ∈ stops p offset before text ↔
      ∃ taken rest, text = taken ++ rest ∧ (∀ c ∈ taken, p c = true) ∧
        stop = .beyond offset before taken rest := by
  induction text generalizing offset before with
  | nil =>
    -- At the end of the text only the empty stretch is left.
    simp only [stops, List.mem_singleton]
    constructor
    · rintro rfl
      exact ⟨[], [], rfl, by simp, rfl⟩
    · rintro ⟨taken, rest, split, _, rfl⟩
      obtain ⟨rfl, rfl⟩ := List.append_eq_nil_iff.mp split.symm
      rfl
  | cons c text ih =>
    simp only [stops, List.mem_cons]
    constructor
    · -- The first stop takes nothing, and the others take at least the first character.
      rintro (rfl | further)
      · exact ⟨[], c :: text, rfl, by simp, rfl⟩
      · by_cases fits : p c
        · rw [if_pos fits] at further
          obtain ⟨taken, rest, rfl, all, rfl⟩ := ih.mp further
          refine ⟨c :: taken, rest, rfl, ?_, Cursor.beyond_cons offset before c taken rest⟩
          simpa [fits] using all
        · rw [if_neg fits] at further
          exact absurd further List.not_mem_nil
    · -- An empty stretch ends at the first stop, and a longer one within what follows.
      rintro ⟨taken, rest, split, all, rfl⟩
      cases taken with
      | nil =>
        rw [List.nil_append] at split
        exact Or.inl (by rw [← split]; rfl)
      | cons d taken =>
        obtain ⟨rfl, rfl⟩ := List.cons.inj split
        have fits := all c List.mem_cons_self
        rw [if_pos fits]
        refine Or.inr (ih.mpr ⟨taken, rest, rfl, fun d inside =>
          all d (List.mem_cons_of_mem c inside), ?_⟩)
        exact (Cursor.beyond_cons offset before c taken rest).symm

/-- A run is read as far as characters fit, or less far. -/
theorem mem_run {p : Char → Bool} :
    result ∈ run p ⟨offset, before, text⟩ ↔
      ∃ taken rest, text = taken ++ rest ∧ (∀ c ∈ taken, p c = true) ∧
        result = ((), .beyond offset before taken rest) := by
  -- The order of the stops does not matter here.
  simp only [run, List.mem_map, List.mem_reverse, mem_stops]
  constructor
  · rintro ⟨_, ⟨taken, rest, split, all, rfl⟩, rfl⟩
    exact ⟨taken, rest, split, all, rfl⟩
  · rintro ⟨taken, rest, split, all, rfl⟩
    exact ⟨_, ⟨taken, rest, split, all, rfl⟩, rfl⟩

/-- A run of at least one is read as far as characters fit, or less far. -/
theorem mem_run1 {p : Char → Bool} :
    result ∈ run1 p ⟨offset, before, text⟩ ↔
      ∃ taken rest, text = taken ++ rest ∧ taken ≠ [] ∧ (∀ c ∈ taken, p c = true) ∧
        result = ((), .beyond offset before taken rest) := by
  -- The first character is read alone, and a run follows it.
  simp only [run1, mem_bind, mem_char]
  constructor
  · rintro ⟨_, _, ⟨c, rest, rfl, fits, same⟩, read⟩
    cases same
    obtain ⟨taken, rest, rfl, all, rfl⟩ := mem_run.mp read
    refine ⟨c :: taken, rest, rfl, by simp, by simpa [fits] using all, ?_⟩
    rw [← Cursor.beyond_cons offset before]
    rfl
  · rintro ⟨taken, rest, rfl, nonempty, all, rfl⟩
    obtain ⟨c, taken, rfl⟩ := List.exists_cons_of_ne_nil nonempty
    refine ⟨(), _, ⟨c, taken ++ rest, rfl, all c List.mem_cons_self, rfl⟩, mem_run.mpr ?_⟩
    refine ⟨taken, rest, rfl, fun d inside => all d (List.mem_cons_of_mem c inside), ?_⟩
    rw [← Cursor.beyond_cons offset before]
    rfl

/-- What may be skipped is read, or nothing is. -/
theorem mem_optional {result : Option α × Cursor} :
    result ∈ optional reader place ↔
      (∃ value after, (value, after) ∈ reader place ∧ result = (some value, after)) ∨ result =
      (none, place) := by
  simp only [optional, List.mem_append, List.mem_map, List.mem_singleton, Prod.exists]
  constructor <;> rintro (⟨value, after, read, same⟩ | same)
  · exact Or.inl ⟨value, after, read, same.symm⟩
  · exact Or.inr same
  · exact Or.inl ⟨value, after, read, same.symm⟩
  · exact Or.inr same

/-- Any number of readings is one and then any number, or none. -/
theorem mem_many {values : List α} {last : Cursor} :
    (values, last) ∈ many reader place ↔
      (∃ value after more, (value, after) ∈ reader place ∧ after.rest.length < place.rest.length ∧
        (more, last) ∈ many reader after ∧ values = value :: more) ∨
          (values = [] ∧ last = place) := by
  -- Either one more value is read, and what follows it, or the reading stops.
  rw [many]
  simp only [List.mem_append, List.mem_flatMap, Prod.exists, List.mem_singleton, Prod.mk.injEq]
  constructor
  · rintro (⟨value, after, read, further⟩ | stop)
    · by_cases shorter : after.rest.length < place.rest.length
      · rw [if_pos shorter] at further
        simp only [List.mem_map, Prod.exists, Prod.mk.injEq] at further
        obtain ⟨more, _, further, rfl, rfl⟩ := further
        exact Or.inl ⟨value, after, more, read, shorter, further, rfl⟩
      · -- A value that takes nothing is not counted.
        rw [if_neg shorter] at further
        exact absurd further List.not_mem_nil
    · exact Or.inr stop
  · rintro (⟨value, after, more, read, shorter, further, rfl⟩ | stop)
    · refine Or.inl ⟨value, after, read, ?_⟩
      rw [if_pos shorter]
      exact List.mem_map.mpr ⟨(more, last), further, rfl⟩
    · exact Or.inr stop

/-- The text of a reading is what lies between its places. -/
theorem mem_stretch {result : Excerpt × Cursor} :
    result ∈ stretch reader place ↔
      ∃ value after, (value, after) ∈ reader place ∧
        result = (⟨place.rest, after.offset - place.offset⟩, after) := by
  simp only [stretch, List.mem_map, Prod.exists]
  constructor <;> rintro ⟨value, after, read, same⟩ <;> exact ⟨value, after, read, same.symm⟩

/-- A test takes nothing where it holds, and fails elsewhere. -/
theorem mem_ensure {p : Cursor → Bool} :
    result ∈ ensure p place ↔ p place = true ∧ result = ((), place) := by
  unfold ensure
  by_cases holds : p place
  · simp [holds]
  · simp [holds]

/-- What comes next is read behind the only reading of the first part. -/
theorem bind_eq_of_singleton {after : Cursor} {value : α} (only : first place = [(value, after)])
    (next : α → Reader β) : (first >>= next) place = next value after := by
  show (first place).flatMap (fun read => next read.1 read.2) = _
  rw [only, List.flatMap_singleton]

/-- Where the first part cannot be read, nothing can. -/
theorem bind_eq_nil (fails : first place = []) (next : α → Reader β) :
    (first >>= next) place = [] := by
  show (first place).flatMap (fun read => next read.1 read.2) = _
  rw [fails, List.flatMap_nil]

/-- What follows as many values as possible is tried with none only at last. -/
theorem many_bind (reader : Reader α) (next : Reader β) (place : Cursor) :
    (many reader >>= fun _ => next) place =
      ((reader place).flatMap fun read =>
        if read.2.rest.length < place.rest.length then
          (many reader >>= fun _ => next) read.2 else []) ++
      next place := by
  -- After each turn that gets further there may be more, and then what is next follows.
  have unfolded : ∀ place, (many reader >>= fun _ => next) place =
      (many reader place).flatMap fun read => next read.2 := fun _ => rfl
  simp only [unfolded]
  rw [many, List.flatMap_append, List.flatMap_assoc, List.flatMap_singleton]
  congr 2
  funext read
  by_cases shorter : read.2.rest.length < place.rest.length
  · simp [shorter, List.flatMap_map]
  · simp [shorter]

/-- Every reading takes a stretch of characters that satisfy a condition. -/
def Takes (reader : Reader α) (p : Char → Prop) : Prop :=
  ∀ offset before text value after, (value, after) ∈ reader ⟨offset, before, text⟩ →
    ∃ taken rest, text = taken ++ rest ∧ (∀ c ∈ taken, p c) ∧
      after = .beyond offset before taken rest

namespace Takes

variable {p : Char → Prop}

theorem mono {q : Char → Prop} (takes : Takes reader q) (weaker : ∀ c, q c → p c) :
    Takes reader p := by
  intro offset before text value after read
  obtain ⟨taken, rest, split, all, isAfter⟩ := takes offset before text value after read
  exact ⟨taken, rest, split, fun c inside => weaker c (all c inside), isAfter⟩

theorem pure (value : α) : Takes (Pure.pure value : Reader α) p := by
  intro offset before text other after read
  cases mem_pure.mp read
  exact ⟨[], text, rfl, by simp, rfl⟩

/-- Readers in a row take only what each of them takes. -/
theorem bind (takesFirst : Takes first p) (takesNext : ∀ value, Takes (next value) p) :
    Takes (first >>= next) p := by
  intro offset before text result last read
  obtain ⟨value, middle, readFirst, readNext⟩ := mem_bind.mp read
  obtain ⟨one, rest, rfl, allOne, rfl⟩ := takesFirst offset before text value middle readFirst
  obtain ⟨other, rest, rfl, allOther, rfl⟩ := takesNext value _ _ _ _ _ readNext
  -- The two stretches make one, and each of its characters belongs to one of them.
  refine ⟨one ++ other, rest, by simp, ?_, Cursor.beyond_append offset before one other rest⟩
  intro c inside
  exact (List.mem_append.mp inside).elim (allOne c) (allOther c)

variable {q : Char → Bool}

theorem char (fits : ∀ c, q c = true → p c) : Takes (Reader.char q) p := by
  intro offset before text value after read
  obtain ⟨c, rest, rfl, fit, same⟩ := mem_char.mp read
  cases same
  exact ⟨[c], rest, rfl, by simpa using fits c fit, rfl⟩

theorem ensure (q : Cursor → Bool) : Takes (Reader.ensure q) p := by
  intro offset before text value after read
  obtain ⟨_, same⟩ := mem_ensure.mp read
  cases same
  exact ⟨[], text, rfl, by simp, rfl⟩

/-- One of several words takes only their characters. -/
theorem wordOf {words : List (List Char)} (fits : ∀ word ∈ words, ∀ c ∈ word, p c) :
    Takes (Reader.wordOf words) p := by
  intro offset before text value after read
  obtain ⟨word, listed, rest, rfl, same⟩ := mem_wordOf.mp read
  cases same
  exact ⟨value, rest, rfl, fits value listed, rfl⟩

theorem literal {word : List Char} (fits : ∀ c ∈ word, p c) : Takes (Reader.literal word) p := by
  intro offset before text value after read
  obtain ⟨rest, rfl, same⟩ := mem_literal.mp read
  cases same
  exact ⟨word, rest, rfl, fits, rfl⟩

theorem run (fits : ∀ c, q c = true → p c) : Takes (Reader.run q) p := by
  intro offset before text value after read
  obtain ⟨taken, rest, rfl, all, same⟩ := mem_run.mp read
  cases same
  exact ⟨taken, rest, rfl, fun c inside => fits c (all c inside), rfl⟩

theorem run1 (fits : ∀ c, q c = true → p c) : Takes (Reader.run1 q) p :=
  bind (char fits) fun _ => run fits

/-- A reader that may be skipped takes only what the reader takes. -/
theorem optional (takes : Takes reader p) : Takes (Reader.optional reader) p := by
  intro offset before text result last read
  rcases mem_optional.mp read with ⟨value, after, readValue, same⟩ | same
  · cases same
    exact takes offset before text value _ readValue
  · cases same
    exact ⟨[], text, rfl, by simp, rfl⟩

/-- Any number of readings take only what each of them takes. -/
theorem many (takes : Takes reader p) : Takes (Reader.many reader) p := by
  -- Each further value is read from a shorter rest, so the induction is on the length of what is
  -- left.
  have general : ∀ length offset before text values last, text.length = length →
      (values, last) ∈ Reader.many reader ⟨offset, before, text⟩ →
      ∃ taken rest, text = taken ++ rest ∧ (∀ c ∈ taken, p c) ∧
        last = .beyond offset before taken rest := by
    intro length
    induction length using Nat.strongRecOn with
    | ind length ih =>
      intro offset before text values last sized read
      rcases mem_many.mp read with ⟨value, after, more, readValue, shorter, readMore, rfl⟩
        | ⟨rfl, rfl⟩
      · obtain ⟨one, rest, rfl, allOne, rfl⟩ := takes offset before text value after readValue
        obtain ⟨other, rest, rfl, allOther, rfl⟩ :=
          ih _ (sized ▸ shorter) _ _ _ _ _ rfl readMore
        refine ⟨one ++ other, rest, by simp, ?_, Cursor.beyond_append offset before one other rest⟩
        intro c inside
        exact (List.mem_append.mp inside).elim (allOne c) (allOther c)
      · exact ⟨[], text, rfl, by simp, rfl⟩
  intro offset before text values last read
  exact general text.length offset before text values last rfl read

theorem stretch (takes : Takes reader p) : Takes (Reader.stretch reader) p := by
  intro offset before text result last read
  obtain ⟨value, after, readValue, same⟩ := mem_stretch.mp read
  cases same
  exact takes offset before text value _ readValue

end Takes

/-- Every reading comes to a sign, and what stands before the sign satisfies a condition. -/
def Reaches (reader : Reader α) (p : Char → Prop) (sign : Char) : Prop :=
  ∀ offset before text result, result ∈ reader ⟨offset, before, text⟩ →
    ∃ front rest, text = front ++ sign :: rest ∧ ∀ c ∈ front, p c

namespace Reaches

variable {p : Char → Prop} {sign : Char}

theorem char (next : Unit → Reader β) : Reaches (Reader.char (· == sign) >>= next) p sign := by
  intro offset before text result read
  obtain ⟨_, _, readSign, _⟩ := mem_bind.mp read
  obtain ⟨c, rest, rfl, isSign, _⟩ := mem_char.mp readSign
  exact ⟨[], rest, by rw [beq_iff_eq.mp isSign]; rfl, by simp⟩

/-- A sign is reached behind what is taken first. -/
theorem behind (takes : Takes first p) (reaches : ∀ value, Reaches (next value) p sign) :
    Reaches (first >>= next) p sign := by
  intro offset before text result read
  obtain ⟨value, middle, readFirst, readNext⟩ := mem_bind.mp read
  obtain ⟨one, rest, rfl, allOne, rfl⟩ := takes offset before text value middle readFirst
  obtain ⟨front, rest, split, allFront⟩ := reaches value _ _ _ _ readNext
  exact ⟨one ++ front, rest, by rw [split, List.append_assoc],
    List.forall_mem_append.mpr ⟨allOne, allFront⟩⟩

end Reaches

/-- If nothing can be read at a place, nothing is found there. -/
theorem foundAt_eq_none (fails : reader place = []) : reader.foundAt place = none := by
  simp [foundAt, fails]

/-- What is found at a place is what a search from there finds. -/
theorem firstFrom_of_foundAt (here : reader.foundAt ⟨offset, before, text⟩ = some found) :
    reader.firstFrom offset before text = some found := by
  cases text with
  | nil => exact here
  | cons c text => rw [firstFrom, here, Option.some_or]

/-- The search for the first reading passes over a stretch in which none begins. -/
theorem firstFrom_append {taken rest : List Char}
    (fails : ∀ front c back, taken = front ++ c :: back →
      reader (.beyond offset before front (c :: back ++ rest)) = []) :
    reader.firstFrom offset before (taken ++ rest) =
      reader.firstFrom (offset + taken.length) (taken.getLast?.or before) rest := by
  induction taken generalizing offset before with
  | nil => rfl
  | cons c taken ih =>
    have here := foundAt_eq_none (fails [] c taken rfl)
    rw [Cursor.beyond_nil] at here
    -- Behind the first character the same holds of what is left.
    have later := @ih (offset + 1) (some c) fun front d back split => by
      rw [Cursor.beyond_cons offset before]
      exact fails (c :: front) d back (by rw [split]; rfl)
    rw [List.cons_append] at here ⊢
    rw [firstFrom, here, Option.none_or, later, getLast?_or_cons before, List.length_cons,
      Nat.add_assoc, Nat.add_comm 1]

/-- A search that finds nothing passes over every place. -/
theorem foundAt_of_firstFrom_none {front rest : List Char}
    (nothing : reader.firstFrom offset before (front ++ rest) = none) :
    reader.foundAt (.beyond offset before front rest) = none := by
  induction front generalizing offset before with
  | nil =>
    cases rest with
    | nil => exact nothing
    | cons c rest => exact (Option.or_eq_none_iff.mp nothing).1
  | cons c front ih =>
    -- Behind the first character the search goes on and finds nothing either.
    rw [← Cursor.beyond_cons offset before]
    exact ih (Option.or_eq_none_iff.mp nothing).2

/-- A search finds what is found at the first place where anything is found. -/
theorem exists_of_firstFrom_some (isFirst : reader.firstFrom offset before text = some found) :
    ∃ front rest, text = front ++ rest ∧ reader.foundAt
      (.beyond offset before front rest) = some found ∧
      ∀ front' rest', text = front' ++ rest' → front'.length < front.length →
        reader.foundAt (.beyond offset before front' rest') = none := by
  induction text generalizing offset before with
  | nil => exact ⟨[], [], rfl, isFirst, by simp⟩
  | cons c text ih =>
    rw [firstFrom, Option.or_eq_some_iff] at isFirst
    rcases isFirst with here | ⟨notHere, later⟩
    · exact ⟨[], c :: text, rfl, here, by simp⟩
    · obtain ⟨front, rest, rfl, isFound, earlier⟩ := ih later
      refine ⟨c :: front, rest, rfl, by rwa [← Cursor.beyond_cons offset before],
        fun front' rest' split shorter => ?_⟩
      -- An earlier place is the first one, or lies before the one found behind the first character.
      cases front' with
      | nil =>
        rw [← show c :: (front ++ rest) = rest' from split]
        exact notHere
      | cons d front' =>
        obtain ⟨rfl, behind⟩ := List.cons.inj split
        rw [← Cursor.beyond_cons offset before]
        exact earlier front' rest' behind (by simpa using shorter)

/-- All that is found was found at the place where it begins. -/
theorem foundAt_of_mem_allFrom {skip : Nat}
    (member : found ∈ reader.allFrom offset before skip text) :
    ∃ front rest, text = front ++ rest ∧ found.start = offset + front.length ∧
      reader.foundAt (.beyond offset before front rest) = some found := by
  induction text generalizing offset before skip with
  | nil => cases skip <;> cases member
  | cons c text ih =>
    -- What is found behind the first character has this character in front of it.
    have behind : ∀ {skip}, found ∈ reader.allFrom (offset + 1) (some c) skip text →
        ∃ front rest, c :: text = front ++ rest ∧ found.start = offset + front.length ∧
          reader.foundAt (.beyond offset before front rest) = some found := by
      intro skip later
      obtain ⟨front, rest, rfl, start, isFound⟩ := ih later
      refine ⟨c :: front, rest, rfl, by simp only [List.length_cons]; omega, ?_⟩
      rwa [← Cursor.beyond_cons offset before]
    cases skip with
    | succ skip => exact behind member
    | zero =>
      rw [allFrom] at member
      split at member
      · exact behind member
      · rename_i here atPlace
        rcases List.mem_cons.mp member with rfl | later
        · refine ⟨[], c :: text, rfl, ?_, atPlace⟩
          obtain ⟨_, _, rfl⟩ := Option.map_eq_some_iff.mp atPlace
          rfl
        · exact behind later

/-- Everything that is found in a text was read at some place. -/
theorem exists_of_mem_allFrom {skip : Nat}
    (member : found ∈ reader.allFrom offset before skip text) :
    ∃ place, (found.value, found.after) ∈ reader place := by
  obtain ⟨front, rest, _, _, isFound⟩ := foundAt_of_mem_allFrom member
  obtain ⟨⟨value, after⟩, first, rfl⟩ := Option.map_eq_some_iff.mp isFound
  exact ⟨_, List.mem_of_head? first⟩

end Reader

end Lineage.Text
