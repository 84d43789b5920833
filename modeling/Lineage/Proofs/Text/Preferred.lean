import Lineage.Proofs.Text.Reader

/-! The preferred reading: which of the ways to read a text comes first, and what a search therefore
finds. -/

namespace Lineage.Text.Reader

variable {α β : Type}

/-- A reader prefers to take a stretch of the text, with a value, when that is the first of its
readings. -/
def Prefers (reader : Reader α) (offset : Nat) (before : Option Char) (taken rest : List Char)
    (value : α) : Prop :=
  (reader ⟨offset, before, taken ++ rest⟩).head? = some (value, .beyond offset before taken rest)

variable {first reader : Reader α} {value : α}

namespace Prefers

variable {offset : Nat} {before : Option Char} {taken rest : List Char}

theorem pure (value : α) : Prefers (Pure.pure value) offset before [] rest value :=
  rfl

variable {one other : List Char} {result : β} {p : Char → Bool}

/-- Preferred parts in a row make the preferred whole. -/
theorem bind {next : α → Reader β} (here : Prefers first offset before one (other ++ rest) value)
    (onward : Prefers (next value) (offset + one.length) (one.getLast?.or before) other rest
      result) : Prefers (first >>= next) offset before (one ++ other) rest result := by
  unfold Prefers at here onward ⊢
  -- The readings behind the first reading of the first part come before all others.
  obtain ⟨more, readings⟩ := List.head?_eq_some_iff.mp here
  rw [Cursor.beyond_append] at onward
  show (List.flatMap _ (first ⟨offset, before, one ++ other ++ rest⟩)).head? = _
  rw [List.append_assoc, readings, List.flatMap_cons, List.head?_append]
  have there : (next value (Cursor.beyond offset before one (other ++ rest))).head? = _ := onward
  rw [there, Option.some_or]

/-- What is made of a value takes nothing more. -/
theorem map (here : Prefers reader offset before taken rest value) (f : α → β) :
    Prefers (reader >>= fun value => Pure.pure (f value)) offset before taken rest (f value) := by
  have whole : Prefers (reader >>= fun value => Pure.pure (f value)) offset before (taken ++ [])
    rest (f value) :=
    bind here (pure (f value))
  rwa [List.append_nil] at whole

theorem char {c : Char} (fits : p c = true) : Prefers (char p) offset before [c] rest () := by
  simp [Prefers, Reader.char, fits, Cursor.beyond]

/-- A part that consumes nothing is read before what follows it. -/
theorem ensure {p : Cursor → Bool} (holds : p ⟨offset, before, rest⟩ = true) :
    Prefers (ensure p) offset before [] rest () := by
  simp [Prefers, Reader.ensure, holds]

/-- A word that stands there is read. -/
theorem literal (word : List Char) : Prefers (literal word) offset before word rest () := by
  unfold Prefers
  induction word generalizing offset before with
  | nil => rfl
  | cons c word ih =>
    -- The first character leaves the rest of the word to be read one place further.
    have later := @ih (offset + 1) (some c)
    rw [Cursor.beyond_cons offset before] at later
    simpa [Reader.literal, Reader.char] using later

/-- The first of several words that stands in the text is read. -/
theorem wordOf {early late : List (List Char)} {word : List Char}
    (others : ∀ other ∈ early, ∀ more, word ++ rest ≠ other ++ more) :
    Prefers (wordOf (early ++ word :: late)) offset before word rest word := by
  -- No word that is tried before stands in the text.
  have passed : (early.flatMap fun other => (Reader.literal other
      ⟨offset, before, word ++ rest⟩).map fun read => (other, read.2)) = [] := by
    rw [List.flatMap_eq_nil_iff]
    intro other listed
    rw [List.map_eq_nil_iff, List.eq_nil_iff_forall_not_mem]
    intro result read
    obtain ⟨more, split, _⟩ := mem_literal.mp read
    exact others other listed more split
  have here : (Reader.literal word ⟨offset, before, word ++ rest⟩).head? = _ := literal word
  unfold Prefers Reader.wordOf
  rw [List.flatMap_append, passed, List.nil_append, List.flatMap_cons, List.head?_append,
    List.head?_map, here]
  rfl

/-- The last stop within a class lies behind the longest stretch of it. -/
theorem getLast?_stops (all : ∀ c ∈ taken, p c = true) (ended : rest.head?.any p = false) :
    (stops p offset before (taken ++ rest)).getLast? = some (.beyond offset before taken rest) := by
  induction taken generalizing offset before with
  | nil =>
    -- The class ends here, so this is the only stop.
    cases rest with
    | nil => rfl
    | cons c rest =>
      have outside : ¬ p c = true := by simpa using ended
      simp [stops, outside]
  | cons c taken ih =>
    have fits := all c List.mem_cons_self
    have later := @ih (offset + 1) (some c) fun d inside => all d (List.mem_cons_of_mem c inside)
    rw [List.cons_append, stops, if_pos fits, List.getLast?_cons, later, Option.getD_some,
      Cursor.beyond_cons]

/-- A run takes all that belongs to its class. -/
theorem run (all : ∀ c ∈ taken, p c = true) (ended : rest.head?.any p = false) :
    Prefers (run p) offset before taken rest () := by
  -- The stops are tried from the last to the first.
  unfold Prefers Reader.run
  rw [List.head?_map, List.head?_reverse, getLast?_stops all ended]
  rfl

/-- A run of at least one character is read to its end. -/
theorem run1 (nonempty : taken ≠ []) (all : ∀ c ∈ taken, p c = true)
    (ended : rest.head?.any p = false) : Prefers (run1 p) offset before taken rest () := by
  obtain ⟨c, taken, rfl⟩ := List.exists_cons_of_ne_nil nonempty
  -- The first character is read alone, and the rest of the stretch is a run.
  have first : Prefers (Reader.char p) offset before [c] (taken ++ rest) () :=
    char (all c List.mem_cons_self)
  exact first.bind (run (fun d inside => all d (List.mem_cons_of_mem c inside)) ended)

/-- What can be read is preferred to nothing. -/
theorem optional_some (here : Prefers reader offset before taken rest value) :
    Prefers (optional reader) offset before taken rest (some value) := by
  -- Readings of the value come before the one that skips it.
  unfold Prefers at here ⊢
  rw [Reader.optional, List.head?_append, List.head?_map, here]
  rfl

/-- Nothing is read where nothing can be read. -/
theorem optional_none (fails : reader ⟨offset, before, rest⟩ = []) :
    Prefers (optional reader) offset before [] rest none := by
  simp [Prefers, Reader.optional, fails]

theorem many_none (fails : reader ⟨offset, before, rest⟩ = []) :
    Prefers (many reader) offset before [] rest [] := by
  unfold Prefers
  rw [Reader.many]
  simp [fails]

/-- One value is read before any further ones. -/
theorem many_cons {values : List α} (nonempty : one ≠ [])
    (here : Prefers reader offset before one (other ++ rest) value) (onward :
      Prefers (many reader) (offset + one.length) (one.getLast?.or before) other rest values) :
    Prefers (many reader) offset before (one ++ other) rest (value :: values) := by
  unfold Prefers at here onward ⊢
  obtain ⟨more, readings⟩ := List.head?_eq_some_iff.mp here
  -- The first value took something, so the reading goes on behind it.
  have shorter := Cursor.length_beyond_lt offset before nonempty (other ++ rest)
  rw [Cursor.beyond_append] at onward
  have there : (many reader (Cursor.beyond offset before one (other ++ rest))).head? = _ := onward
  rw [Reader.many, List.head?_append, List.append_assoc, readings, List.flatMap_cons,
    List.head?_append]
  dsimp only
  rw [if_pos shorter, List.head?_map, there, Option.map_some, Option.some_or, Option.some_or]

/-- What follows a row of values is read behind all of them if it can be read there. -/
theorem many_bind_cons {next : Reader β} (nonempty : one ≠ [])
    (here : Prefers reader offset before one (other ++ rest) value)
    (onward : Prefers (Reader.many reader >>= fun _ => next) (offset + one.length)
      (one.getLast?.or before) other rest result) :
    Prefers (Reader.many reader >>= fun _ => next) offset before (one ++ other) rest result := by
  unfold Prefers at here onward ⊢
  obtain ⟨more, readings⟩ := List.head?_eq_some_iff.mp here
  -- The first value took something, so the row may go on behind it.
  have shorter := Cursor.length_beyond_lt offset before nonempty (other ++ rest)
  rw [Cursor.beyond_append] at onward
  have there :
    ((Reader.many reader >>= fun _ => next)
    (Cursor.beyond offset before one (other ++ rest))).head? = _ :=
    onward
  rw [many_bind, List.head?_append, List.append_assoc, readings, List.flatMap_cons,
    List.head?_append]
  dsimp only
  rw [if_pos shorter, there, Option.some_or, Option.some_or]

/-- What follows a row of values is read in its place if it cannot be read behind the first of
them. -/
theorem many_bind_nil {next : Reader β} (fails : ∀ read ∈ reader ⟨offset, before, taken ++ rest⟩,
      (Reader.many reader >>= fun _ => next) read.2 = [])
    (here : Prefers next offset before taken rest result) :
    Prefers (Reader.many reader >>= fun _ => next) offset before taken rest result := by
  -- Wherever a turn is made nothing can follow, so what comes next follows at once.
  have nothing : ((reader ⟨offset, before, taken ++ rest⟩).flatMap fun read =>
      if read.2.rest.length < (taken ++ rest).length then
        (Reader.many reader >>= fun _ => next) read.2
      else []) = [] := by
    rw [List.flatMap_eq_nil_iff]
    intro read member
    rw [fails read member, ite_self]
  rw [Prefers, many_bind, nothing]
  exact here

/-- A stretch keeps what its reader takes. -/
theorem stretch (here : Prefers reader offset before taken rest value) :
    Prefers (stretch reader) offset before taken rest ⟨taken ++ rest, taken.length⟩ := by
  unfold Prefers at here ⊢
  rw [Reader.stretch, List.head?_map, here]
  simp [Cursor.beyond]

/-- What is preferred is found. -/
theorem foundAt (here : Prefers reader offset before taken rest value) :
    reader.foundAt ⟨offset, before, taken ++ rest⟩ =
      some ⟨offset, .beyond offset before taken rest, value⟩ := by
  unfold Prefers at here
  rw [Reader.foundAt, here]
  rfl

end Prefers

/-- The characters that belong to a reading are passed over. -/
theorem allFrom_skip (reader : Reader α) (offset : Nat) (before : Option Char)
    (taken rest : List Char) :
    reader.allFrom offset before taken.length (taken ++ rest) =
      reader.allFrom (offset + taken.length) (taken.getLast?.or before) 0 rest := by
  induction taken generalizing offset before with
  | nil => rfl
  | cons c taken ih =>
    -- One character less is to be skipped behind the first one.
    rw [List.cons_append, List.length_cons, allFrom, ih, getLast?_or_cons before, Nat.add_assoc,
      Nat.add_comm 1]

/-- A search goes on behind what it finds. -/
theorem allFrom_prefers {offset : Nat} {before : Option Char} {taken rest : List Char}
    (nonempty : taken ≠ []) (here : Prefers reader offset before taken rest value) :
    reader.allFrom offset before 0 (taken ++ rest) =
      ⟨offset, .beyond offset before taken rest, value⟩ ::
        reader.allFrom (offset + taken.length) (taken.getLast?.or before) 0 rest := by
  have found := here.foundAt
  -- The characters behind the first one are skipped, as many as the reading has left.
  rw [← allFrom_skip reader offset before taken rest]
  obtain ⟨c, taken, rfl⟩ := List.exists_cons_of_ne_nil nonempty
  rw [List.cons_append] at found ⊢
  rw [allFrom, found]
  simp only [Cursor.offset_beyond, List.length_cons, allFrom]
  congr 2
  omega

/-- A search passes over a stretch in which no reading begins. -/
theorem allFrom_append {taken rest : List Char} {offset : Nat} {before : Option Char}
    (fails : ∀ front c back, taken = front ++ c :: back →
      reader (.beyond offset before front (c :: back ++ rest)) = []) :
    reader.allFrom offset before 0 (taken ++ rest) =
      reader.allFrom (offset + taken.length) (taken.getLast?.or before) 0 rest := by
  rw [← allFrom_skip reader offset before taken rest]
  induction taken generalizing offset before with
  | nil => rfl
  | cons c taken ih =>
    have here := foundAt_eq_none (fails [] c taken rfl)
    rw [Cursor.beyond_nil] at here
    -- Behind the first character the same holds of what is left.
    have later := @ih (offset + 1) (some c) fun front d back split => by
      rw [Cursor.beyond_cons offset before]
      exact fails (c :: front) d back (by rw [split]; rfl)
    rw [List.cons_append] at here ⊢
    rw [allFrom, here, List.length_cons, allFrom]
    exact later

/-- A search passes over a stretch that does not hold the sign and ends before a character over
which no reading goes on to the sign. -/
theorem Reaches.allFrom_append {p : Char → Prop} {sign stop : Char}
    (reaches : Reaches reader p sign) {taken : List Char} (absent : sign ∉ taken) (stops : ¬ p stop)
    (different : stop ≠ sign) (offset : Nat) (before : Option Char) (rest : List Char) :
    reader.allFrom offset before 0 (taken ++ [stop] ++ rest) =
      reader.allFrom (offset + taken.length + 1) (some stop) 0 rest := by
  have passed := @Reader.allFrom_append _ reader (taken ++ [stop]) rest offset before ?_
  · simpa [Nat.add_assoc] using passed
  · intro front c back split
    refine List.eq_nil_iff_forall_not_mem.mpr fun result read => ?_
    obtain ⟨inside, behind, isText, all⟩ := reaches _ _ _ _ read
    -- The sign stands neither in the stretch nor at its end, so the reading goes on over that end.
    have absentBack : sign ∉ c :: back := fun isInside => by
      have among : sign ∈ taken ++ [stop] := by
        rw [split]
        exact List.mem_append_right front isInside
      rcases List.mem_append.mp among with inTaken | isStop
      · exact absent inTaken
      · exact different (List.mem_singleton.mp isStop).symm
    have atEnd : stop ∈ c :: back := by
      have last := congrArg List.getLast? split
      rw [List.getLast?_append, List.getLast?_singleton, Option.some_or, List.getLast?_append]
        at last
      exact List.mem_of_getLast? (by simpa [List.getLast?_cons] using last.symm)
    rcases List.append_eq_append_iff.mp isText with ⟨more, isFront, _⟩ | ⟨more, isBack, isBehind⟩
    · exact stops (all stop (by rw [isFront]; exact List.mem_append_left more atEnd))
    · cases more with
      | nil =>
        rw [List.append_nil] at isBack
        exact stops (all stop (isBack ▸ atEnd))
      | cons d more =>
        obtain ⟨rfl, _⟩ := List.cons.inj isBehind
        exact absentBack (by simp [isBack])

/-- The readings of a reader begin with a character of a class. -/
def Begins (reader : Reader α) (p : Char → Bool) : Prop :=
  ∀ place, ∀ result ∈ reader place, place.rest.head?.any p = true

/-- The readings of a reader take nothing or begin with a character of a class. -/
def MayBegin (reader : Reader α) (p : Char → Bool) : Prop :=
  ∀ place, ∀ result ∈ reader place, result.2.rest = place.rest ∨ place.rest.head?.any p = true

namespace Begins

variable {p : Char → Bool}

theorem bind (begins : Begins first p) (next : α → Reader β) : Begins (first >>= next) p := by
  intro place result read
  obtain ⟨_, _, readFirst, _⟩ := mem_bind.mp read
  exact begins place _ readFirst

/-- Behind a part that takes nothing, the next part comes first. -/
theorem behind {next : α → Reader β} (mayBegin : MayBegin first p)
    (begins : ∀ value, Begins (next value) p) : Begins (first >>= next) p := by
  intro place result read
  obtain ⟨value, middle, readFirst, readNext⟩ := mem_bind.mp read
  rcases mayBegin place _ readFirst with same | here
  · -- The first part took nothing, so the second begins at the same character.
    have there := begins value middle _ readNext
    rwa [same] at there
  · exact here

theorem char {q : Char → Bool} (fits : ∀ c, q c = true → p c = true) : Begins (char q) p := by
  rintro ⟨offset, before, rest⟩ result read
  obtain ⟨c, rest, rfl, holds, _⟩ := mem_char.mp read
  exact fits c holds

theorem run1 {q : Char → Bool} (fits : ∀ c, q c = true → p c = true) : Begins (run1 q) p :=
  (char fits).bind _

/-- A word begins with its first character. -/
theorem literal {word : List Char} (begins : word.head?.any p = true) :
    Begins (literal word) p := by
  rintro ⟨offset, before, rest⟩ result read
  obtain ⟨rest, rfl, _⟩ := mem_literal.mp read
  cases word with
  | nil => cases begins
  | cons c word => exact begins

/-- One of several words begins as they all do. -/
theorem wordOf {words : List (List Char)} (begin : ∀ word ∈ words, word.head?.any p = true) :
    Begins (wordOf words) p := by
  intro place result read
  obtain ⟨word, listed, readWord⟩ := List.mem_flatMap.mp read
  obtain ⟨inner, readLiteral, _⟩ := List.mem_map.mp readWord
  exact literal (begin word listed) place inner readLiteral

theorem stretch (begins : Begins reader p) : Begins (stretch reader) p := by
  intro place result read
  obtain ⟨inner, readInner, _⟩ := List.mem_map.mp read
  exact begins place inner readInner

/-- Nothing is read where no character of the class stands. -/
theorem eq_nil (begins : Begins reader p) {place : Cursor}
    (outside : place.rest.head?.any p = false) : reader place = [] := by
  -- A reading would begin with a character of the class.
  refine List.eq_nil_iff_forall_not_mem.mpr fun result read => ?_
  rw [begins place result read] at outside
  cases outside

/-- A search passes over characters that are not of the class. -/
theorem allFrom_append (begins : Begins reader p) {taken : List Char}
    (outside : ∀ c ∈ taken, p c = false) (offset : Nat) (before : Option Char) (rest : List Char) :
    reader.allFrom offset before 0 (taken ++ rest) =
      reader.allFrom (offset + taken.length) (taken.getLast?.or before) 0 rest := by
  refine Reader.allFrom_append fun front c back split => begins.eq_nil ?_
  exact outside c (by simp [split])

end Begins

namespace MayBegin

variable {p : Char → Bool}

/-- A reader that may be skipped may begin as the reader does. -/
theorem optional (begins : Begins reader p) : MayBegin (optional reader) p := by
  intro place result read
  -- What is read begins as the reader does, and otherwise nothing is taken.
  rcases List.mem_append.mp read with there | none
  · obtain ⟨inner, readInner, _⟩ := List.mem_map.mp there
    exact Or.inr (begins place inner readInner)
  · exact Or.inl (by rw [List.mem_singleton.mp none])

/-- Any number of readings may begin as one of them does. -/
theorem many (begins : Begins reader p) : MayBegin (many reader) p := by
  intro place result read
  rw [Reader.many] at read
  -- The first value begins as the reader does, and without one nothing is taken.
  rcases List.mem_append.mp read with there | none
  · obtain ⟨inner, readInner, _⟩ := List.mem_flatMap.mp there
    exact Or.inr (begins place inner readInner)
  · exact Or.inl (by rw [List.mem_singleton.mp none])

theorem ensure (q : Cursor → Bool) : MayBegin (ensure q) p := by
  intro place result read
  exact Or.inl (by rw [(mem_ensure.mp read).2])

end MayBegin

end Lineage.Text.Reader
