import Lineage.Proofs.Text.Parallel

/-! What a reading takes: for each way to build a reader, how the text that it takes fits its
value. -/

namespace Lineage.Text.Reader

variable {α β : Type}

/-- Every reading takes a stretch of text that fits its value. -/
def Reads (reader : Reader α) (P : α → List Char → Prop) : Prop :=
  ∀ place, ∀ read ∈ reader place, ∃ taken, Took place taken read.2 ∧ P read.1 taken

variable {next : α → Reader β}

namespace Reads

variable {reader : Reader α} {P : α → List Char → Prop}

theorem mono {Q : α → List Char → Prop} (reads : Reads reader P)
    (weaker : ∀ value taken, P value taken → Q value taken) : Reads reader Q := by
  intro place read member
  obtain ⟨taken, took, fits⟩ := reads place read member
  exact ⟨taken, took, weaker _ _ fits⟩

theorem pure {value : α} (fits : P value []) : Reads (Pure.pure value) P := by
  intro place read member
  rw [mem_pure.mp member]
  exact ⟨[], Took.nothing place, fits⟩

/-- What the second part takes comes behind what the first one took. -/
theorem bind {Q : β → List Char → Prop} (reads : Reads reader P)
    (onward : ∀ value taken, P value taken → Reads (next value) fun result more =>
      Q result (taken ++ more)) : Reads (reader >>= next) Q := by
  intro place result member
  obtain ⟨value, middle, readFirst, readNext⟩ := mem_bind.mp member
  obtain ⟨taken, took, fits⟩ := reads place _ readFirst
  obtain ⟨more, tookMore, fitsMore⟩ := onward value taken fits middle result readNext
  exact ⟨taken ++ more, took.trans tookMore, fitsMore⟩

variable {p : Char → Bool}

theorem char : Reads (char p) fun _ taken => ∃ c, p c = true ∧ taken = [c] := by
  rintro ⟨offset, before, text⟩ read member
  obtain ⟨c, rest, rfl, fits, rfl⟩ := mem_char.mp member
  exact ⟨[c], Took.beyond offset before [c] rest, c, fits, rfl⟩

theorem literal (word : List Char) : Reads (literal word) fun _ taken => taken = word := by
  rintro ⟨offset, before, text⟩ read member
  obtain ⟨rest, rfl, rfl⟩ := mem_literal.mp member
  exact ⟨word, Took.beyond offset before word rest, rfl⟩

theorem run : Reads (run p) fun _ taken => ∀ c ∈ taken, p c = true := by
  rintro ⟨offset, before, text⟩ read member
  obtain ⟨taken, rest, rfl, all, rfl⟩ := mem_run.mp member
  exact ⟨taken, Took.beyond offset before taken rest, all⟩

theorem run1 : Reads (run1 p) fun _ taken => taken ≠ [] ∧ ∀ c ∈ taken, p c = true := by
  rintro ⟨offset, before, text⟩ read member
  obtain ⟨taken, rest, rfl, nonempty, all, rfl⟩ := mem_run1.mp member
  exact ⟨taken, Took.beyond offset before taken rest, nonempty, all⟩

/-- What stands before the first mark does not hold one. -/
theorem upTo {mark : List Char} (nonempty : mark ≠ []) :
    Reads (upTo mark) fun _ taken => ¬ mark <:+: taken := by
  have nothing : ¬ mark <:+: [] := by rwa [List.infix_nil]
  rintro ⟨offset, before, text⟩ read member
  rw [List.mem_singleton.mp member]
  clear member
  show ∃ taken, Took _ taken (placeBefore mark offset before text) ∧ ¬ mark <:+: taken
  -- The mark stands neither at a character that is passed over nor behind it.
  induction text generalizing offset before with
  | nil => exact ⟨[], Took.nothing _, nothing⟩
  | cons c text ih =>
    rw [placeBefore]
    split
    case isTrue => exact ⟨[], Took.nothing _, nothing⟩
    case isFalse notHere =>
      obtain ⟨taken, took, endless⟩ := ih (offset + 1) (some c)
      refine ⟨c :: taken, (Took.beyond offset before [c] text).trans took, ?_⟩
      rw [List.infix_cons_iff, not_or]
      refine ⟨fun isPrefix => notHere ?_, endless⟩
      have split : text = taken ++ _ := took.rest
      rw [split]
      exact List.isPrefixOf_iff_prefix.mpr (isPrefix.trans (List.prefix_append (c :: taken) _))

/-- What may be skipped is read, or nothing is taken. -/
theorem optional (reads : Reads reader P) :
    Reads (optional reader) fun value taken =>
      (∃ one, value = some one ∧ P one taken) ∨ value = none ∧ taken = [] := by
  intro place read member
  rcases mem_optional.mp member with ⟨value, after, readValue, rfl⟩ | rfl
  · obtain ⟨taken, took, fits⟩ := reads place _ readValue
    exact ⟨taken, took, Or.inl ⟨value, rfl, fits⟩⟩
  · exact ⟨[], Took.nothing place, Or.inr ⟨rfl, rfl⟩⟩

/-- A row of values takes one part of the text for each of them. -/
theorem many (reads : Reads reader P) :
    Reads (many reader) fun values taken =>
      ∃ parts, taken = parts.flatten ∧ List.Forall₂ P values parts := by
  intro place read member
  -- Only values that take something count, so less is left behind each of them.
  induction sized : place.rest.length using Nat.strongRecOn generalizing place read with
  | ind length ih =>
    obtain ⟨values, last⟩ := read
    rcases mem_many.mp member with ⟨value, after, more, readValue, shorter, further, rfl⟩
      | ⟨rfl, rfl⟩
    · obtain ⟨taken, took, fits⟩ := reads place _ readValue
      obtain ⟨_, tookMore, parts, rfl, row⟩ := ih _ (sized ▸ shorter) after (more, last) further rfl
      exact ⟨taken ++ parts.flatten, took.trans tookMore, taken :: parts, rfl, .cons fits row⟩
    · exact ⟨[], Took.nothing _, [], rfl, .nil⟩

/-- A stretch keeps what its reader takes. -/
theorem stretch (reads : Reads reader P) :
    Reads (stretch reader) fun excerpt taken => excerpt.text = taken ∧ ∃ value, P value taken := by
  intro place read member
  obtain ⟨value, after, readValue, rfl⟩ := mem_stretch.mp member
  obtain ⟨taken, took, fits⟩ := reads place _ readValue
  exact ⟨taken, took, took.text_excerpt, value, fits⟩

/-- What a search finds was read somewhere. -/
theorem of_mem_all (reads : Reads reader P) {text : List Char} {found : Found α}
    (member : found ∈ reader.all text) :
    ∃ taken, P found.value taken := by
  obtain ⟨place, read⟩ := exists_of_mem_allFrom member
  obtain ⟨taken, _, fits⟩ := reads place _ read
  exact ⟨taken, fits⟩

end Reads

/-- Every reading has a value that satisfies a condition. -/
def Gives (reader : Reader α) (P : α → Prop) : Prop :=
  ∀ place, ∀ read ∈ reader place, P read.1

namespace Gives

variable {P : α → Prop} {Q : β → Prop}

theorem pure {value : α} (fits : P value) : Gives (Pure.pure value) P := by
  intro place read member
  rwa [mem_pure.mp member]

variable {reader : Reader α}

theorem bind (gives : Gives reader P) (onward : ∀ value, P value → Gives (next value) Q) :
    Gives (reader >>= next) Q := by
  intro place result member
  obtain ⟨value, middle, readFirst, readNext⟩ := mem_bind.mp member
  exact onward value (gives place _ readFirst) middle result readNext

/-- Only what comes last decides on the value. -/
theorem behind (onward : ∀ value, Gives (next value) Q) : Gives (reader >>= next) Q := by
  intro place result member
  obtain ⟨value, middle, _, readNext⟩ := mem_bind.mp member
  exact onward value middle result readNext

theorem of_mem_all (gives : Gives reader P) {text : List Char} {found : Found α}
    (member : found ∈ reader.all text) : P found.value := by
  obtain ⟨place, read⟩ := exists_of_mem_allFrom member
  exact gives place _ read

end Gives

end Lineage.Text.Reader
