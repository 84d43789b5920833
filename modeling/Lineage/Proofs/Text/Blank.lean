import Lineage.Text.Blank
import Lineage.Text.Word
import Mathlib.Data.List.TakeWhile

/-! Blanks, words and lines. -/

namespace Lineage.Text

/-- To know whether something holds of all the characters of a text, only these are looked at. -/
instance (priority := 2000) decidableForallMem {p : Char → Prop} [DecidablePred p]
    (text : List Char) :
    Decidable (∀ c ∈ text, p c) :=
  -- The instance for a statement about all characters would try every one there is.
  List.decidableBAll p text

variable {c : Char} {text blanks : List Char}

/-- A character of a class differs from each one outside of it. -/
theorem ne_of_class {p : Char → Bool} {d : Char} (fits : p c = true) (outside : p d = false) :
    c ≠ d := by
  rintro rfl
  rw [fits] at outside
  cases outside

/-- A text of characters of a class holds none from outside of it. -/
theorem notMem_of_class {p : Char → Bool} {d : Char} (all : ∀ c ∈ text, p c = true)
    (outside : p d = false) : d ∉ text :=
  fun inside => ne_of_class (all d inside) outside rfl

/-- Two ways to split a list, at a member of it and between two parts: the member lies in the first
or in the second. -/
theorem append_cases {α : Type} {one two left right : List α} {a : α}
    (split : one ++ two = left ++ a :: right) :
    (∃ more, one = left ++ a :: more ∧ right = more ++ two) ∨
      ∃ more, left = one ++ more ∧ two = more ++ a :: right := by
  rcases List.append_eq_append_iff.mp split with ⟨more, isLeft, isTwo⟩ | ⟨more, rfl, behind⟩
  · exact Or.inr ⟨more, isLeft, isTwo⟩
  · cases more with
    | nil => exact Or.inr ⟨[], by simp, by simpa using behind.symm⟩
    | cons b more =>
      obtain ⟨rfl, rfl⟩ := List.cons.inj behind
      exact Or.inl ⟨more, rfl, rfl⟩

/-- Two ways to split a list at a member: at the same one, or one before the other. -/
theorem append_cons_cases {α : Type} {one other left right : List α} {a b : α}
    (split : one ++ a :: other = left ++ b :: right) :
    (∃ more, left = one ++ a :: more ∧ other = more ++ b :: right) ∨
      (one = left ∧ a = b ∧ other = right) ∨
      ∃ more, one = left ++ b :: more ∧ right = more ++ a :: other := by
  rcases append_cases split with before | ⟨more, rfl, behind⟩
  · exact Or.inr (Or.inr before)
  · cases more with
    | nil =>
      obtain ⟨rfl, rfl⟩ := List.cons.inj behind
      exact Or.inr (Or.inl ⟨by simp, rfl, rfl⟩)
    | cons c more =>
      obtain ⟨rfl, rfl⟩ := List.cons.inj behind
      exact Or.inl ⟨more, rfl, rfl⟩

/-- No blank belongs to a word. -/
theorem isWord_of_isBlank (blank : isBlank c = true) : isWord c = false := by
  -- There are few blanks, so each of them can be looked up.
  let points :=
    [9, 10, 11, 12, 13, 28, 29, 30, 31, 32, 0x85, 0xA0, 0x1680, 0x2000, 0x2001, 0x2002, 0x2003,
    0x2004, 0x2005, 0x2006, 0x2007, 0x2008, 0x2009, 0x200A, 0x2028, 0x2029, 0x202F, 0x205F, 0x3000]
  have listed : c.toNat ∈ points := by
    simp only [isBlank, Bool.or_eq_true, Bool.and_eq_true, decide_eq_true_eq, beq_iff_eq] at blank
    simp only [points, List.mem_cons, List.not_mem_nil, or_false]
    omega
  have apart : ∀ point ∈ points, isWord (Char.ofNat point) = false := by decide +kernel
  have here := apart c.toNat listed
  rwa [Char.ofNat_toNat] at here

/-- Blanks before a text that begins with none are dropped. -/
theorem trimStart_append (allBlank : ∀ c ∈ blanks, isBlank c = true)
    (first : text.head?.any isBlank = false) : trimStart (blanks ++ text) = text := by
  rw [trimStart, List.dropWhile_append_of_pos allBlank]
  cases text with
  | nil => rfl
  | cons c text =>
    have notBlank : ¬ isBlank c = true := by simpa using first
    rw [List.dropWhile_cons_of_neg notBlank]

theorem trimStart_append_cons (allBlank : ∀ b ∈ blanks, isBlank b = true)
    (notBlank : isBlank c = false) (rest : List Char) :
    trimStart (blanks ++ c :: rest) = c :: rest :=
  trimStart_append allBlank (by simpa using notBlank)

/-- Behind some of the blanks before a text comes another blank or the text. -/
theorem eq_or_blank {space more : List Char} (allSpace : ∀ c ∈ space, isBlank c = true)
    (allBlank : ∀ c ∈ blanks, isBlank c = true) (notBlank : text.head?.any isBlank = false)
    (split : space ++ text = blanks ++ more) : more = text ∨ more.head?.any isBlank = true := by
  rcases List.append_eq_append_iff.mp split with ⟨further, isBlanks, isText⟩
    | ⟨left, isSpace, isMore⟩
  · cases further with
    | nil => exact Or.inl isText.symm
    | cons c further =>
      -- The text would begin with one of the blanks.
      have blank := allBlank c (by simp [isBlanks])
      simp [isText, blank] at notBlank
  · cases left with
    | nil => exact Or.inl isMore
    | cons c left =>
      have blank := allSpace c (by simp [isSpace])
      exact Or.inr (by simp [isMore, blank])

/-- Blanks behind a text that ends with none are dropped. -/
theorem trimEnd_append (allBlank : ∀ c ∈ blanks, isBlank c = true)
    (last : text.getLast?.any isBlank = false) : trimEnd (text ++ blanks) = text := by
  -- Read backwards, the blanks stand before the text.
  have reversed : trimStart (blanks.reverse ++ text.reverse) = text.reverse :=
    trimStart_append (fun c inside => allBlank c (List.mem_reverse.mp inside))
      (by rwa [List.head?_reverse])
  rw [trimEnd, List.reverse_append]
  exact (congrArg List.reverse reversed).trans (List.reverse_reverse text)

/-- Blanks at either end of a text that neither begins nor ends with one are dropped. -/
theorem trim_append {front back : List Char} (frontBlank : ∀ c ∈ front, isBlank c = true)
    (backBlank : ∀ c ∈ back, isBlank c = true) (first : text.head?.any isBlank = false)
    (last : text.getLast?.any isBlank = false) : trim (front ++ (text ++ back)) = text := by
  cases text with
  | nil =>
    -- Nothing but blanks is dropped from the front.
    have allBlank : ∀ c ∈ front ++ back, isBlank c = true := fun c inside =>
      (List.mem_append.mp inside).elim (frontBlank c) (backBlank c)
    have dropped : trimStart (front ++ back ++ []) = [] := trimStart_append allBlank rfl
    rw [List.append_nil] at dropped
    rw [List.nil_append, trim, dropped]
    rfl
  | cons c text =>
    -- The blanks at the back are not reached from the front.
    have begins : (c :: text ++ back).head?.any isBlank = false := first
    rw [trim, trimStart_append frontBlank begins, trimEnd_append backBlank last]

/-- A text without blanks neither begins nor ends with one. -/
theorem ends_of_noBlank (noBlank : ∀ c ∈ text, isBlank c = false) :
    text.head?.any isBlank = false ∧ text.getLast?.any isBlank = false := by
  constructor
  · cases isFirst : text.head? with
    | none => rfl
    | some c => exact noBlank c (List.mem_of_head? isFirst)
  · cases isLast : text.getLast? with
    | none => rfl
    | some c => exact noBlank c (List.mem_of_getLast? isLast)

/-- Behind the blanks at its front a text begins with none. -/
theorem head?_trimStart (text : List Char) : (trimStart text).head?.any isBlank = false := by
  unfold trimStart
  cases rest : text.dropWhile isBlank with
  | nil => rfl
  | cons c rest' =>
    have stop := List.head?_dropWhile_not isBlank text
    rw [rest] at stop
    simpa using stop

theorem length_trimStart_le (text : List Char) : (trimStart text).length ≤ text.length :=
  (List.dropWhile_suffix _).length_le

/-- The blanks at the front of a text and what follows them. -/
theorem exists_trimStart (text : List Char) :
    ∃ run, text = run ++ trimStart text ∧ ∀ c ∈ run, isBlank c = true :=
  ⟨text.takeWhile isBlank, List.takeWhile_append_dropWhile.symm, fun _ inside =>
    List.mem_takeWhile_imp inside⟩

/-- Blanks at the front of a text are all that is trimmed, whatever follows the text. -/
theorem trimStart_append_of_ne_nil (something : trimStart text ≠ []) (rest : List Char) :
    trimStart (text ++ rest) = trimStart text ++ rest := by
  unfold trimStart at something ⊢
  rw [List.dropWhile_append, if_neg (by simpa using something)]

/-- What is left of a text without the blanks at its end, and these blanks. -/
theorem exists_trimEnd (text : List Char) :
    ∃ run, text = trimEnd text ++ run ∧ ∀ c ∈ run, isBlank c = true := by
  obtain ⟨run, isText, allBlank⟩ := exists_trimStart text.reverse
  refine ⟨run.reverse, ?_, fun c inside => allBlank c (List.mem_reverse.mp inside)⟩
  rw [trimEnd, ← List.reverse_append, ← trimStart, ← isText, List.reverse_reverse]

/-- Blanks at the end of a text that holds more than blanks are dropped, whatever stands before
it. -/
theorem trimEnd_append_of_ne_nil (something : trimEnd text ≠ []) (front : List Char) :
    trimEnd (front ++ text) = front ++ trimEnd text := by
  have reversed : trimStart text.reverse ≠ [] :=
    fun nothing => something (by rw [trimEnd, ← trimStart, nothing]; rfl)
  rw [trimEnd, List.reverse_append, ← trimStart, trimStart_append_of_ne_nil reversed,
    List.reverse_append, List.reverse_reverse]
  rfl

/-- A line and its end come before the other lines. -/
theorem lines_append_cons {line : List Char} (oneLine : ∀ c ∈ line, isLineEnd c = false)
    (rest : List Char) :
    lines (line ++ '\n' :: rest) = line :: lines rest := by
  induction line with
  | nil => rfl
  | cons c line ih =>
    have inside := oneLine c List.mem_cons_self
    -- A carriage return could be half of a line end, and is looked at first.
    have noReturn : c ≠ '\r' := (ne_of_class (p := isLineEnd) rfl inside).symm
    rw [List.cons_append, lines, ih fun d member => oneLine d (List.mem_cons_of_mem c member)]
    · simp [inside]
    · exact fun _ isReturn => absurd isReturn noReturn

/-- A last line needs no end. -/
theorem lines_singleton {line : List Char} (nonempty : line ≠ [])
    (oneLine : ∀ c ∈ line, isLineEnd c = false) :
    lines line = [line] := by
  -- No character of the line ends it.
  induction line with
  | nil => exact absurd rfl nonempty
  | cons c line ih =>
    have inside := oneLine c List.mem_cons_self
    have noReturn : c ≠ '\r' := (ne_of_class (p := isLineEnd) rfl inside).symm
    rw [lines]
    · cases line with
      | nil => simp [inside, lines]
      | cons d line =>
        rw [ih (by simp) fun e member => oneLine e (List.mem_cons_of_mem c member)]
        simp [inside]
    · exact fun _ isReturn => absurd isReturn noReturn

/-- Lines with line feeds between them are read as they are, if the last one is not empty. -/
theorem lines_intercalate {texts : List (List Char)}
    (oneLine : ∀ line ∈ texts, ∀ c ∈ line, isLineEnd c = false) (last : texts.getLast? ≠ some []) :
    lines (['\n'].intercalate texts) = texts := by
  induction texts with
  | nil => rfl
  | cons line texts ih =>
    have here := oneLine line List.mem_cons_self
    cases texts with
    | nil =>
      -- No line feed follows the last line.
      rw [List.intercalate_singleton]
      exact lines_singleton (by simpa using last) here
    | cons other texts =>
      have later := ih (fun found member => oneLine found (List.mem_cons_of_mem line member))
        (by rwa [List.getLast?_cons_cons] at last)
      rw [List.intercalate_cons_cons, List.append_assoc, List.singleton_append,
        lines_append_cons here, later]

end Lineage.Text
