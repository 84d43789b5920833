import Lineage.Proofs.Java.Literal
import Lineage.Proofs.Java.Opening
import Mathlib.Data.List.Basic

/-! How a body is cut out of a source: where it opens, and how braces in its text move its end. -/

namespace Lineage.Java

open Lineage.Text

/-- No announcement holds a character that begins a literal. -/
theorem isOpener_of_isWordy {c : Char} (fits : isWordy c = true) : isOpener c = false := by
  by_contra opens
  simp only [isOpener, Bool.not_eq_false, Bool.or_eq_true, beq_iff_eq] at opens
  rcases opens with (rfl | rfl) | rfl <;> exact absurd fits (by decide)

/-- The number of braces that are open behind a text, or nothing if the text closes one that it did
not open beyond the first `depth`. -/
def depthAfter (depth : Nat) : List Char → Option Nat
  | [] => some depth
  | c :: rest =>
    if c == '{' then depthAfter (depth + 1) rest
    else if c == '}' then if depth == 0 then none else depthAfter (depth - 1) rest
    else depthAfter depth rest

/-- The braces of a text are balanced when each one that it opens is closed in it and the other way
round. -/
def Balanced (text : List Char) : Prop :=
  depthAfter 0 text = some 0

instance (text : List Char) : Decidable (Balanced text) :=
  inferInstanceAs (Decidable (depthAfter 0 text = some 0))

variable {depth : Nat} {text : List Char}

/-- Braces around a text do not change how it opens and closes its own. -/
theorem depthAfter_add {final : Nat} (walked : depthAfter depth text = some final) (more : Nat) :
    depthAfter (depth + more) text = some (final + more) := by
  fun_induction depthAfter depth text with
  | case1 depth =>
    cases walked
    rfl
  | case2 depth c rest opens ih =>
    rw [depthAfter, if_pos opens, Nat.add_right_comm, ih walked]
  | case3 => cases walked
  | case4 depth c rest notOpen closes deep ih =>
    -- What is open inside is closed before anything around it.
    have positive : depth ≠ 0 := by simpa using deep
    have stillDeep : ¬ (depth + more == 0) = true := by simp [positive]
    rw [depthAfter, if_neg notOpen, if_pos closes, if_neg stillDeep, Nat.sub_add_comm (by omega),
      ih walked]
  | case5 depth c rest notOpen notClose ih =>
    rw [depthAfter, if_neg notOpen, if_neg notClose, ih walked]

/-- Balanced braces leave any depth as it is. -/
theorem Balanced.depthAfter (balanced : Balanced text) (depth : Nat) :
    depthAfter depth text = some depth := by
  have walked := depthAfter_add balanced depth
  rwa [Nat.zero_add] at walked

/-- A text without braces leaves any depth as it is. -/
theorem depthAfter_of_braceless (braceless : ∀ c ∈ text, c ≠ '{' ∧ c ≠ '}') (depth : Nat) :
    depthAfter depth text = some depth := by
  induction text with
  | nil => rfl
  | cons c text ih =>
    obtain ⟨notOpen, notClose⟩ := braceless c List.mem_cons_self
    rw [depthAfter, if_neg (by simpa using notOpen), if_neg (by simpa using notClose),
      ih fun d inside => braceless d (List.mem_cons_of_mem c inside)]

/-- One character opens a brace, closes one or the body, or is passed over. -/
theorem bodyLength?_cons (depth : Nat) (c : Char) (rest : List Char) :
    bodyLength? depth (c :: rest) =
      if c == '{' then (bodyLength? (depth + 1) rest).map (· + 1)
      else if c == '}' then if depth == 0 then
        some 0 else (bodyLength? (depth - 1) rest).map (· + 1)
      else (bodyLength? depth rest).map (· + 1) := by
  cases depth <;> rfl

/-- A text that does not close the body is passed over. -/
theorem bodyLength?_append {final : Nat} (walked : depthAfter depth text = some final)
    (rest : List Char) :
    bodyLength? depth (text ++ rest) = (bodyLength? final rest).map (· + text.length) := by
  fun_induction depthAfter depth text with
  -- Along the text, both count the open braces in the same way.
  | case1 depth =>
    cases walked
    simp
  | case2 depth c text opens ih =>
    rw [List.cons_append, bodyLength?_cons, if_pos opens, ih walked, Option.map_map]
    rfl
  | case3 => cases walked
  | case4 depth c text notOpen closes deep ih =>
    rw [List.cons_append, bodyLength?_cons, if_neg notOpen, if_pos closes, if_neg deep, ih walked,
      Option.map_map]
    rfl
  | case5 depth c text notOpen notClose ih =>
    rw [List.cons_append, bodyLength?_cons, if_neg notOpen, if_neg notClose, ih walked,
      Option.map_map]
    rfl

/-- A text that closes the body does so at the same place whatever follows it. -/
theorem bodyLength?_of_closed (closed : depthAfter depth text = none) :
    ∃ length ≤ text.length, ∀ rest, bodyLength? depth (text ++ rest) = some length := by
  fun_induction depthAfter depth text with
  | case1 => cases closed
  | case2 depth c text opens ih =>
    obtain ⟨length, bounded, ends⟩ := ih closed
    refine ⟨length + 1, by simpa using bounded, fun rest => ?_⟩
    rw [List.cons_append, bodyLength?_cons, if_pos opens, ends, Option.map_some]
  | case3 depth c text notOpen closes shallow =>
    -- This brace closes the body, and nothing behind it is looked at.
    refine ⟨0, Nat.zero_le _, fun rest => ?_⟩
    rw [List.cons_append, bodyLength?_cons, if_neg notOpen, if_pos closes, if_pos shallow]
  | case4 depth c text notOpen closes deep ih =>
    obtain ⟨length, bounded, ends⟩ := ih closed
    refine ⟨length + 1, by simpa using bounded, fun rest => ?_⟩
    rw [List.cons_append, bodyLength?_cons, if_neg notOpen, if_pos closes, if_neg deep, ends,
      Option.map_some]
  | case5 depth c text notOpen notClose ih =>
    obtain ⟨length, bounded, ends⟩ := ih closed
    refine ⟨length + 1, by simpa using bounded, fun rest => ?_⟩
    rw [List.cons_append, bodyLength?_cons, if_neg notOpen, if_neg notClose, ends, Option.map_some]

/-- A text is split in one way only at the first place where a character stands. -/
theorem split_at_first {c : Char} {one other restOne restOther : List Char} (notOne : c ∉ one)
    (notOther : c ∉ other) (same : one ++ c :: restOne = other ++ c :: restOther) :
    one = other ∧ restOne = restOther := by
  -- If one part were longer, the character would stand in it.
  rcases append_cons_cases same with ⟨more, rfl, _⟩ | ⟨rfl, _, rfl⟩ | ⟨more, rfl, _⟩
  · simp at notOther
  · exact ⟨rfl, rfl⟩
  · simp at notOne

/-- A text with no opening brace lies before the first one. -/
theorem brace_behind {rest gap more : List Char} (plain : '{' ∉ text)
    (split : text ++ rest = gap ++ '{' :: more) :
    ∃ later, gap = text ++ later ∧ rest = later ++ '{' :: more := by
  rcases append_cases split with ⟨later, rfl, _⟩ | behind
  · -- The text cannot reach over the brace.
    simp at plain
  · exact behind

namespace Reader

open Lineage.Text.Reader

/-- What a reader finds at places that no span covers. -/
def inCode {α : Type} (spans : List (Nat × Nat)) (reader : Reader α) : Reader α :=
  fun place => (reader place).filter fun _ => !inSpan spans place.offset

/-- The header of a type where no literal of the source covers its start. -/
def openingInCode (spans : List (Nat × Nat)) (kind : Kind) (name : List Char) : Reader Unit :=
  inCode spans (opening kind name)

variable {spans : List (Nat × Nat)} {kind : Kind} {name : List Char}

/-- Nothing opens where a literal covers the place. -/
theorem openingInCode_of_inSpan {place : Cursor} (covered : inSpan spans place.offset = true) :
    openingInCode spans kind name place = [] := by
  simp [openingInCode, inCode, covered]

/-- Nothing is found where nothing opens. -/
theorem foundAt_openingInCode_eq_none {place : Cursor}
    (nothing : ∀ result, result ∉ opening kind name place) :
    (openingInCode spans kind name).foundAt place = none := by
  refine foundAt_eq_none ?_
  rw [openingInCode, inCode, List.eq_nil_iff_forall_not_mem.mpr nothing, List.filter_nil]

/-- Where a body opens, it opens at one place only, and this place is found. -/
theorem foundAt_openingInCode {offset : Nat} {before : Option Char} {spelled gap rest : List Char}
    (named : ∀ c ∈ name, isNameChar c = true) (uncovered : inSpan spans offset = false)
    (announced : Announced kind name before spelled (gap ++ '{' :: rest))
    (all : ∀ c ∈ gap, InHeader c) :
    (openingInCode spans kind name).foundAt ⟨offset, before, spelled ++ (gap ++ '{' :: rest)⟩ =
      some ⟨offset, .beyond offset before (spelled ++ (gap ++ ['{'])) rest, ()⟩ := by
  have unfiltered : openingInCode spans kind name
      ⟨offset, before, spelled ++ (gap ++ '{' :: rest)⟩ =
        opening kind name ⟨offset, before, spelled ++ (gap ++ '{' :: rest)⟩ := by
    simp [openingInCode, inCode, uncovered]
  have member : ((), .beyond offset before (spelled ++ (gap ++ ['{'])) rest) ∈
      opening kind name ⟨offset, before, spelled ++ (gap ++ '{' :: rest)⟩ :=
    mem_opening.mpr ⟨spelled, gap, rest, rfl, announced, all, rfl⟩
  -- Neither an announcement nor what may follow it holds a brace.
  have noBrace : ∀ {spelled gap rest}, Announced kind name before spelled rest →
      (∀ c ∈ gap, InHeader c) →
        '{' ∉ spelled ++ gap := by
    intro spelled gap rest announced all inside
    obtain ⟨values, spells⟩ := announced.spelled
    rcases List.mem_append.mp inside with inSpelled | inGap
    · exact (inHeader_of_isWordy (spells.isWordy named _ inSpelled)).1 rfl
    · exact (all _ inGap).1 rfl
  -- Every reading ends behind the first brace of the text.
  have unique : ∀ result ∈ opening kind name ⟨offset, before, spelled ++ (gap ++ '{' :: rest)⟩,
      result = ((), .beyond offset before (spelled ++ (gap ++ ['{'])) rest) := by
    intro result read
    obtain ⟨spelled', gap', rest', split, announced', all', rfl⟩ := mem_opening.mp read
    rw [← List.append_assoc, ← List.append_assoc] at split
    obtain ⟨same, rfl⟩ := split_at_first (noBrace announced all) (noBrace announced' all') split
    rw [← List.append_assoc, ← List.append_assoc, same]
  obtain ⟨first, more, list⟩ := List.exists_cons_of_ne_nil (List.ne_nil_of_mem member)
  rw [foundAt, unfiltered, list, List.head?_cons,
    unique first (by rw [list]; exact List.mem_cons_self)]
  rfl

end Reader

/-- The search for the first opening passes over a literal. -/
theorem firstFrom_literal {source : List Char} {front back : List Piece} {kind : LiteralKind}
    (whole : pieces source = front ++ .literal kind text :: back) (type : Kind) (name : List Char)
    (before : Option Char) (rest : List Char) :
    (Reader.openingInCode (literalSpans source) type name).firstFrom (sourceOf front).length before
      (text ++ rest) =
      (Reader.openingInCode (literalSpans source) type name).firstFrom
      ((sourceOf front).length + text.length) (text.getLast?.or before) rest := by
  -- Wherever a match would begin in the literal, it would begin in a span.
  refine Text.Reader.firstFrom_append fun taken c further split => Reader.openingInCode_of_inSpan ?_
  rw [Cursor.offset_beyond, literalSpans, whole]
  refine inSpan_literal front back kind ?_
  simp [split]

end Lineage.Java
