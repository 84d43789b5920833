import Lineage.Proofs.Java.Body
import Mathlib.Order.Bounds.Basic

/-! The search for the first header in code. It asks a bisection whether a header begins in a
literal, and resumes right behind the start of each header that does. It ends for every source, and
what it finds is what a test of every position finds first. -/

namespace Lineage.Text

/-- The place behind the front of a text. -/
theorem placeAt_append (front rest : List Char) :
    placeAt (front ++ rest) front.length = .beyond 0 none front rest := by
  simp [placeAt, Cursor.beyond]

/-- A place within a text is at the position from which it was made. -/
theorem offset_placeAt {text : List Char} {position : Nat} (within : position ≤ text.length) :
    (placeAt text position).offset = position :=
  Nat.min_eq_left within

/-- Behind the end of a text there is only the place at its end. -/
theorem placeAt_of_length_le {text : List Char} {position : Nat} (beyond : text.length ≤ position) :
    placeAt text position = placeAt text text.length := by
  simp [placeAt, List.take_of_length_le, List.drop_of_length_le, beyond]

/-- What is taken from a place within a text leads to the place so much further. -/
theorem beyond_placeAt {text front rest : List Char} {position : Nat}
    (split : text.drop position = front ++ rest) (within : position ≤ text.length) :
    Cursor.beyond (placeAt text position).offset (placeAt text position).before front rest =
      placeAt text (position + front.length) := by
  -- The text is what lies before the place, what is taken and the rest.
  have whole : text = (text.take position ++ front) ++ rest := by
    rw [List.append_assoc, ← split, List.take_append_drop]
  have lead : (text.take position).length = position := by
    rw [List.length_take, Nat.min_eq_left within]
  have behind := placeAt_append (text.take position ++ front) rest
  rw [← whole, List.length_append, lead] at behind
  rw [behind, ← Cursor.beyond_append, lead]
  simp [placeAt, Nat.min_eq_left within]

namespace Reader

variable {α : Type} {reader : Reader α} {text : List Char} {position : Nat} {found : Found α}

/-- Behind the end of a text the search looks at the place at its end only. -/
theorem firstBehind_of_length_le (beyond : text.length ≤ position) :
    reader.firstBehind text position = reader.foundAt (placeAt text text.length) := by
  -- Nothing is left to be read there, so the search does not move on.
  rw [firstBehind, placeAt_of_length_le beyond]
  simp [placeAt, firstFrom]

/-- A search that finds nothing passes over every place from the position on. -/
theorem foundAt_of_firstBehind_none (nothing : reader.firstBehind text position = none)
    {place : Nat} (late : position ≤ place) : reader.foundAt (placeAt text place) = none := by
  rcases Nat.le_total text.length position with beyond | within
  · rw [firstBehind_of_length_le beyond] at nothing
    rwa [placeAt_of_length_le (by omega)]
  -- Behind the end of the text there is no other place than at its end.
  have upTo : ∀ {place}, position ≤ place → place ≤ text.length →
      reader.foundAt (placeAt text place) = none := by
    intro place late inside
    have split := (List.take_append_drop (place - position) (text.drop position)).symm
    have sized : ((text.drop position).take (place - position)).length = place - position := by
      simp only [List.length_take, List.length_drop]
      omega
    rw [firstBehind, show (placeAt text position).rest = _ from split] at nothing
    have passed := foundAt_of_firstFrom_none nothing
    rwa [beyond_placeAt split within, sized, Nat.add_sub_cancel' late] at passed
  rcases Nat.le_total place text.length with inside | behind
  · exact upTo late inside
  · rw [placeAt_of_length_le behind]
    exact upTo within (Nat.le_refl _)

/-- What a search finds is read at the least place from the position on where anything can be
read. -/
theorem exists_of_firstBehind_some (isFirst : reader.firstBehind text position = some found) :
    ∃ place,
      IsLeast {place | position ≤ place ∧ (reader.foundAt (placeAt text place)).isSome} place ∧
        reader.foundAt (placeAt text place) = some found := by
  rcases Nat.le_total text.length position with beyond | within
  · -- Behind the end every place is the same, so the position itself is the least.
    rw [firstBehind_of_length_le beyond, ← placeAt_of_length_le beyond] at isFirst
    exact ⟨position, ⟨⟨Nat.le_refl _, Option.isSome_of_eq_some isFirst⟩, fun _ later => later.1⟩,
      isFirst⟩
  obtain ⟨front, rest, split, isFound, earlier⟩ := exists_of_firstFrom_some isFirst
  rw [beyond_placeAt split within] at isFound
  refine ⟨position + front.length, ⟨⟨by omega, Option.isSome_of_eq_some isFound⟩, ?_⟩, isFound⟩
  rintro place ⟨late, isSome⟩
  -- At an earlier place the search would have found nothing.
  by_contra before
  have total := congrArg List.length split
  rw [List.length_append] at total
  have cut := (List.take_append_drop (place - position) (text.drop position)).symm
  have sized : ((text.drop position).take (place - position)).length = place - position := by
    rw [List.length_take]
    exact Nat.min_eq_left (by rw [show (text.drop position).length = _ from total]; omega)
  have nothing := earlier _ _ cut (by omega)
  rw [beyond_placeAt cut within, sized, Nat.add_sub_cancel' late] at nothing
  exact Option.not_isSome_iff_eq_none.mpr nothing isSome

/-- A search from a position finds what is read at the least place from there on where anything can
be read. -/
theorem firstBehind_eq_some_iff :
    reader.firstBehind text position = some found ↔ ∃ place,
      IsLeast {place | position ≤ place ∧ (reader.foundAt (placeAt text place)).isSome} place ∧
        reader.foundAt (placeAt text place) = some found := by
  refine ⟨exists_of_firstBehind_some, ?_⟩
  -- Conversely something is found, and at no other place than the least one.
  rintro ⟨place, isLeast, isFound⟩
  cases isFirst : reader.firstBehind text position with
  | none =>
    rw [foundAt_of_firstBehind_none isFirst isLeast.1.1] at isFound
    cases isFound
  | some other =>
    obtain ⟨place', isLeast', isOther⟩ := exists_of_firstBehind_some isFirst
    rw [← isLeast.unique isLeast', isFound] at isOther
    exact isOther.symm

/-- The whole text is searched from its front on. -/
theorem firstBehind_zero : reader.firstBehind text 0 = reader.first text := by
  simp [firstBehind, placeAt, first]

/-- Places at which nothing can be read may be left out of a search. -/
theorem firstBehind_skip {next : Nat} (onward : position ≤ next)
    (nothing : ∀ place, position ≤ place → place < next →
      reader.foundAt (placeAt text place) = none) :
    reader.firstBehind text position = reader.firstBehind text next := by
  -- The two searches look for the least of the same places.
  have same : {place | position ≤ place ∧ (reader.foundAt (placeAt text place)).isSome} =
      {place | next ≤ place ∧ (reader.foundAt (placeAt text place)).isSome} := by
    ext place
    constructor
    · rintro ⟨late, isSome⟩
      refine ⟨?_, isSome⟩
      by_contra early
      rw [nothing place late (by omega)] at isSome
      cases isSome
    · rintro ⟨late, isSome⟩
      exact ⟨Nat.le_trans onward late, isSome⟩
  ext found
  rw [firstBehind_eq_some_iff, firstBehind_eq_some_iff, same]

end Reader

end Lineage.Text

namespace Lineage.Java

open Lineage.Text

section Bisection

/-- Spans are in order when none ends before its own start, and each ends before the next begins. -/
structure InOrder (spans : List (Nat × Nat)) : Prop where
  forward : ∀ span ∈ spans, span.1 ≤ span.2
  apart : spans.Pairwise fun one other => one.2 ≤ other.1

/-- The spans of a row of pieces are in order, since no two pieces share a character. -/
theorem inOrder_spansFrom (offset : Nat) (row : List Piece) : InOrder (spansFrom offset row) := by
  induction row generalizing offset with
  | nil => exact ⟨by simp [spansFrom], List.Pairwise.nil⟩
  | cons piece row ih =>
    cases piece with
    | code c => exact ih (offset + 1)
    | literal kind text =>
      -- All spans of the further pieces begin behind the literal at the front.
      have later := ih (offset + text.length)
      refine ⟨fun span member => ?_, List.pairwise_cons.mpr ⟨fun span member => ?_, later.apart⟩⟩
      · rcases List.mem_cons.mp member with rfl | further
        · exact Nat.le_add_right _ _
        · exact later.forward span further
      · exact (bounds_of_mem_spansFrom member).1

/-- Of spans in order, an earlier one begins no later. -/
theorem InOrder.start_le {spans : List (Nat × Nat)} (inOrder : InOrder spans) {one other : Nat}
    (listed : one < spans.length) (listedOther : other < spans.length) (early : one ≤ other) :
    spans[one].1 ≤ spans[other].1 := by
  rcases Nat.eq_or_lt_of_le early with rfl | before
  · exact Nat.le_refl _
  · -- It ends before the other begins.
    have apart := List.pairwise_iff_getElem.mp inOrder.apart one other listed listedOther before
    exact Nat.le_trans (inOrder.forward _ (List.getElem_mem listed)) apart

/-- How far a bisection has come: the spans before `low` begin at the position or before it, and
those from `high` on begin behind it. -/
structure Bisects (spans : Array (Nat × Nat)) (position low high : Nat) : Prop where
  ordered : low ≤ high
  within : high ≤ spans.size
  begun : ∀ index (listed : index < spans.size), index < low → (spans[index]).1 ≤ position
  ahead : ∀ index (listed : index < spans.size), high ≤ index → position < (spans[index]).1

variable {spans : List (Nat × Nat)} {position low high : Nat}

/-- A span in the middle that begins behind the position has only such spans behind it. -/
theorem Bisects.shrink_high (inOrder : InOrder spans)
    (bisects : Bisects spans.toArray position low high) {middle : Nat} (above : low ≤ middle)
    (inside : middle < spans.toArray.size) (later : position < (spans.toArray[middle]).1) :
    Bisects spans.toArray position low middle where
  ordered := above
  within := Nat.le_of_lt inside
  begun := bisects.begun
  ahead index listed beyond := by
    -- The starts rise along the list.
    have rises := inOrder.start_le (by simpa using inside) (by simpa using listed) beyond
    simp only [List.getElem_toArray] at later ⊢
    omega

/-- A span in the middle that begins no later has only such spans before it. -/
theorem Bisects.raise_low (inOrder : InOrder spans)
    (bisects : Bisects spans.toArray position low high) {middle : Nat} (below : middle < high)
    (inside : middle < spans.toArray.size) (begins : ¬ position < (spans.toArray[middle]).1) :
    Bisects spans.toArray position (middle + 1) high where
  ordered := below
  within := bisects.within
  begun index listed before := by
    -- The starts rise along the list.
    have rises := inOrder.start_le (by simpa using listed) (by simpa using inside)
      (Nat.le_of_lt_succ before)
    simp only [List.getElem_toArray] at begins ⊢
    omega
  ahead := bisects.ahead

/-- The bisection ends where the spans that begin behind the position do. -/
theorem bisects_begunBy (inOrder : InOrder spans) (within : high ≤ spans.toArray.size)
    (bisects : Bisects spans.toArray position low high) :
    Bisects spans.toArray position (begunBy spans.toArray position low high within)
      (begunBy spans.toArray position low high within) := by
  fun_induction begunBy spans.toArray position low high within with
  | case1 low high within unsettled later ih =>
    exact ih (bisects.shrink_high inOrder (by omega) (by omega) later)
  | case2 low high within unsettled begins ih =>
    exact ih (bisects.raise_low inOrder (by omega) (by omega) begins)
  | case3 low high within settled =>
    -- Nothing is left between the two ends.
    obtain rfl : low = high := Nat.le_antisymm bisects.ordered (Nat.le_of_not_lt settled)
    exact bisects

/-- For spans in order, bisection tells of each position whether a span covers it. -/
theorem covers_eq_inSpan (inOrder : InOrder spans) (position : Nat) :
    covers spans.toArray position = inSpan spans position := by
  have whole : Bisects spans.toArray position 0 spans.toArray.size :=
    ⟨Nat.zero_le _, Nat.le_refl _, fun _ _ before => absurd before (Nat.not_lt_zero _),
      fun _ listed beyond => absurd listed (Nat.not_lt_of_le beyond)⟩
  have bisects := bisects_begunBy inOrder (Nat.le_refl _) whole
  unfold covers
  generalize begunBy spans.toArray position 0 spans.toArray.size _ = count at bisects ⊢
  cases count with
  | zero =>
    -- All spans begin behind the position.
    symm
    rw [inSpan, List.any_eq_false]
    intro span member covered
    obtain ⟨index, listed, rfl⟩ := List.mem_iff_getElem.mp member
    have ahead := bisects.ahead index (by simpa using listed) (Nat.zero_le _)
    simp only [List.getElem_toArray, Bool.and_eq_true, decide_eq_true_eq] at ahead covered
    omega
  | succ last =>
    have listed : last < spans.length := bisects.within
    have begins := bisects.begun last (by simpa using listed) (Nat.lt_succ_self last)
    simp only [List.getElem_toArray, List.getElem?_toArray, List.getElem?_eq_getElem listed,
      Option.any_some] at begins ⊢
    rw [Bool.eq_iff_iff, decide_eq_true_eq, inSpan, List.any_eq_true]
    constructor
    · intro reaches
      exact ⟨spans[last], List.getElem_mem listed, by simp [begins, reaches]⟩
    · rintro ⟨span, member, covered⟩
      obtain ⟨index, listedSpan, rfl⟩ := List.mem_iff_getElem.mp member
      simp only [Bool.and_eq_true, decide_eq_true_eq] at covered
      -- The span that covers is not behind the last one begun, and not before it either.
      have notBehind : ¬ last + 1 ≤ index := by
        intro beyond
        have ahead := bisects.ahead index (by simpa using listedSpan) beyond
        simp only [List.getElem_toArray] at ahead
        omega
      have notBefore : ¬ index < last := by
        intro before
        have apart := List.pairwise_iff_getElem.mp inOrder.apart index last listedSpan listed before
        omega
      obtain rfl : index = last := by omega
      exact covered.2

end Bisection

section Loop

open Lineage.Text.Reader

variable {α : Type} {reader : Reader α} {text : List Char} {spans : List (Nat × Nat)}

/-- In code a reader finds what it finds at places that no span covers. -/
theorem Reader.foundAt_inCode (spans : List (Nat × Nat)) (reader : Reader α) (place : Cursor) :
    (Reader.inCode spans reader).foundAt place =
      if inSpan spans place.offset then none else reader.foundAt place := by
  cases covered : inSpan spans place.offset <;> simp [Reader.inCode, foundAt, covered]

/-- What is found at a place begins there. -/
theorem start_of_foundAt {place : Cursor} {found : Found α}
    (isFound : reader.foundAt place = some found) : found.start = place.offset := by
  obtain ⟨_, _, rfl⟩ := Option.map_eq_some_iff.mp isFound
  rfl

/-- The search that resumes behind each rejected start finds what a test of every position finds. -/
theorem Reader.firstOutside_eq (inOrder : InOrder spans)
    (bounded : ∀ span ∈ spans.toArray, span.2 ≤ text.length) (position : Nat) :
    Reader.firstOutside reader text spans.toArray bounded position =
      (Reader.inCode spans reader).firstBehind text position := by
  fun_induction Reader.firstOutside reader text spans.toArray bounded position with
  | case1 position nothing =>
    -- Where nothing is read, nothing is read in code.
    cases isFirst : (Reader.inCode spans reader).firstBehind text position with
    | none => rfl
    | some found =>
      obtain ⟨place, isLeast, isFound⟩ := firstBehind_eq_some_iff.mp isFirst
      rw [Reader.foundAt_inCode, foundAt_of_firstBehind_none nothing isLeast.1.1] at isFound
      simp at isFound
  | case2 position found isFirst covered ih =>
    obtain ⟨place, isLeast, isFound⟩ := firstBehind_eq_some_iff.mp isFirst
    -- A span that covers the start ends within the text, so the place is where the reading begins.
    obtain ⟨span, listed, reaches⟩ := exists_lt_of_covers covered
    have inside := bounded span listed
    have start : found.start = min place text.length := start_of_foundAt isFound
    obtain rfl : place = found.start := by omega
    rw [ih]
    refine (firstBehind_skip (by have := isLeast.1.1; omega) fun earlier late before => ?_).symm
    rw [Reader.foundAt_inCode]
    rcases Nat.lt_succ_iff_lt_or_eq.mp before with isBefore | rfl
    · -- Before the rejected reading there is none at all.
      have nothing : reader.foundAt (placeAt text earlier) = none := by
        by_contra something
        have := isLeast.2 ⟨late, Option.isSome_iff_ne_none.mpr something⟩
        omega
      rw [nothing, ite_self]
    · rw [offset_placeAt (by omega), ← covers_eq_inSpan inOrder, covered, if_pos rfl]
  | case3 position found isFirst uncovered =>
    obtain ⟨place, isLeast, isFound⟩ := firstBehind_eq_some_iff.mp isFirst
    have start : found.start = (placeAt text place).offset := start_of_foundAt isFound
    have here : (Reader.inCode spans reader).foundAt (placeAt text place) = some found := by
      rw [Reader.foundAt_inCode, ← start, ← covers_eq_inSpan inOrder, if_neg uncovered, isFound]
    -- What is read in code is read, so nothing in code comes before the first reading.
    refine (firstBehind_eq_some_iff.mpr
      ⟨place, ⟨⟨isLeast.1.1, Option.isSome_of_eq_some here⟩, ?_⟩, here⟩).symm
    rintro other ⟨late, isSome⟩
    refine isLeast.2 ⟨late, ?_⟩
    rw [Reader.foundAt_inCode] at isSome
    split at isSome
    · cases isSome
    · exact isSome

/-- The steps of the search from a position on, with the starts that it rejects: it ends when there
is no further reading or when one begins outside of all spans, and otherwise resumes right behind
the start. -/
inductive Searches (reader : Reader α) (text : List Char) (spans : List (Nat × Nat)) :
    Nat → List Nat → Option (Found α) → Prop where
  | fails {position : Nat} : reader.firstBehind text position = none →
    Searches reader text spans position [] none
  | accepts {position : Nat} {found : Found α} :
    reader.firstBehind text position = some found → covers spans.toArray found.start = false →
    Searches reader text spans position [] (some found)
  | resumes {position : Nat} {found : Found α} {rejected : List Nat} {result : Option (Found α)} :
    reader.firstBehind text position = some found → covers spans.toArray found.start = true →
    Searches reader text spans (found.start + 1) rejected result →
    Searches reader text spans position (found.start :: rejected) result

/-- The search ends, with no more rejected starts than there are characters left. -/
theorem exists_searches (reader : Reader α)
    (bounded : ∀ span ∈ spans.toArray, span.2 ≤ text.length) (position : Nat) :
    ∃ rejected, Searches reader text spans position rejected
        (Reader.firstOutside reader text spans.toArray bounded position) ∧
      rejected.length ≤ text.length - position := by
  fun_induction Reader.firstOutside reader text spans.toArray bounded position with
  | case1 position nothing => exact ⟨[], .fails nothing, Nat.zero_le _⟩
  | case2 position found isFirst covered ih =>
    obtain ⟨rejected, searches, few⟩ := ih
    refine ⟨found.start :: rejected, .resumes isFirst covered searches, ?_⟩
    -- The rejected start lies within the text and not before the position.
    obtain ⟨span, listed, reaches⟩ := exists_lt_of_covers covered
    have inside := bounded span listed
    have onward : min position text.length ≤ found.start := offset_le_start isFirst
    rw [List.length_cons]
    omega
  | case3 position found isFirst uncovered =>
    exact ⟨[], .accepts isFirst (Bool.eq_false_iff.mpr uncovered), Nat.zero_le _⟩

/-- There is one way for the search to go. -/
theorem Searches.unique {position : Nat} {rejected rejected' : List Nat}
    {result result' : Option (Found α)}
    (searches : Searches reader text spans position rejected result)
    (other : Searches reader text spans position rejected' result') :
    rejected' = rejected ∧ result' = result := by
  -- What is read first from a position, and whether it is covered, decides which step is taken.
  induction searches generalizing rejected' with
  | fails nothing => cases other <;> simp_all
  | accepts isFirst uncovered => cases other <;> simp_all
  | resumes isFirst covered _ ih =>
    cases other with
    | fails nothing => simp_all
    | accepts isFirst' uncovered => simp_all
    | resumes isFirst' covered' further =>
      obtain rfl := Option.some.inj (isFirst.symm.trans isFirst')
      obtain ⟨rfl, rfl⟩ := ih further
      exact ⟨rfl, rfl⟩

end Loop

/-- The body of a type lies behind the first opening that a test of every position finds in code. -/
theorem body?_eq (source : List Char) (kind : Kind) (name : List Char) :
    body? source kind name =
      ((Reader.openingInCode (literalSpans source) kind name).first source).bind fun found =>
        (bodyLength? 0 found.after.rest).bind fun length =>
          some ⟨found.after.offset, found.after.rest.take length⟩ := by
  -- The spans are in order, so the search outside of them is the search in code.
  have inOrder : InOrder (literalSpans source) := inOrder_spansFrom 0 (pieces source)
  rw [body?, Reader.firstOutside_eq inOrder, Text.Reader.firstBehind_zero]
  rfl

end Lineage.Java
