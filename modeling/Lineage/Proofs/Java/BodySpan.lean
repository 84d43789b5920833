import Lineage.Proofs.Java.Search
import Mathlib.Order.Bounds.Basic

/-! Where a body lies: it begins behind the first opening of the type in code, and ends at the first
brace that closes more than was opened since. -/

namespace Lineage.Java

open Lineage.Text

/-- The least number with a property that no number below `shift` has, counted from `shift` on. -/
theorem isLeast_shift {P : Nat → Prop} {shift least : Nat}
    (late : ∀ number, P number → shift ≤ number) :
    IsLeast {number | P number} least ↔ ∃ rest, IsLeast {rest | P (rest + shift)} rest ∧
      rest + shift = least := by
  -- Both least numbers bound the numbers of their set, and the sets differ by the shift.
  constructor
  · rintro ⟨holds, bounds⟩
    have isLate : shift ≤ least := late least holds
    refine ⟨least - shift, ⟨?_, fun rest holdsRest => ?_⟩, by omega⟩
    · show P (least - shift + shift)
      rwa [Nat.sub_add_cancel isLate]
    · have : least ≤ rest + shift := bounds holdsRest
      omega
  · rintro ⟨rest, ⟨holds, bounds⟩, rfl⟩
    refine ⟨holds, fun number holdsNumber => ?_⟩
    have isLate : shift ≤ number := late number holdsNumber
    have holdsShifted : P (number - shift + shift) := by rwa [Nat.sub_add_cancel isLate]
    have : rest ≤ number - shift := bounds holdsShifted
    omega

/-- Where the header of a type at a position of a source ends, with the brace behind it, if it
stands there. -/
def openingEnd? (source : List Char) (kind : Kind) (name : List Char) (position : Nat) :
    Option Nat :=
  ((Reader.opening kind name).foundAt (placeAt source position)).map (·.after.offset)

/-- The header of a type stands at a position, with the brace behind it, and no literal covers the
position. -/
def OpensAt (source : List Char) (kind : Kind) (name : List Char) (position : Nat) : Prop :=
  inSpan (literalSpans source) position = false ∧ (openingEnd? source kind name position).isSome

/-- The characters of a source from one position up to another. -/
def between (source : List Char) (start stop : Nat) : List Char :=
  (source.drop start).take (stop - start)

/-- A brace closes what was open at the start: between the two, as many braces are closed as are
opened. -/
structure ClosesAt (source : List Char) (start stop : Nat) : Prop where
  behind : start ≤ stop
  brace : source[stop]? = some '}'
  level : (between source start stop).count '{' = (between source start stop).count '}'

/-- The body of a type lies behind the first opening in code, and before the first brace that closes
it. -/
structure IsBodySpan (source : List Char) (kind : Kind) (name : List Char) (start stop : Nat) :
    Prop where
  opens : ∃ position, IsLeast {position | OpensAt source kind name position} position ∧
    openingEnd? source kind name position = some start
  closes : IsLeast {stop | ClosesAt source start stop} stop

/-- A brace at a position of a text closes one more than were open: `depth` of them before the text,
and those that are opened in it. -/
def ClosesBeyond (depth : Nat) (text : List Char) (position : Nat) : Prop :=
  text[position]? = some '}' ∧
    depth + (text.take position).count '{' = (text.take position).count '}'

variable {depth position start stop : Nat} {rest source name : List Char} {kind : Kind}

theorem closesBeyond_zero {c : Char} : ClosesBeyond depth (c :: rest) 0 ↔ c = '}' ∧ depth = 0 := by
  simp [ClosesBeyond]

/-- Behind a brace that opens, one more is to be closed. -/
theorem closesBeyond_succ_open :
    ClosesBeyond depth ('{' :: rest) (position + 1) ↔ ClosesBeyond (depth + 1) rest position := by
  refine and_congr_right fun _ => ?_
  rw [List.take_succ_cons, List.count_cons_self, List.count_cons_of_ne (by decide)]
  omega

/-- Behind a brace that closes another one, one less is to be closed. -/
theorem closesBeyond_succ_close (deep : depth ≠ 0) :
    ClosesBeyond depth ('}' :: rest) (position + 1) ↔ ClosesBeyond (depth - 1) rest position := by
  refine and_congr_right fun _ => ?_
  rw [List.take_succ_cons, List.count_cons_self, List.count_cons_of_ne (by decide)]
  omega

theorem closesBeyond_succ_plain {c : Char} (notOpen : c ≠ '{') (notClose : c ≠ '}') :
    ClosesBeyond depth (c :: rest) (position + 1) ↔ ClosesBeyond depth rest position := by
  refine and_congr_right fun _ => ?_
  rw [List.take_succ_cons, List.count_cons_of_ne notOpen, List.count_cons_of_ne notClose]

/-- The length of a body is the first position whose brace closes more than is open. -/
theorem bodyLength?_eq_some_iff {length : Nat} {text : List Char} :
    bodyLength? depth text = some length ↔ IsLeast
      {position | ClosesBeyond depth text position} length := by
  induction text generalizing depth length with
  | nil =>
    constructor
    · intro impossible
      cases impossible
    · rintro ⟨⟨impossible, _⟩, _⟩
      cases impossible
  | cons c rest ih =>
    -- If the first character does not close the body, one that does lies behind it.
    have onward : ∀ {deep : Nat}, ¬ (c = '}' ∧ depth = 0) →
        (∀ position, ClosesBeyond depth (c :: rest) (position + 1) ↔
          ClosesBeyond deep rest position) →
        ((bodyLength? deep rest).map (· + 1) = some length ↔
          IsLeast {position | ClosesBeyond depth (c :: rest) position} length) := by
      intro deep notHere same
      have late : ∀ position, ClosesBeyond depth (c :: rest) position → 1 ≤ position := by
        intro position closes
        by_contra isZero
        obtain rfl : position = 0 := by omega
        exact notHere (closesBeyond_zero.mp closes)
      simp only [isLeast_shift late, same, Option.map_eq_some_iff, ih]
    rw [bodyLength?_cons]
    by_cases opens : c = '{'
    · subst opens
      exact onward (fun both => absurd both.1 (by decide)) fun _ => closesBeyond_succ_open
    · rw [if_neg (by simpa using opens)]
      by_cases closes : c = '}'
      · subst closes
        by_cases shallow : depth = 0
        · -- This brace closes the body, and no position is before it.
          subst shallow
          have here : ClosesBeyond 0 ('}' :: rest) 0 := closesBeyond_zero.mpr ⟨rfl, rfl⟩
          have isLeast : IsLeast {position | ClosesBeyond 0 ('}' :: rest) position} 0 :=
            ⟨here, fun _ _ => Nat.zero_le _⟩
          constructor
          · rintro ⟨⟩
            exact isLeast
          · intro isLength
            rw [isLength.unique isLeast]
            rfl
        · -- This brace closes another one that was opened on the way.
          rw [if_pos (by decide), if_neg (by simpa using shallow)]
          exact onward (fun both => shallow both.2) fun _ => closesBeyond_succ_close shallow
      · rw [if_neg (by simpa using closes)]
        exact onward (fun both => closes both.1) fun _ => closesBeyond_succ_plain opens closes

/-- Up to the first brace that closes more than is open, no more braces are closed than are
opened. -/
theorem count_le_of_isLeast {text : List Char} {length : Nat}
    (isLeast : IsLeast {position | ClosesBeyond 0 text position} length)
    (early : position ≤ length) :
    (text.take position).count '}' ≤ (text.take position).count '{' := by
  -- The balance falls by one at most with each character, and where it is even, the next one does
  -- not close.
  induction position with
  | zero => simp
  | succ position ih =>
    have balance := ih (by omega)
    have notHere : ¬ ClosesBeyond 0 text position := by
      intro closes
      have : length ≤ position := isLeast.2 closes
      omega
    rw [List.take_add_one]
    cases next : text[position]? with
    | none => simpa using balance
    | some c =>
      rw [Option.toList_some, List.count_append, List.count_append]
      by_cases closes : c = '}'
      · subst closes
        have uneven : (text.take position).count '{' ≠ (text.take position).count '}' := by
          intro even
          exact notHere ⟨next, by rw [Nat.zero_add, even]⟩
        rw [List.count_singleton_self]
        omega
      · have notClosed : [c].count '}' = 0 := List.count_eq_zero.mpr (by simpa using Ne.symm closes)
        omega

/-- Positions in a source and those counted from the start of a body. -/
theorem closesAt_add :
    ClosesAt source start (position + start) ↔ ClosesBeyond 0 (source.drop start) position := by
  have isBetween : between source start (position + start) = (source.drop start).take position := by
    rw [between, Nat.add_sub_cancel]
  have isBrace : (source.drop start)[position]? = source[position + start]? := by
    rw [List.getElem?_drop, Nat.add_comm]
  -- The two say the same of the same characters, and the start is no later than the place behind
  -- it.
  constructor
  · rintro ⟨_, brace, level⟩
    rw [isBetween] at level
    exact ⟨isBrace.trans brace, by rwa [Nat.zero_add]⟩
  · rintro ⟨brace, level⟩
    rw [Nat.zero_add, ← isBetween] at level
    exact ⟨Nat.le_add_left start position, isBrace.symm.trans brace, level⟩

/-- The first brace at which a body can close is the one that is found by counting. -/
theorem isLeast_closesAt :
    IsLeast {stop | ClosesAt source start stop} stop ↔
      ∃ length, bodyLength? 0 (source.drop start) = some length ∧ length + start = stop := by
  simp only [isLeast_shift fun _ (closes : ClosesAt source start _) => closes.behind, closesAt_add,
    bodyLength?_eq_some_iff]

namespace Reader

open Lineage.Text.Reader

variable {found : Found Unit}

/-- An opening that is found in a source ends with a brace of the source. -/
theorem foundAt_opening
    (isFound : (opening kind name).foundAt (placeAt source position) = some found) :
    ∃ front, source = front ++ '{' :: found.after.rest ∧ found.after.offset = front.length + 1 ∧
      position ≤ front.length := by
  obtain ⟨⟨value, after⟩, isHead, rfl⟩ := Option.map_eq_some_iff.mp isFound
  obtain ⟨spelled, gap, rest, split, _, _, same⟩ := mem_opening.mp (List.mem_of_head? isHead)
  cases same
  have within : position < source.length := by
    by_contra outside
    rw [List.drop_of_length_le (by omega)] at split
    simp at split
  -- Before the brace stand what precedes the header, the header and the gap behind it.
  refine ⟨source.take position ++ (spelled ++ gap), ?_, ?_, ?_⟩
  · show source = _ ++ '{' :: rest
    rw [List.append_assoc, List.append_assoc, ← split, List.take_append_drop]
  · show (Cursor.beyond (min position source.length) _ (spelled ++ (gap ++ ['{'])) rest).offset = _
    simp only [Cursor.offset_beyond, List.length_append, List.length_singleton, List.length_take]
    omega
  · rw [List.length_append, List.length_take]
    omega

/-- What is left behind an opening is the source from there on. -/
theorem rest_of_foundAt_opening
    (isFound : (opening kind name).foundAt (placeAt source position) = some found) :
    found.after.rest = source.drop found.after.offset := by
  obtain ⟨front, whole, isOffset, _⟩ := foundAt_opening isFound
  rw [isOffset, whole, ← List.drop_drop, List.drop_left]
  rfl

/-- What is found in code is what is found at positions that no literal covers. -/
theorem foundAt_openingInCode_eq_some_iff :
    (openingInCode (literalSpans source) kind name).foundAt (placeAt source position) = some found ↔
      inSpan (literalSpans source) position = false ∧
        (opening kind name).foundAt (placeAt source position) = some found := by
  -- Nothing opens behind the end of the source, and up to there a place is at the position it was
  -- made from.
  have isOffset : (opening kind name).foundAt (placeAt source position) = some found →
      (placeAt source position).offset = position := by
    intro isFound
    obtain ⟨front, whole, _, within⟩ := foundAt_opening isFound
    have longer : source.length = front.length + (found.after.rest.length + 1) := by
      rw [whole, List.length_append, List.length_cons]
    exact offset_placeAt (by omega)
  rw [openingInCode, foundAt_inCode]
  constructor
  · intro isFound
    split at isFound
    · cases isFound
    · rename_i uncovered
      rw [isOffset isFound, Bool.not_eq_true] at uncovered
      exact ⟨uncovered, isFound⟩
  · rintro ⟨uncovered, isFound⟩
    rw [isOffset isFound, uncovered]
    exact isFound

end Reader

/-- A type is opened where the search for its opening has a match outside of all literals. -/
theorem opensAt_iff :
    OpensAt source kind name position ↔
      ((Reader.openingInCode (literalSpans source) kind name).foundAt
        (placeAt source position)).isSome := by
  rw [OpensAt, openingEnd?, Option.isSome_map, Option.isSome_iff_exists, Option.isSome_iff_exists]
  simp only [Reader.foundAt_openingInCode_eq_some_iff, exists_and_left]

/-- The search in code finds the opening at the least position where there is one. -/
theorem first_openingInCode_eq_some_iff {found : Text.Reader.Found Unit} :
    (Reader.openingInCode (literalSpans source) kind name).first source = some found ↔
      ∃ position, IsLeast {position | OpensAt source kind name position} position ∧
        (Reader.opening kind name).foundAt (placeAt source position) = some found := by
  -- The search finds the least position with a match, and these are the openings.
  simp only [← Text.Reader.firstBehind_zero, Text.Reader.firstBehind_eq_some_iff, ← opensAt_iff,
    Reader.foundAt_openingInCode_eq_some_iff, Nat.zero_le, true_and]
  constructor
  · rintro ⟨position, isLeast, _, isFound⟩
    exact ⟨position, isLeast, isFound⟩
  · rintro ⟨position, isLeast, isFound⟩
    exact ⟨position, isLeast, isLeast.1.1, isFound⟩

/-- Where an opening is found, it begins at the position itself. -/
theorem start_of_foundAt_opening {found : Text.Reader.Found Unit}
    (isFound : (Reader.opening kind name).foundAt (placeAt source position) = some found) :
    found.start = position := by
  -- The brace behind the opening is still in the source, so the position is not beyond its end.
  obtain ⟨front, whole, _, within⟩ := Reader.foundAt_opening isFound
  have longer : source.length = front.length + (found.after.rest.length + 1) := by
    rw [whole, List.length_append, List.length_cons]
  rw [start_of_foundAt isFound, offset_placeAt (by omega)]

/-- The search for the opening ends after no more rejected headers than there are characters, goes
one way only, and finds the least position at which the type opens in code. -/
theorem exists_searches_opening (source : List Char) (kind : Kind) (name : List Char) :
    ∃ rejected opened, Searches (Reader.opening kind name) source
      (literalSpans source) 0 rejected opened ∧
      rejected.length ≤ source.length ∧
      (∀ rejected' opened', Searches (Reader.opening kind name) source (literalSpans source) 0
        rejected' opened' →
        rejected' = rejected ∧ opened' = opened) ∧
      ∀ position, opened.map (·.start) = some position ↔
        IsLeast {position | OpensAt source kind name position} position := by
  obtain ⟨rejected, searches, few⟩ := exists_searches (Reader.opening kind name)
    (fun _ listed => stop_le_of_mem_literalSpans (List.mem_toArray.mp listed)) 0
  have inOrder : InOrder (literalSpans source) := inOrder_spansFrom 0 (pieces source)
  rw [Reader.firstOutside_eq inOrder, Text.Reader.firstBehind_zero] at searches
  refine ⟨rejected, _, searches, few, fun _ _ other => searches.unique other, fun position => ?_⟩
  rw [Option.map_eq_some_iff]
  -- The result of the search is what a test of every position finds first.
  constructor
  · rintro ⟨found, isFirst, rfl⟩
    obtain ⟨position, isLeast, isFound⟩ := first_openingInCode_eq_some_iff.mp isFirst
    rwa [start_of_foundAt_opening isFound]
  · intro isLeast
    obtain ⟨found, isFound⟩ :=
      Option.isSome_iff_exists.mp (Option.isSome_map.symm.trans isLeast.1.2)
    exact ⟨found, first_openingInCode_eq_some_iff.mpr ⟨position, isLeast, isFound⟩,
      start_of_foundAt_opening isFound⟩

/-- A body is found behind the opening that is found, if it is closed. -/
theorem body?_eq_some_iff {body : Body} :
    body? source kind name = some body ↔ ∃ position found length,
      IsLeast {position | OpensAt source kind name position} position ∧
        (Reader.opening kind name).foundAt (placeAt source position) = some found ∧
        bodyLength? 0 (source.drop found.after.offset) = some length ∧
        body = ⟨found.after.offset, (source.drop found.after.offset).take length⟩ := by
  simp only [body?_eq, Option.bind_eq_some_iff, first_openingInCode_eq_some_iff]
  -- What follows the opening is the source from there on.
  constructor
  · rintro ⟨found, ⟨position, isLeast, isFound⟩, length, isLength, same⟩
    cases same
    rw [Reader.rest_of_foundAt_opening isFound] at isLength ⊢
    exact ⟨position, found, length, isLeast, isFound, isLength, rfl⟩
  · rintro ⟨position, found, length, isLeast, isFound, isLength, rfl⟩
    rw [← Reader.rest_of_foundAt_opening isFound] at isLength ⊢
    exact ⟨found, ⟨position, isLeast, isFound⟩, length, isLength, rfl⟩

/-- What was found to be a body lies where a body should. -/
theorem isBodySpan_of_body? {body : Body} (isBody : body? source kind name = some body) :
    IsBodySpan source kind name body.start body.stop ∧
      body.text = between source body.start body.stop := by
  obtain ⟨position, found, length, isLeast, isFound, isLength, rfl⟩ := body?_eq_some_iff.mp isBody
  -- The closing brace is in the source, so the text before it is not cut short.
  have within : length < (source.drop found.after.offset).length :=
    (List.getElem?_eq_some_iff.mp (bodyLength?_eq_some_iff.mp isLength).1.1).1
  have isStop : Body.stop ⟨found.after.offset, (source.drop found.after.offset).take length⟩ =
      length + found.after.offset := by
    rw [Body.stop, List.length_take, Nat.min_eq_left (Nat.le_of_lt within)]
    exact Nat.add_comm _ _
  rw [isStop]
  refine ⟨⟨⟨position, isLeast, ?_⟩, isLeast_closesAt.mpr ⟨length, isLength, rfl⟩⟩, ?_⟩
  · rw [openingEnd?, isFound, Option.map_some]
  · rw [between, Nat.add_sub_cancel]

/-- Where a body should lie, it is found. -/
theorem body?_of_isBodySpan (span : IsBodySpan source kind name start stop) :
    ∃ body, body? source kind name = some body ∧ body.start = start ∧ body.stop = stop := by
  obtain ⟨position, isLeast, isEnd⟩ := span.opens
  obtain ⟨found, isFound, rfl⟩ := Option.map_eq_some_iff.mp isEnd
  obtain ⟨length, isLength, _⟩ := isLeast_closesAt.mp span.closes
  have isBody := body?_eq_some_iff.mpr ⟨position, found, length, isLeast, isFound, isLength, rfl⟩
  -- There is only one first brace that closes the body.
  exact ⟨_, isBody, rfl, (isBodySpan_of_body? isBody).1.closes.unique span.closes⟩

/-- A body stands between braces, and no part from its start on closes more braces than it opens. -/
theorem IsBodySpan.braces (span : IsBodySpan source kind name start stop) :
    0 < start ∧ source[start - 1]? = some '{' ∧ source[stop]? = some '}' ∧
      ∀ taken, taken <+: between source start stop → taken.count '}' ≤ taken.count '{' := by
  -- The header ends with the brace before the body, and the walk ends at the one behind it.
  obtain ⟨position, _, isEnd⟩ := span.opens
  obtain ⟨found, isFound, rfl⟩ := Option.map_eq_some_iff.mp isEnd
  obtain ⟨front, whole, isOffset, _⟩ := Reader.foundAt_opening isFound
  obtain ⟨length, isLength, rfl⟩ := isLeast_closesAt.mp span.closes
  refine ⟨by omega, ?_, span.closes.1.brace, fun taken begins => ?_⟩
  · rw [isOffset, Nat.add_sub_cancel, whole]
    simp
  · -- A part from the start on is what stands before some position of the walk.
    rw [between, Nat.add_sub_cancel] at begins
    have short : taken.length ≤ length := by
      have := begins.length_le
      rw [List.length_take] at this
      omega
    rw [List.prefix_iff_eq_take.mp begins, List.take_take, Nat.min_eq_left short]
    exact count_le_of_isLeast (bodyLength?_eq_some_iff.mp isLength) short

/-- The search for a body ends for every source: it rejects no more headers than there are
characters, and stops at the least position at which the type opens in code. The body is found
where it lies, and nothing is found only if it lies nowhere. It stands between braces and closes no
brace that it did not open. -/
theorem body?_span (source : List Char) (kind : Kind) (name : List Char) :
    (∃ rejected opened, Searches (Reader.opening kind name) source (literalSpans source) 0 rejected
      opened ∧
      rejected.length ≤ source.length ∧
      (∀ rejected' opened', Searches (Reader.opening kind name) source (literalSpans source) 0
        rejected' opened' →
        rejected' = rejected ∧ opened' = opened) ∧
      ∀ position, opened.map (·.start) = some position ↔
        IsLeast {position | OpensAt source kind name position} position) ∧
    (∀ start stop, (body? source kind name).map (fun body => (body.start, body.stop)) =
      some (start, stop) ↔
      IsBodySpan source kind name start stop) ∧
    (body? source kind name = none ↔ ∀ start stop, ¬ IsBodySpan source kind name start stop) ∧
    ∀ body, body? source kind name = some body → body.text = between source body.start body.stop ∧
      0 < body.start ∧ source[body.start - 1]? = some '{' ∧ source[body.stop]? = some '}' ∧
      ∀ taken, taken <+: body.text → taken.count '}' ≤ taken.count '{' := by
  -- The search for the opening comes first, then the span in both directions, then the text.
  refine ⟨exists_searches_opening source kind name, fun start stop => ⟨?_, ?_⟩, ⟨?_, ?_⟩, ?_⟩
  · intro isSpan
    obtain ⟨body, isBody, same⟩ := Option.map_eq_some_iff.mp isSpan
    cases same
    exact (isBodySpan_of_body? isBody).1
  · intro span
    obtain ⟨body, isBody, rfl, rfl⟩ := body?_of_isBodySpan span
    rw [isBody, Option.map_some]
  · intro nothing start stop span
    obtain ⟨body, isBody, _⟩ := body?_of_isBodySpan span
    rw [isBody] at nothing
    cases nothing
  · intro nowhere
    cases isBody : body? source kind name with
    | none => rfl
    | some body => exact absurd (isBodySpan_of_body? isBody).1 (nowhere _ _)
  · intro body isBody
    obtain ⟨span, isText⟩ := isBodySpan_of_body? isBody
    exact ⟨isText, isText ▸ span.braces⟩

/-- A header in a comment opens no body, and braces that are opened in a body are closed first. -/
theorem body?_span_behind_comment :
    IsBodySpan "/* class A \x7b */ class A \x7b int[] x = \x7b1\x7d; \x7d \x7d".toList .plainClass
      "A".toList 25 41 :=
  ((body?_span _ _ _).2.1 25 41).mp (by decide +kernel)

end Lineage.Java
