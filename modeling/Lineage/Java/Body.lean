import Lineage.Declaration
import Lineage.Java.Header
import Lineage.Java.Literal

/-! The body of a declaration: what stands between its braces. -/

namespace Lineage.Java

open Lineage.Text

/-- How many spans begin at a position or before it, for spans that are listed from left to right.
The part of the list in which the answer lies, from `low` up to `high`, is halved until nothing is
left of it. -/
def begunBy (spans : Array (Nat × Nat)) (position low high : Nat) (within : high ≤ spans.size) :
    Nat :=
  if unsettled : low < high then
    if position < (spans[(low + high) / 2]).1 then
      begunBy spans position low ((low + high) / 2) (by omega)
    else begunBy spans position ((low + high) / 2 + 1) high within
  else low
termination_by high - low

/-- Whether a span covers a position. Of the spans that begin at it or before it, only the last can
reach so far. -/
def covers (spans : Array (Nat × Nat)) (position : Nat) : Bool :=
  match begunBy spans position 0 spans.size (Nat.le_refl _) with
  | 0 => false
  | earlier + 1 => spans[earlier]?.any (position < ·.2)

/-- What is covered lies before the end of some span. -/
theorem exists_lt_of_covers {spans : Array (Nat × Nat)} {position : Nat}
    (covered : covers spans position = true) :
    ∃ span ∈ spans, position < span.2 := by
  unfold covers at covered
  split at covered
  · cases covered
  · -- The span that was looked up is one of the list.
    obtain ⟨span, isSpan, reaches⟩ := (Option.any_eq_true _ _).mp covered
    exact ⟨span, Array.mem_of_getElem? isSpan, by simpa using reaches⟩

namespace Reader

open Lineage.Text.Reader

/-- The header of the type with a given name, and all that follows it up to and with the opening
brace. -/
def opening (kind : Kind) (name : List Char) : Reader Unit := do
  match kind with
  | .interface => let _ ← interfaceHeader (literal name)
  | _ => let _ ← classHeader (literal name)
  run fun c => !(c == '{' || c == ';')
  char (· == '{')

/-- The first reading in a text, from a position on, that does not begin in one of the spans. A
reading that begins in a span may run past it, so the search goes on right behind the start of such
a reading. -/
def firstOutside {α : Type} (reader : Reader α) (text : List Char) (spans : Array (Nat × Nat))
    (bounded : ∀ span ∈ spans, span.2 ≤ text.length) (position : Nat) : Option (Found α) :=
  match isFirst : reader.firstBehind text position with
  | none => none
  | some found =>
    if covered : covers spans found.start then
      firstOutside reader text spans bounded (found.start + 1)
    else some found
termination_by text.length - position
decreasing_by
  -- A span that covers the start ends within the text, so the search has not come to the end.
  obtain ⟨span, listed, reaches⟩ := exists_lt_of_covers covered
  have inside := bounded span listed
  have onward : min position text.length ≤ found.start := offset_le_start isFirst
  omega

end Reader

/-- How many characters precede the brace that closes a body, with `depth` braces open inside it.
Braces in literals count as well. -/
def bodyLength? (depth : Nat) : List Char → Option Nat
  | [] => none
  | c :: rest =>
    if c == '{' then (bodyLength? (depth + 1) rest).map (· + 1)
    else if c == '}' then
      match depth with
      | 0 => some 0
      | shallower + 1 => (bodyLength? shallower rest).map (· + 1)
    else (bodyLength? depth rest).map (· + 1)

/-- The body of a declaration and the place where it begins. -/
structure Body where
  start : Nat
  text : List Char
  deriving DecidableEq, Repr

/-- The place behind a body. -/
def Body.stop (body : Body) : Nat :=
  body.start + body.text.length

/-- The body behind the first header of the type outside comments and literals. There is none if the
header or the closing brace is missing. -/
def body? (source : List Char) (kind : Kind) (name : List Char) : Option Body := do
  let found ← Reader.firstOutside (Reader.opening kind name) source (literalSpans source).toArray
    (fun _ listed => stop_le_of_mem_literalSpans (List.mem_toArray.mp listed)) 0
  let length ← bodyLength? 0 found.after.rest
  return ⟨found.after.offset, found.after.rest.take length⟩

end Lineage.Java
