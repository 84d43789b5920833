/-! Readers: all the ways to read a text from a place, the preferred way first. -/

namespace Lineage.Text

/-- A place in a text: how many characters lie before it, the last of them, and what is still to be
read. -/
structure Cursor where
  offset : Nat
  before : Option Char
  rest : List Char
  deriving DecidableEq, Repr

/-- The place at the front of a text. -/
def Cursor.start (text : List Char) : Cursor :=
  ⟨0, none, text⟩

/-- The place at a position of a text, or the place at its end if the text is not so long. -/
def placeAt (text : List Char) (position : Nat) : Cursor :=
  ⟨min position text.length, (text.take position).getLast?, text.drop position⟩

/-- A stretch of a text, kept as all that follows its start and the number of characters that belong
to it. -/
structure Excerpt where
  following : List Char
  length : Nat
  deriving DecidableEq, Repr

/-- The characters of a stretch. -/
def Excerpt.text (excerpt : Excerpt) : List Char :=
  excerpt.following.take excerpt.length

/-- A reader finds every way to read a value at a place, the preferred one first, each with the
place after it. -/
def Reader (α : Type) : Type :=
  Cursor → List (α × Cursor)

namespace Reader

variable {α β : Type}

/-- Reads nothing and has one value. -/
protected def pure (value : α) : Reader α :=
  fun place => [(value, place)]

/-- Each way to read the first part, in order, followed by each way to read what comes next. -/
protected def bind (first : Reader α) (next : α → Reader β) : Reader β :=
  fun place => (first place).flatMap fun (value, after) => next value after

instance : Monad Reader where
  pure := Reader.pure
  bind := Reader.bind

/-- A part that reads nothing can be left out, and it does not matter how parts in a row are
grouped. -/
instance : LawfulMonad Reader :=
  LawfulMonad.mk' Reader
    (fun reader => funext fun place => by
      show (reader place).flatMap (fun (value, after) => [(value, after)]) = reader place
      simp)
    (fun value next => funext fun place => by
      show [(value, place)].flatMap (fun (value, after) => next value after) = next value place
      simp)
    (fun first second third => funext fun place => by
      show ((first place).flatMap fun (value, after) => second value after).flatMap
          (fun (value, after) => third value after) =
        (first place).flatMap fun (value, after) =>
          (second value after).flatMap fun (value, after) => third value after
      exact List.flatMap_assoc)

/-- Either of two readings, all those of the first before those of the second. -/
def either (first second : Reader α) : Reader α :=
  fun place => first place ++ second place

/-- One of several readings, in the order in which they are listed. -/
def oneOf (choices : List (Reader α)) : Reader α :=
  fun place => choices.flatMap fun choice => choice place

/-- One character of a class. -/
def char (p : Char → Bool) : Reader Unit
  | ⟨_, _, []⟩ => []
  | ⟨offset, _, c :: rest⟩ => if p c then [((), ⟨offset + 1, some c, rest⟩)] else []

/-- Exactly these characters. -/
def literal : List Char → Reader Unit
  | [], place => [((), place)]
  | c :: more, place => (char (· == c) place).flatMap fun (_, after) => literal more after

/-- One of several words, in the order in which they are listed. The word is also the value. -/
def wordOf (words : List (List Char)) : Reader (List Char) :=
  fun place => words.flatMap fun word => (literal word place).map fun (_, after) => (word, after)

/-- The places reached by taking no character of a class, one, two and so on, as far as the class
goes. -/
def stops (p : Char → Bool) (offset : Nat) (before : Option Char) : List Char → List Cursor
  | [] => [⟨offset, before, []⟩]
  | c :: rest =>
    ⟨offset, before, c :: rest⟩ :: if p c then stops p (offset + 1) (some c) rest else []

/-- A run of characters of a class, the longest first. -/
def run (p : Char → Bool) : Reader Unit :=
  fun place => (stops p place.offset place.before place.rest).reverse.map fun stop => ((), stop)

/-- A run of characters of a class, the shortest first. -/
def shortRun (p : Char → Bool) : Reader Unit :=
  fun place => (stops p place.offset place.before place.rest).map fun stop => ((), stop)

/-- A run of at least one character of a class, the longest first. -/
def run1 (p : Char → Bool) : Reader Unit := do
  char p
  run p

/-- A run of at least one character of a class, the shortest first. -/
def shortRun1 (p : Char → Bool) : Reader Unit := do
  char p
  shortRun p

/-- The place before the first occurrence of a mark, or the end of the text if there is none. -/
def placeBefore (mark : List Char) (offset : Nat) (before : Option Char) : List Char → Cursor
  | [] => ⟨offset, before, []⟩
  | c :: rest =>
    if mark.isPrefixOf (c :: rest) then ⟨offset, before, c :: rest⟩
    else placeBefore mark (offset + 1) (some c) rest

/-- All that precedes the first occurrence of a mark. -/
def upTo (mark : List Char) : Reader Unit :=
  fun place => [((), placeBefore mark place.offset place.before place.rest)]

/-- A value or, as the second choice, nothing. -/
def optional (reader : Reader α) : Reader (Option α) :=
  fun place => (reader place).map (fun (value, after) => (some value, after)) ++ [(none, place)]

/-- As many values as can be read, then ever fewer. A value that takes no character is not
counted. -/
def many (reader : Reader α) (place : Cursor) : List (List α × Cursor) :=
  ((reader place).flatMap fun (value, after) =>
    if after.rest.length < place.rest.length then
      (many reader after).map fun (values, last) => (value :: values, last)
    else []) ++ [([], place)]
termination_by place.rest.length

/-- The stretch of text that a reader takes, in place of its value. -/
def stretch (reader : Reader α) : Reader Excerpt :=
  fun place => (reader place).map fun (_, after) =>
    (⟨place.rest, after.offset - place.offset⟩, after)

/-- Reads nothing, and only at places that satisfy a condition. -/
def ensure (p : Cursor → Bool) : Reader Unit :=
  fun place => if p place then [((), place)] else []

/-- Reads nothing, and only where the character before is not of a class. -/
def notAfter (p : Char → Bool) : Reader Unit :=
  ensure fun place => !place.before.any p

/-- Reads nothing, and only where the next character is not of a class. -/
def notBefore (p : Char → Bool) : Reader Unit :=
  ensure fun place => !place.rest.head?.any p

/-- What a reader found: where it began, the place after it, and the value. -/
structure Found (α : Type) where
  start : Nat
  after : Cursor
  value : α

/-- The preferred reading at one place. -/
def foundAt (reader : Reader α) (place : Cursor) : Option (Found α) :=
  (reader place).head?.map fun (value, after) => ⟨place.offset, after, value⟩

/-- The preferred reading at the first place, from the given one on, where there is any. -/
def firstFrom (reader : Reader α) (offset : Nat) (before : Option Char) :
    List Char → Option (Found α)
  | [] => reader.foundAt ⟨offset, before, []⟩
  | c :: rest =>
    (reader.foundAt ⟨offset, before, c :: rest⟩).or (firstFrom reader (offset + 1) (some c) rest)

/-- The first reading in a text. -/
def first (reader : Reader α) (text : List Char) : Option (Found α) :=
  reader.firstFrom 0 none text

/-- The first reading in a text that begins at a position or behind it. What stands before the
position can still be looked back at. -/
def firstBehind (reader : Reader α) (text : List Char) (position : Nat) : Option (Found α) :=
  reader.firstFrom (placeAt text position).offset (placeAt text position).before
    (placeAt text position).rest

/-- What is found from a place on does not begin before it. -/
theorem offset_le_start {reader : Reader α} {offset : Nat} {before : Option Char} {text : List Char}
    {found : Found α} (isFirst : reader.firstFrom offset before text = some found) :
    offset ≤ found.start := by
  -- A reading begins at the place where it is found, and the search only moves on.
  have atPlace : ∀ {place : Cursor}, reader.foundAt place = some found →
      found.start = place.offset := by
    intro place here
    obtain ⟨_, _, rfl⟩ := Option.map_eq_some_iff.mp here
    rfl
  induction text generalizing offset before with
  | nil => exact Nat.le_of_eq (atPlace isFirst).symm
  | cons c rest ih =>
    rw [firstFrom, Option.or_eq_some_iff] at isFirst
    rcases isFirst with here | ⟨_, later⟩
    · exact Nat.le_of_eq (atPlace here).symm
    · exact Nat.le_of_succ_le (ih later)

/-- The readings that begin in what is left, from left to right, after `skip` characters that belong
to the reading before. -/
def allFrom (reader : Reader α) (offset : Nat) (before : Option Char) :
    Nat → List Char → List (Found α)
  | _, [] => []
  | skip + 1, c :: rest => allFrom reader (offset + 1) (some c) skip rest
  | 0, c :: rest =>
    match reader.foundAt ⟨offset, before, c :: rest⟩ with
    | none => allFrom reader (offset + 1) (some c) 0 rest
    | some found =>
      found :: allFrom reader (offset + 1) (some c) (found.after.offset - offset - 1) rest

/-- The readings in a text from left to right, none of which begins within another. -/
def all (reader : Reader α) (text : List Char) : List (Found α) :=
  reader.allFrom 0 none 0 text

end Reader

end Lineage.Text
