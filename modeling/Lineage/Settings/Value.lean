import Lineage.Number.Shortest
import Lineage.Number.Whole
import Lineage.Text.Quoted

/-! The values that a setting can have before it is checked, and how messages show them. -/

namespace Lineage.Settings

/-- A day of the calendar. -/
structure Date where
  year : Nat
  month : Nat
  day : Nat
  deriving DecidableEq, Repr

/-- A time of the day. -/
structure Clock where
  hour : Nat
  minute : Nat
  second : Nat
  microsecond : Nat
  deriving DecidableEq, Repr

/-- A value of any type. The offset of a moment from universal time is in minutes. -/
inductive Value where
  | absent
  | boolean (value : Bool)
  | whole (value : Int)
  | float (value : Number.Binary64)
  | text (value : String)
  | date (date : Date)
  | time (clock : Clock)
  | moment (date : Date) (clock : Clock) (offset : Option Int)
  | list (items : List Value)
  | table (entries : List (String × Value))
  deriving Inhabited, Repr

/-- The second and the microsecond of a time, left off from the end while they are zero. -/
def Clock.tail (clock : Clock) : List Nat :=
  if clock.microsecond != 0 then [clock.second, clock.microsecond]
  else if clock.second != 0 then [clock.second]
  else []

/-- Numbers with commas between them. -/
def commaSeparated (numbers : List Nat) : String :=
  ", ".intercalate (numbers.map toString)

/-- A span of minutes: whole days, of which there may be fewer than none, and the seconds beyond
them. -/
def describeSpan (minutes : Int) : String :=
  let seconds := minutes * 60
  let days := seconds.fdiv 86400
  let beyond := seconds.fmod 86400
  let parts := (if days == 0 then [] else ["days=" ++ toString days]) ++
    (if beyond == 0 then [] else ["seconds=" ++ toString beyond])
  "datetime.timedelta(" ++ (if parts.isEmpty then "0" else ", ".intercalate parts) ++ ")"

/-- An offset from universal time. -/
def describeOffset (minutes : Int) : String :=
  if minutes == 0 then "datetime.timezone.utc"
  else "datetime.timezone(" ++ describeSpan minutes ++ ")"

mutual

/-- A value as messages show it. -/
def describe : Value → String
  | .absent => "None"
  | .boolean value => if value then "True" else "False"
  | .whole value => toString value
  | .float value => value.text
  | .text value => Text.quoted value
  | .date date => "datetime.date(" ++ commaSeparated [date.year, date.month, date.day] ++ ")"
  | .time clock => "datetime.time(" ++ commaSeparated
    ([clock.hour, clock.minute] ++ clock.tail) ++ ")"
  | .moment date clock offset =>
    "datetime.datetime(" ++
      commaSeparated ([date.year, date.month, date.day, clock.hour, clock.minute] ++ clock.tail) ++
      (match offset with
        | none => ""
        | some minutes => ", tzinfo=" ++ describeOffset minutes) ++ ")"
  | .list items => "[" ++ describeItems items ++ "]"
  | .table entries => "\x7b" ++ describeEntries entries ++ "\x7d"

/-- Values with commas between them. -/
def describeItems : List Value → String
  | [] => ""
  | [item] => describe item
  | item :: more => describe item ++ ", " ++ describeItems more

/-- Entries of a table with commas between them. -/
def describeEntries : List (String × Value) → String
  | [] => ""
  | [(name, value)] => Text.quoted name ++ ": " ++ describe value
  | (name, value) :: more =>
    Text.quoted name ++ ": " ++ describe value ++ ", " ++ describeEntries more

end

mutual

/-- Whether a message can show a value: no whole number in it has too many digits. -/
def Value.isShowable : Value → Bool
  | .whole value => (Nat.toDigits 10 value.natAbs).length ≤ Number.digitLimit
  | .list items => showableItems items
  | .table entries => showableEntries entries
  | _ => true

/-- Whether a message can show all of some values. -/
def showableItems : List Value → Bool
  | [] => true
  | item :: more => item.isShowable && showableItems more

/-- Whether a message can show all entries of a table. -/
def showableEntries : List (String × Value) → Bool
  | [] => true
  | (_, value) :: more => value.isShowable && showableEntries more

end

/-- The text that a value is. -/
def Value.text? : Value → Option String
  | .text value => some value
  | _ => none

end Lineage.Settings
