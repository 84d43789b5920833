import Lineage.Settings.Value
import Lineage.Text.Reader

/-! Numbers, days and times in TOML. -/

namespace Lineage.Toml

open Lineage.Settings Lineage.Text Lineage.Text.Reader

/-- One digit of a class, and further ones, each of which a low line may precede. -/
def digitRun (p : Char → Bool) : Reader Excerpt :=
  stretch do
    char p
    let _ ← many do
      let _ ← optional (char (· == '_'))
      char p

/-- The digits of a run without the low lines. -/
def bareDigits (digits : Excerpt) : List Char :=
  digits.text.filter (· != '_')

/-- The value of digits to the base ten. -/
def decimalValue (digits : List Char) : Nat :=
  digits.foldl (fun value c => value * 10 + (c.toNat - 48)) 0

/-- A number as it is written. -/
inductive NumberText where
  | hexadecimal (digits : Excerpt)
  | binary (digits : Excerpt)
  | octal (digits : Excerpt)
  | decimal (negative : Bool) (whole : Excerpt) (fraction : Option Excerpt)
      (exponent : Option (Bool × Excerpt))

/-- A sign, true for minus, or none. -/
def signText : Reader Bool := do
  let sign ← optional (stretch (char fun c => c == '+' || c == '-'))
  return sign.any fun sign => sign.text == ['-']

/-- The whole part of a decimal number: a zero, or digits that begin with another digit. -/
def wholeText : Reader Excerpt :=
  either (stretch (char (· == '0'))) <| stretch do
    char fun c => '1' ≤ c && c ≤ '9'
    let _ ← many do
      let _ ← optional (char (· == '_'))
      char Char.isDigit

/-- A number to the base sixteen, two, eight or ten. -/
def numberText : Reader NumberText :=
  oneOf
    [do
      literal ['0', 'x']
      return .hexadecimal (← digitRun fun c => (hexValue? c).isSome),
    do
      literal ['0', 'b']
      return .binary (← digitRun fun c => c == '0' || c == '1'),
    do
      literal ['0', 'o']
      return .octal (← digitRun fun c => '0' ≤ c && c ≤ '7'),
    do
      let negative ← signText
      let whole ← wholeText
      let fraction ← optional do
        char (· == '.')
        digitRun Char.isDigit
      let exponent ← optional do
        char fun c => c == 'e' || c == 'E'
        let negative ← signText
        let digits ← digitRun Char.isDigit
        return (negative, digits)
      return .decimal negative whole fraction exponent]

/-- The value of digits to a base that is a power of two. -/
def baseValue (base : Nat) (digits : Excerpt) : Nat :=
  (bareDigits digits).foldl (fun value c => value * base + (hexValue? c).getD 0) 0

/-- A number with a sign. -/
def signed (negative : Bool) (value : Nat) : Int :=
  if negative then -value else value

/-- Whole numbers to the base ten have at most this many digits. -/
def digitLimit : Nat :=
  4300

/-- The value of a number, or the number of its digits if there are too many. A fraction or an
exponent makes it a floating-point number. -/
def NumberText.value : NumberText → Except Nat Value
  | .hexadecimal digits => .ok (.whole (baseValue 16 digits))
  | .binary digits => .ok (.whole (baseValue 2 digits))
  | .octal digits => .ok (.whole (baseValue 8 digits))
  | .decimal negative whole none none =>
    let digits := bareDigits whole
    if digitLimit < digits.length then .error digits.length
    else .ok (.whole (signed negative (decimalValue digits)))
  | .decimal negative whole fraction exponent =>
    let places := (fraction.map bareDigits).getD []
    let power := (exponent.map fun (negative, digits) =>
      signed negative (decimalValue (bareDigits digits))).getD 0
    .ok (.float (.ofDecimal negative (decimalValue (bareDigits whole ++ places))
      (power - places.length)))

/-- The number of days in a month. -/
def daysIn (year month : Nat) : Nat :=
  let leap := year % 4 == 0 && (year % 100 != 0 || year % 400 == 0)
  match month with
  | 2 => if leap then 29 else 28
  | 4 | 6 | 9 | 11 => 30
  | _ => 31

/-- Whether a day is in the calendar, which begins with the year one. -/
def isDay (date : Date) : Bool :=
  1 ≤ date.year && 1 ≤ date.day && date.day ≤ daysIn date.year date.month

/-- Two digits with a value within bounds. -/
def twoDigits (least most : Nat) : Reader Nat := fun place =>
  match place.rest with
  | a :: b :: rest =>
    let value := decimalValue [a, b]
    if a.isDigit && b.isDigit && least ≤ value && value ≤ most then
      [(value, ⟨place.offset + 2, some b, rest⟩)]
    else []
  | _ => []

/-- Four digits of a year, and a month and a day behind hyphens. -/
def dateText : Reader Date := do
  let year ← stretch do
    char Char.isDigit
    char Char.isDigit
    char Char.isDigit
    char Char.isDigit
  char (· == '-')
  let month ← twoDigits 1 12
  char (· == '-')
  let day ← twoDigits 1 31
  return ⟨decimalValue year.text, month, day⟩

/-- Millionths of a second from the digits behind the point, of which six count. -/
def microseconds (digits : List Char) : Nat :=
  decimalValue ((digits ++ List.replicate 6 '0').take 6)

/-- Hours, minutes and seconds with colons between them, and perhaps a fraction of a second. -/
def clockText : Reader Clock := do
  let hour ← twoDigits 0 23
  char (· == ':')
  let minute ← twoDigits 0 59
  char (· == ':')
  let second ← twoDigits 0 59
  let fraction ← optional do
    char (· == '.')
    stretch (run1 Char.isDigit)
  return ⟨hour, minute, second, (fraction.map fun digits => microseconds digits.text).getD 0⟩

/-- An offset from universal time in minutes. -/
def offsetText : Reader Int :=
  oneOf
    [do
      char fun c => c == 'Z' || c == 'z'
      return 0,
    do
      let sign ← stretch (char fun c => c == '+' || c == '-')
      let hours ← twoDigits 0 23
      char (· == ':')
      let minutes ← twoDigits 0 59
      return signed (sign.text == ['-']) (hours * 60 + minutes)]

/-- A day, and perhaps a time of that day with or without an offset. -/
def momentText : Reader (Date × Option (Clock × Option Int)) := do
  let date ← dateText
  let rest ← optional do
    char fun c => c == 'T' || c == 't' || c == ' '
    let clock ← clockText
    let offset ← optional offsetText
    return (clock, offset)
  return (date, rest)

end Lineage.Toml
