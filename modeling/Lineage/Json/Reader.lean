import Lineage.Data
import Lineage.Text.Hex

/-! Data read from JSON. -/

namespace Lineage.Json

open Lineage.Text

/-- The character that a backslash and a letter stand for. -/
def escape? : Char → Option Char
  | '"' => some '"'
  | '\\' => some '\\'
  | '/' => some '/'
  | 'b' => some '\x08'
  | 'f' => some '\x0c'
  | 'n' => some '\n'
  | 'r' => some '\r'
  | 't' => some '\t'
  | _ => none

/-- The code points and 16-bit units up to the closing quote, and what follows it. -/
def readUnits : List Char → Option (List Nat × List Char)
  | [] => none
  | '"' :: rest => some ([], rest)
  | '\\' :: 'u' :: a :: b :: c :: d :: rest => do
    let unit ← hexNumber? [a, b, c, d]
    let (units, after) ← readUnits rest
    return (unit :: units, after)
  | '\\' :: letter :: rest => do
    let c ← escape? letter
    let (units, after) ← readUnits rest
    return (c.toNat :: units, after)
  | c :: rest => do
    guard (32 ≤ c.toNat && c != '\\')
    let (units, after) ← readUnits rest
    return (c.toNat :: units, after)

/-- Joins pairs of surrogates. A surrogate that stands alone is no text. -/
def joinSurrogates : List Nat → Option (List Char)
  | [] => some []
  | high :: low :: rest =>
    if 0xD800 ≤ high && high < 0xDC00 then do
      guard (0xDC00 ≤ low && low < 0xE000)
      return Char.ofNat (0x10000 + (high - 0xD800) * 0x400 + (low - 0xDC00)) ::
        (← joinSurrogates rest)
    else if 0xDC00 ≤ high && high < 0xE000 then none
    else return Char.ofNat high :: (← joinSurrogates (low :: rest))
  | [unit] => if 0xD800 ≤ unit && unit < 0xE000 then none else some [Char.ofNat unit]

/-- The text up to the closing quote, and what follows it. -/
def readText (text : List Char) : Option (String × List Char) := do
  let (units, rest) ← readUnits text
  return (String.ofList (← joinSurrogates units), rest)

/-- The text without the blanks that JSON allows between its parts. -/
def skipBlanks (text : List Char) : List Char :=
  text.dropWhile fun c => c == ' ' || c == '\t' || c == '\n' || c == '\r'

/-- At least one digit, and what follows the digits. -/
def readDigits (text : List Char) : Option (List Char × List Char) := do
  let digits := text.takeWhile Char.isDigit
  guard !digits.isEmpty
  return (digits, text.drop digits.length)

/-- The digits of a whole number, which has no zeros in front. -/
def readWhole : List Char → Option (List Char × List Char)
  | '0' :: rest => some (['0'], rest)
  | text => readDigits text

/-- A point and the digits behind it, if there is a point. -/
def readFraction : List Char → Option (List Char × List Char)
  | '.' :: rest => do
    let (digits, after) ← readDigits rest
    return ('.' :: digits, after)
  | text => some ([], text)

/-- The sign that may stand before an exponent. -/
def readSign : List Char → List Char × List Char
  | '+' :: rest => (['+'], rest)
  | '-' :: rest => (['-'], rest)
  | text => ([], text)

/-- An exponent, if there is one. -/
def readExponent : List Char → Option (List Char × List Char)
  | c :: rest =>
    if c == 'e' || c == 'E' then do
      let (sign, unsigned) := readSign rest
      let (digits, after) ← readDigits unsigned
      return (c :: sign ++ digits, after)
    else some ([], c :: rest)
  | [] => some ([], [])

/-- A number as it is written, and what follows it. -/
def readNumber (text : List Char) : Option (String × List Char) := do
  let (sign, unsigned) := match text with
    | '-' :: rest => (['-'], rest)
    | _ => ([], text)
  let (whole, afterWhole) ← readWhole unsigned
  let (fraction, afterFraction) ← readFraction afterWhole
  let (exponent, rest) ← readExponent afterFraction
  return (String.ofList (sign ++ whole ++ fraction ++ exponent), rest)

mutual

/-- One value and what follows it. The first argument bounds the nesting. -/
def readValue : Nat → List Char → Option (Data × List Char)
  | 0, _ => none
  | fuel + 1, text =>
    match skipBlanks text with
    | 'n' :: 'u' :: 'l' :: 'l' :: rest => some (.null, rest)
    | 't' :: 'r' :: 'u' :: 'e' :: rest => some (.boolean true, rest)
    | 'f' :: 'a' :: 'l' :: 's' :: 'e' :: rest => some (.boolean false, rest)
    | '"' :: rest => do
      let (value, after) ← readText rest
      return (.text value, after)
    | '[' :: rest =>
      match skipBlanks rest with
      | ']' :: after => some (.list [], after)
      | _ => do
        let (items, after) ← readItems fuel rest
        return (.list items, after)
    | '{' :: rest =>
      match skipBlanks rest with
      | '}' :: after => some (.record [], after)
      | _ => do
        let (fields, after) ← readFields fuel rest
        return (.record fields, after)
    | start => do
      let (written, rest) ← readNumber start
      return (.number written, rest)

/-- The items up to the closing bracket, at least one, and what follows it. -/
def readItems : Nat → List Char → Option (List Data × List Char)
  | 0, _ => none
  | fuel + 1, text => do
    let (item, rest) ← readValue fuel text
    match skipBlanks rest with
    | ']' :: after => return ([item], after)
    | ',' :: after => do
      let (items, last) ← readItems fuel after
      return (item :: items, last)
    | _ => none

/-- The fields up to the closing brace, at least one, and what follows it. -/
def readFields : Nat → List Char → Option (List (String × Data) × List Char)
  | 0, _ => none
  | fuel + 1, text =>
    match skipBlanks text with
    | '"' :: start => do
      let (name, afterName) ← readText start
      match skipBlanks afterName with
      | ':' :: content => do
        let (value, rest) ← readValue fuel content
        match skipBlanks rest with
        | '}' :: after => return ([(name, value)], after)
        | ',' :: after => do
          let (fields, last) ← readFields fuel after
          return ((name, value) :: fields, last)
        | _ => none
      | _ => none
    | _ => none

end

/-- The data that a whole text holds. A value opens at most two calls for each of its characters. -/
def parse? (text : List Char) : Option Data := do
  let (data, rest) ← readValue (2 * text.length + 2) text
  guard (skipBlanks rest).isEmpty
  return data

end Lineage.Json
