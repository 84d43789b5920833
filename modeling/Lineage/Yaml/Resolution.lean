import Lineage.Text.Reader

/-! Which unquoted words YAML takes for something other than a text: the patterns for truth values,
null, numbers, moments, the merge key and the default value that version 1.1 of the language lists
in its types, as PyYAML resolves them. -/

namespace Lineage.Yaml

open Lineage.Text Lineage.Text.Reader

/-- Whether some reading takes a whole text. -/
def isWhole (reader : Reader Unit) (text : List Char) : Bool :=
  (reader (.start text)).any (·.2.rest.isEmpty)

/-- The words for truth values, null, the merge key and the default value. -/
def reservedWords : List String :=
  ["yes", "Yes", "YES", "no", "No", "NO", "true", "True", "TRUE", "false", "False", "FALSE",
    "on", "On", "ON", "off", "Off", "OFF", "~", "null", "Null", "NULL", "", "<<", "="]

/-- A digit from zero to nine. -/
def digit : Reader Unit :=
  char Char.isDigit

/-- A sign that may be absent. -/
def sign : Reader Unit := do
  let _ ← optional (char fun c => c == '-' || c == '+')

/-- Digits and low lines, or neither. -/
def digitsAndLines : Reader Unit :=
  run fun c => c.isDigit || c == '_'

/-- A digit and then digits and low lines. -/
def digitsAndLines1 : Reader Unit := do
  digit
  digitsAndLines

/-- Two digits, of which the first may be absent. -/
def oneOrTwoDigits : Reader Unit := do
  digit
  let _ ← optional digit

/-- Places of a number to the base sixty, each behind a colon. -/
def sexagesimalPlaces : Reader Unit := do
  let place : Reader Unit := do
    char (· == ':')
    let _ ← optional (char fun c => '0' ≤ c && c ≤ '5')
    digit
  place
  let _ ← many place

/-- A digit that is not zero, and then digits and low lines. -/
def wholePart : Reader Unit := do
  char fun c => '1' ≤ c && c ≤ '9'
  digitsAndLines

/-- Whole numbers: to the bases two, eight, ten, sixteen and sixty. -/
def wholeNumber : Reader Unit := do
  sign
  oneOf
    [do
      literal ['0', 'b']
      run1 fun c => c == '0' || c == '1' || c == '_',
    do
      char (· == '0')
      run1 fun c => ('0' ≤ c && c ≤ '7') || c == '_',
    char (· == '0'),
    wholePart,
    do
      literal ['0', 'x']
      run1 fun c => c.isDigit || ('a' ≤ c && c ≤ 'f') || ('A' ≤ c && c ≤ 'F') || c == '_',
    do
      wholePart
      sexagesimalPlaces]

/-- An exponent with its sign, which may be absent as a whole. -/
def exponentPart : Reader Unit := do
  let _ ← optional do
    char fun c => c == 'e' || c == 'E'
    char fun c => c == '-' || c == '+'
    run1 Char.isDigit

/-- One of several words. -/
def oneWordOf (words : List String) : Reader Unit :=
  oneOf (words.map fun word => literal word.toList)

/-- Numbers with a point, to the bases ten and sixty, infinity, and what is no number. -/
def pointNumber : Reader Unit :=
  oneOf
    [do
      sign
      digitsAndLines1
      char (· == '.')
      digitsAndLines
      exponentPart,
    do
      char (· == '.')
      digitsAndLines1
      exponentPart,
    do
      sign
      digitsAndLines1
      sexagesimalPlaces
      char (· == '.')
      digitsAndLines,
    do
      sign
      oneWordOf [".inf", ".Inf", ".INF"],
    oneWordOf [".nan", ".NaN", ".NAN"]]

/-- Four digits of a year and a hyphen. -/
def yearPart : Reader Unit := do
  digit
  digit
  digit
  digit
  char (· == '-')

/-- A run of spaces and tabs. -/
def spacesAndTabs : Reader Unit :=
  run fun c => c == ' ' || c == '\t'

/-- A colon and two digits. -/
def colonTwoDigits : Reader Unit := do
  char (· == ':')
  digit
  digit

/-- Days, and moments with a time of the day and perhaps a time zone. -/
def timestamp : Reader Unit :=
  oneOf
    [do
      yearPart
      digit
      digit
      char (· == '-')
      digit
      digit,
    do
      yearPart
      oneOrTwoDigits
      char (· == '-')
      oneOrTwoDigits
      either (char fun c => c == 'T' || c == 't') (run1 fun c => c == ' ' || c == '\t')
      oneOrTwoDigits
      colonTwoDigits
      colonTwoDigits
      let _ ← optional do
        char (· == '.')
        run Char.isDigit
      let _ ← optional do
        spacesAndTabs
        either (char (· == 'Z')) do
          char fun c => c == '-' || c == '+'
          oneOrTwoDigits
          let _ ← optional colonTwoDigits]

/-- Whether an unquoted word would be read as something other than a text. -/
def isReserved (text : List Char) : Bool :=
  reservedWords.any (·.toList == text) || isWhole wholeNumber text || isWhole pointNumber text ||
    isWhole timestamp text

end Lineage.Yaml
