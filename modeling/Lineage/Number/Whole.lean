import Lineage.Text.Blank
import Lineage.Text.Digit

/-! Whole numbers as people type them. -/

namespace Lineage.Number

open Lineage.Text

/-- Blanks that may stand around a number. The separators of ASCII are not among them. -/
def isAroundNumber (c : Char) : Bool :=
  isBlank c && !(28 ≤ c.toNat && c.toNat ≤ 31)

/-- The values of digits of any script, between which single low lines may stand. -/
def digitValues? : List Char → Option (List Nat)
  | [] => none
  | [c] => (digitValue? c).map ([·])
  | c :: '_' :: rest => do return (← digitValue? c) :: (← digitValues? rest)
  | c :: rest => do return (← digitValue? c) :: (← digitValues? rest)

/-- A number has at most this many digits. -/
def digitLimit : Nat :=
  4300

/-- A number without a sign. -/
def unsigned? (text : List Char) : Option Nat := do
  let digits ← digitValues? text
  guard (digits.length ≤ digitLimit)
  return digits.foldl (fun value digit => value * 10 + digit) 0

/-- A number with or without a sign, and with or without blanks around it. -/
def whole? (text : String) : Option Int :=
  let bare := ((text.toList.dropWhile isAroundNumber).reverse.dropWhile isAroundNumber).reverse
  match bare with
  | '+' :: digits => (unsigned? digits).map Int.ofNat
  | '-' :: digits => (unsigned? digits).map fun value => -Int.ofNat value
  | digits => (unsigned? digits).map Int.ofNat

end Lineage.Number
