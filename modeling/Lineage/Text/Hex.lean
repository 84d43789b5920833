/-! Numbers written in hexadecimal with a fixed number of digits. -/

namespace Lineage.Text

/-- The letters for the digits above nine. -/
inductive LetterCase where
  | lower
  | upper
  deriving DecidableEq, Repr

/-- One hexadecimal digit. -/
def hexDigit (letters : LetterCase) (digit : Nat) : Char :=
  if digit < 10 then Char.ofNat (48 + digit)
  else
    match letters with
    | .lower => Char.ofNat (87 + digit)
    | .upper => Char.ofNat (55 + digit)

/-- The last `width` hexadecimal digits of a number, the highest first. -/
def hexDigits (letters : LetterCase) : Nat → Nat → List Char
  | 0, _ => []
  | width + 1, value => hexDigits letters width (value / 16) ++ [hexDigit letters (value % 16)]

/-- The value of a hexadecimal digit in either case. -/
def hexValue? (c : Char) : Option Nat :=
  let point := c.toNat
  if 48 ≤ point && point ≤ 57 then some (point - 48)
  else if 97 ≤ point && point ≤ 102 then some (point - 87)
  else if 65 ≤ point && point ≤ 70 then some (point - 55)
  else none

/-- The value of a run of hexadecimal digits. -/
def hexNumber? (digits : List Char) : Option Nat :=
  digits.foldl (fun value c => do return (← value) * 16 + (← hexValue? c)) (some 0)

end Lineage.Text
