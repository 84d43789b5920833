/-! The form in which a class of characters is tabulated. -/

namespace Lineage.Text

/-- A class of code points by its runs from the code point 0 on: how many in a row lie outside of
it, how many behind these lie inside, and so on in turns. -/
abbrev Ranges := List Nat

/-- A code point belongs to the class when it lies in the second run of a turn. -/
def Ranges.contains : Ranges → Nat → Bool
  | outside :: inside :: more, point =>
    if point < outside then false
    else point < outside + inside || Ranges.contains more (point - (outside + inside))
  | _, _ => false

end Lineage.Text
