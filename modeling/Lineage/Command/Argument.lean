import Lineage.Command.Switch
import Lineage.Text.Digit

/-! The arguments of a command line, each for what it is. -/

namespace Lineage.Command

/-- A value that is attached to the name of a switch, by an equals sign or directly. -/
structure Attached where
  byEquals : Bool
  value : List Char
  deriving DecidableEq, Repr

/-- What an argument is: a value, the mark behind which all are values, a switch with what is
attached to it, or something that looks like a switch and is none. -/
inductive Role where
  | value
  | mark
  | switch (switch : Switch) (isShort : Bool) (attached : Option Attached)
  | unknown
  deriving DecidableEq, Repr

/-- An argument as it is written and what it is. -/
structure Argument where
  text : String
  role : Role
  deriving DecidableEq, Repr

/-- A switch has a short name if one hyphen begins it. -/
def isShortName (name : List Char) : Bool :=
  match name with
  | '-' :: '-' :: _ => false
  | _ => true

/-- Splits a text at its first equals sign, if it has one. -/
def splitAtEquals (text : List Char) : List Char × Option (List Char) :=
  let name := text.takeWhile (· != '=')
  match text.drop name.length with
  | [] => (name, none)
  | _ :: value => (name, some value)

/-- Digits of any script. -/
def allDigits (text : List Char) : Bool :=
  text.all fun c => (Text.digitValue? c).isSome

/-- The text without a line feed at its end. -/
def dropLineFeed (text : List Char) : List Char :=
  if text.getLast? == some '\n' then text.dropLast else text

/-- Whether what follows a hyphen is a number: digits, or digits around a point with one behind it
at least. -/
def isNumberText (text : List Char) : Bool :=
  let digits := dropLineFeed text
  let whole := digits.takeWhile (· != '.')
  match digits.drop whole.length with
  | [] => !whole.isEmpty && allDigits whole
  | _ :: places => allDigits whole && !places.isEmpty && allDigits places

/-- The switches that a text can be short for. A long name may be cut off at its end, and a value
may stand right behind a short name. -/
def abbreviated (text : List Char) : List (String × Role) :=
  match text with
  | '-' :: '-' :: _ =>
    let (front, value) := splitAtEquals text
    (allNames.filter fun (name, _) => front.isPrefixOf name.toList).map fun (name, switch) =>
      (name, .switch switch false (value.map (⟨true, ·⟩)))
  | '-' :: letter :: value =>
    (allNames.filter fun (name, _) => name.toList == ['-', letter]).map fun (name, switch) =>
      (name, .switch switch true (some ⟨false, value⟩))
  | _ => []

/-- What an argument is that begins with a hyphen. A full name counts before an abbreviated one, and
a negative number or a text with a space is a value. -/
def roleOfHyphened (text : String) (chars : List Char) : Except UsageFault Role :=
  let (front, value) := splitAtEquals chars
  match value, Switch.ofName? (String.ofList front) with
  -- Only a full name before the equals sign counts here; a part of a name is looked at below.
  | some value, some switch => .ok (.switch switch (isShortName front) (some ⟨true, value⟩))
  | _, _ =>
    match abbreviated chars with
    | [(_, role)] => .ok role
    | [] =>
      -- No switch is a number, so a negative number can be a value.
      if isNumberText (chars.drop 1) || chars.contains ' ' then .ok .value else .ok .unknown
    | candidates => .error (.ambiguous text (candidates.map Prod.fst))

/-- What an argument is that stands before the mark. -/
def roleOf (text : String) : Except UsageFault Role :=
  match text.toList with
  | '-' :: rest =>
    match Switch.ofName? text with
    | some switch => .ok (.switch switch (isShortName text.toList) none)
    | none => if rest.isEmpty then .ok .value else roleOfHyphened text ('-' :: rest)
  | _ => .ok .value

/-- The arguments of a command line. Behind the mark all are values. -/
def classify : List String → Except UsageFault (List Argument)
  | [] => .ok []
  | text :: more =>
    if text == "--" then .ok (⟨text, .mark⟩ :: more.map (⟨·, .value⟩))
    else do
      let role ← roleOf text
      return ⟨text, role⟩ :: (← classify more)

end Lineage.Command
