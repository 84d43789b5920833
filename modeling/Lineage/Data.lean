/-! Plain data: what exported files hold. -/

namespace Lineage

/-- A tree of lists and records with texts, truth values, numbers and nulls at its leaves. A number
is kept as it is written, and the fields of a record keep their order. -/
inductive Data where
  | null
  | boolean (value : Bool)
  | number (written : String)
  | text (value : String)
  | list (items : List Data)
  | record (fields : List (String × Data))
  deriving Inhabited, Repr

/-- A text, or null where there is none. -/
def Data.ofText? : Option String → Data
  | none => .null
  | some value => .text value

/-- The value of the first field with a given name. -/
def Data.field? (name : String) : Data → Option Data
  | .record fields => fields.lookup name
  | _ => none

end Lineage
