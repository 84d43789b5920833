import Lineage.Data
import Lineage.Yaml.Scalar

/-!
Data written as YAML, as PyYAML does it.

Of its documented choices these are followed: collections that are not empty stand in block style,
with an indentation of two columns and lists of a record no further in than the record; fields keep
their order; characters beyond ASCII stand for themselves; lines are folded at eighty columns; and
nothing is written with a tag, an anchor or a document mark. Texts follow `Lineage.Yaml.styleOf`.
-/

namespace Lineage.Yaml

/-- The spaces at the front of a line. -/
def padding (indent : Nat) : List Char :=
  List.replicate indent ' '

mutual

/-- Data behind a field name or a hyphen that ends at a column, with the indentation of what holds
it. A list of a record begins no further in than the record. -/
def value (indent column : Nat) : Data → List Char
  | .null => " null\n".toList
  | .boolean true => " true\n".toList
  | .boolean false => " false\n".toList
  | .number written => ' ' :: written.toList ++ ['\n']
  | .text content => scalar (indent + 2) column content ++ ['\n']
  | .list [] => " []\n".toList
  | .list (item :: more) => '\n' :: items indent (item :: more)
  | .record [] => " \x7b\x7d\n".toList
  | .record (entry :: more) => '\n' :: padding (indent + 2) ++ fields (indent + 2) (entry :: more)

/-- Data behind the hyphen of a list. The first field of a record stands on the line of the
hyphen. -/
def item (indent : Nat) : Data → List Char
  | .record (entry :: more) => ' ' :: fields (indent + 2) (entry :: more)
  | .list (first :: more) => ' ' :: '-' :: item (indent + 2) first ++ items (indent + 2) more
  | .null => " null\n".toList
  | .boolean true => " true\n".toList
  | .boolean false => " false\n".toList
  | .number written => ' ' :: written.toList ++ ['\n']
  | .text content => scalar (indent + 2) (indent + 1) content ++ ['\n']
  | .list [] => " []\n".toList
  | .record [] => " \x7b\x7d\n".toList

/-- The items of a list, each on a line that begins with a hyphen. -/
def items (indent : Nat) : List Data → List Char
  | [] => []
  | first :: more => padding indent ++ '-' :: item indent first ++ items indent more

/-- The fields of a record, the first on the current line. Field names are plain words. -/
def fields (indent : Nat) : List (String × Data) → List Char
  | [] => []
  | [(name, content)] => name.toList ++ ':' :: value indent (indent + name.length + 1) content
  | (name, content) :: more =>
    name.toList ++ ':' :: value indent (indent + name.length + 1) content ++ padding indent ++
      fields indent more

end

/-- A record as a document. -/
def document : Data → List Char
  | .record (entry :: more) => fields 0 (entry :: more)
  | other => (value 0 0 other).drop 1

end Lineage.Yaml
