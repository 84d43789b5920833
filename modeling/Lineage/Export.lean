import Lineage.Graph
import Lineage.Json
import Lineage.Yaml

/-! A graph written as data. -/

namespace Lineage

/-- The formats in which a graph can be written. Other formats cannot be asked for; the names of
these two are read by `Format.ofLabel?`. -/
inductive Format where
  | json
  | yaml
  deriving DecidableEq, Repr

/-- The name of a format. -/
def Format.label : Format → String
  | .json => "json"
  | .yaml => "yaml"

/-- The format with a given name. -/
def Format.ofLabel? (label : String) : Option Format :=
  [Format.json, .yaml].find? (·.label == label)

/-- A graph in a format. -/
def Graph.written (graph : Graph) : Format → List Char
  | .json => Json.spread 0 graph.data
  | .yaml => Yaml.document graph.data

end Lineage
