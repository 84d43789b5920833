import Lineage.Data
import Lineage.Declaration
import Lineage.Table

/-! The graph of types and of how they inherit from each other. -/

namespace Lineage

/-- How one type inherits from another. -/
inductive Relation where
  | extendsClass
  | implementsInterface
  | extendsInterface
  deriving DecidableEq, Repr

/-- The name of a relation in exported data. -/
def Relation.label : Relation → String
  | .extendsClass => "extends-class"
  | .implementsInterface => "implements-interface"
  | .extendsInterface => "extends-interface"

/-- The relation with a given name. -/
def Relation.ofLabel? (label : String) : Option Relation :=
  [Relation.extendsClass, .implementsInterface, .extendsInterface].find? (·.label == label)

/-- A type in the graph. -/
structure Node where
  id : String
  label : String
  kind : String
  originFile : Option String := none
  methods : List Method := []
  deriving DecidableEq, Repr

/-- A step from a type to one that it inherits from. -/
structure Edge where
  source : String
  target : String
  relation : String
  deriving DecidableEq, Repr

/-- Types by name and the edges between them. An edge may lead to a type that is not among the
nodes. -/
structure Graph where
  nodes : Table String Node
  edges : List Edge

/-- Whether a graph has no types. -/
def Graph.isEmpty (graph : Graph) : Bool :=
  graph.nodes.entries.isEmpty

/-- A method as data. -/
def Method.data (method : Method) : Data :=
  .record [("name", .text method.name), ("parameters", .text method.parameters),
    ("documentation", .text method.documentation)]

/-- A type as data. -/
def Node.data (node : Node) : Data :=
  .record [("id", .text node.id), ("label", .text node.label), ("kind", .text node.kind),
    ("originFile", .ofText? node.originFile), ("methods", .list (node.methods.map Method.data))]

/-- An edge as data. -/
def Edge.data (edge : Edge) : Data :=
  .record [("from", .text edge.source), ("to", .text edge.target),
    ("relationKind", .text edge.relation)]

/-- A graph as data. -/
def Graph.data (graph : Graph) : Data :=
  .record [("nodes", .list (graph.nodes.values.map Node.data)),
    ("edges", .list (graph.edges.map Edge.data))]

/-- The edges that a declaration makes: to its superclass first, then to its interfaces in order. -/
def Declaration.edges (declaration : Declaration) : List Edge :=
  let relation :=
    if declaration.kind = .interface then Relation.extendsInterface else .implementsInterface
  (declaration.superclass.toList.filter (· != "")).map
      (⟨declaration.name, ·, Relation.extendsClass.label⟩) ++
    declaration.interfaces.map (⟨declaration.name, ·, relation.label⟩)

/-- The node that a declaration makes. -/
def Declaration.node (declaration : Declaration) : Node where
  id := declaration.name
  label := declaration.name
  kind := declaration.kind.label
  originFile := declaration.sourceFile
  methods := declaration.methods

end Lineage
