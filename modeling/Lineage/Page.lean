import Lineage.Files.Path
import Lineage.Graph
import Lineage.Json
import Lineage.Page.Template

/-! The page that shows a graph in a browser. -/

namespace Lineage.Page

/-- A character of running text in a page. -/
def escapedChar (c : Char) : List Char :=
  match c with
  | '&' => "&amp;".toList
  | '<' => "&lt;".toList
  | '>' => "&gt;".toList
  | '"' => "&quot;".toList
  | '\'' => "&#x27;".toList
  | _ => [c]

/-- Running text in a page. -/
def escapedText (text : String) : List Char :=
  text.toList.flatMap escapedChar

/-- How an edge is drawn: its label, its colour and whether its line is dashed. -/
def edgeStyle : Relation → List (String × Data)
  | .extendsClass => [("label", .text "extends"), ("color", .record [("color", .text "#1E88E5")])]
  | .implementsInterface =>
    [("label", .text "implements"), ("dashes", .boolean true),
      ("color", .record [("color", .text "#43A047")])]
  | .extendsInterface =>
    [("label", .text "extends"), ("color", .record [("color", .text "#FB8C00")])]

/-- A method as the script takes it. -/
def methodData (method : Method) : Data :=
  .record [("name", .text method.name), ("params", .text method.parameters),
    ("doc", .text method.documentation)]

/-- A type as the script takes it. -/
def nodeData (node : Node) : Data :=
  let file := match node.originFile with
    | none | some "" => ""
    | some path => "\nFile: " ++ (Files.Path.ofText path).name
  .record [("id", .text node.id), ("label", .text node.label), ("group", .text node.kind),
    ("title", .text (node.kind ++ ": " ++ node.label ++ file)), ("file", .ofText? node.originFile),
    ("methods", .list (node.methods.map methodData))]

/-- A type that edges lead to and no source declares, as the script takes it. -/
def externalData (name : String) : Data :=
  .record [("id", .text name), ("label", .text name), ("group", .text "external"),
    ("title", .text ("not declared in project: " ++ name)), ("file", .null), ("methods", .list [])]

/-- The targets of edges that are not among the nodes, each once, in the order in which they first
come. -/
def externals (graph : Graph) : List String :=
  ((graph.edges.map (·.target)).filter (!graph.nodes.contains ·)).foldl
    (fun known name => if known.contains name then known else known ++ [name]) []

/-- A relation that no edge style is known for. -/
structure UnknownRelation where
  label : String
  deriving DecidableEq, Repr

/-- An edge as the script takes it. -/
def edgeData (edge : Edge) : Except UnknownRelation Data :=
  match Relation.ofLabel? edge.relation with
  | none => .error ⟨edge.relation⟩
  | some relation =>
    .ok (.record ([("from", .text edge.source), ("to", .text edge.target),
      ("arrows", .text "to")] ++ edgeStyle relation))

/-- A graph as the script takes it. -/
def graphData (graph : Graph) : Except UnknownRelation Data := do
  let nodes := graph.nodes.values.map nodeData ++ (externals graph).map externalData
  let edges ← graph.edges.mapM edgeData
  return .record [("nodes", .list nodes), ("edges", .list edges)]

/-- The text with a backslash between each `<` and the `/` that follows it. -/
def guardTags : List Char → List Char
  | '<' :: '/' :: rest => '<' :: '\\' :: '/' :: guardTags rest
  | c :: rest => c :: guardTags rest
  | [] => []

/-- A graph in the notation of the script. No end tag can be read in it. -/
def graphScript (graph : Graph) : Except UnknownRelation (List Char) :=
  (graphData graph).map fun data => guardTags (Json.compact data)

/-- The page for a graph. A title that is empty gives way to a general one. -/
def render (graph : Graph) (title : String) : Except UnknownRelation (List Char) := do
  let script ← graphScript graph
  let heading := escapedText (if title == "" then "Java inheritance" else title)
  return filled [("DATA_JSON", script), ("TITLE", heading)] template.toList

end Lineage.Page
