import Lineage.Proofs.Graph.Export
import Lineage.Proofs.Yaml.Block

/-! What the YAML text of a graph is read back as, and for which graphs nothing is lost. -/

namespace Lineage

open Lineage.Yaml

/-- What a text is read back as. -/
def rereadText (text : String) : String :=
  String.ofList (reread text.toList)

/-- What a method is read back as. -/
def Method.reread (method : Method) : Method :=
  ⟨rereadText method.name, rereadText method.parameters, rereadText method.documentation⟩

/-- What a type is read back as. -/
def Node.reread (node : Node) : Node :=
  ⟨rereadText node.id, rereadText node.label, rereadText node.kind, node.originFile.map rereadText,
    node.methods.map Method.reread⟩

/-- What an edge is read back as. -/
def Edge.reread (edge : Edge) : Edge :=
  ⟨rereadText edge.source, rereadText edge.target, rereadText edge.relation⟩

/-- The data as which a graph is read back. -/
def Graph.rereadData (graph : Graph) : Data :=
  .record [("nodes", .list (graph.nodes.values.map fun node => node.reread.data)),
    ("edges", .list (graph.edges.map fun edge => edge.reread.data))]

/-- The names of the fields of a graph. -/
def fieldNames : List String :=
  ["nodes", "edges", "id", "label", "kind", "originFile", "methods", "name", "parameters",
    "documentation", "from", "to", "relationKind"]

/-- None of them needs quotes. -/
theorem isFieldName_of_mem {name : String} (listed : name ∈ fieldNames) :
    isFieldName name = true := by
  have each : ∀ name ∈ fieldNames, isFieldName name = true := by decide +kernel
  exact each name listed

/-- A field whose value is a text. -/
theorem fieldReadsAs_text {name : String} (listed : name ∈ fieldNames) {indent : Nat}
    (room : indent + 2 < bestWidth) (content : String) :
    FieldReadsAs indent (name, .text content) (name, .text (rereadText content)) :=
  ⟨isFieldName_of_mem listed, rfl, readsAs_text room content⟩

/-- Items made from the members of a list are read back one by one. -/
theorem forall₂_itemReadsAs {α : Type} {indent : Nat} {one other : α → Data}
    (each : ∀ member, ItemReadsAs indent (one member) (other member)) (members : List α) :
    List.Forall₂ (ItemReadsAs indent) (members.map one) (members.map other) := by
  induction members with
  | nil => exact .nil
  | cons member members ih => exact .cons (each member) ih

/-- A method is read back as it is reread. -/
theorem Method.itemReadsAs {indent : Nat} (room : indent + 2 + 2 < bestWidth) (method : Method) :
    ItemReadsAs indent method.data method.reread.data := by
  have name := fieldReadsAs_text (by decide : "name" ∈ fieldNames) room
  have parameters := fieldReadsAs_text (by decide : "parameters" ∈ fieldNames) room
  have documentation := fieldReadsAs_text (by decide : "documentation" ∈ fieldNames) room
  exact ⟨_, _, rfl, rfl, List.cons_ne_nil _ _,
    (by decide : ["name", "parameters", "documentation"].Nodup),
    .cons (name _) (.cons (parameters _) (.cons (documentation _) .nil))⟩

/-- A type is read back as it is reread. -/
theorem Node.itemReadsAs (node : Node) : ItemReadsAs 0 node.data node.reread.data := by
  -- All fields but the last two are texts.
  have room : 0 + 2 + 2 < bestWidth := by decide
  have id := fieldReadsAs_text (by decide : "id" ∈ fieldNames) room
  have label := fieldReadsAs_text (by decide : "label" ∈ fieldNames) room
  have kind := fieldReadsAs_text (by decide : "kind" ∈ fieldNames) room
  have originFile : FieldReadsAs 2 ("originFile", .ofText? node.originFile)
      ("originFile", .ofText? (node.originFile.map rereadText)) := by
    refine ⟨isFieldName_of_mem (by decide : "originFile" ∈ fieldNames), rfl, ?_⟩
    cases node.originFile with
    | none => exact readsAs_null 2
    | some path => exact readsAs_text room path
  have methods : FieldReadsAs 2 ("methods", .list (node.methods.map Method.data))
      ("methods", .list ((node.methods.map Method.reread).map Method.data)) := by
    -- The methods are a list of records two columns further in.
    refine ⟨isFieldName_of_mem (by decide : "methods" ∈ fieldNames), rfl, readsAs_list ?_⟩
    rw [List.map_map]
    exact forall₂_itemReadsAs (Method.itemReadsAs (by decide)) node.methods
  exact ⟨_, _, rfl, rfl, List.cons_ne_nil _ _,
    (by decide : ["id", "label", "kind", "originFile", "methods"].Nodup),
    .cons (id _) (.cons (label _) (.cons (kind _) (.cons originFile (.cons methods .nil))))⟩

/-- An edge is read back as it is reread. -/
theorem Edge.itemReadsAs (edge : Edge) : ItemReadsAs 0 edge.data edge.reread.data := by
  have room : 0 + 2 + 2 < bestWidth := by decide
  have source := fieldReadsAs_text (by decide : "from" ∈ fieldNames) room
  have target := fieldReadsAs_text (by decide : "to" ∈ fieldNames) room
  have relation := fieldReadsAs_text (by decide : "relationKind" ∈ fieldNames) room
  exact ⟨_, _, rfl, rfl, List.cons_ne_nil _ _, (by decide : ["from", "to", "relationKind"].Nodup),
    .cons (source _) (.cons (target _) (.cons (relation _) .nil))⟩

/-- The YAML text of a graph is read back, with each of its texts as its style allows. -/
theorem parse?_written_yaml (graph : Graph) :
    Yaml.parse? (graph.written .yaml) = some graph.rereadData := by
  have nodes : FieldReadsAs 0 ("nodes", .list (graph.nodes.values.map Node.data))
      ("nodes", .list (graph.nodes.values.map fun node => node.reread.data)) :=
    ⟨isFieldName_of_mem (by decide : "nodes" ∈ fieldNames), rfl,
      readsAs_list (forall₂_itemReadsAs Node.itemReadsAs _)⟩
  have edges : FieldReadsAs 0 ("edges", .list (graph.edges.map Edge.data))
      ("edges", .list (graph.edges.map fun edge => edge.reread.data)) :=
    ⟨isFieldName_of_mem (by decide : "edges" ∈ fieldNames), rfl,
      readsAs_list (forall₂_itemReadsAs Edge.itemReadsAs _)⟩
  exact parse?_document (.cons nodes (.cons edges .nil)) (List.cons_ne_nil _ _)
    (by decide : ["nodes", "edges"].Nodup)

/-- The texts of a method. -/
def Method.texts (method : Method) : List String :=
  [method.name, method.parameters, method.documentation]

/-- The texts of a type and its methods. -/
def Node.texts (node : Node) : List String :=
  [node.id, node.label, node.kind] ++ node.originFile.toList ++ node.methods.flatMap Method.texts

/-- The texts of an edge. -/
def Edge.texts (edge : Edge) : List String :=
  [edge.source, edge.target, edge.relation]

/-- All the texts of a graph. -/
def Graph.texts (graph : Graph) : List String :=
  graph.nodes.values.flatMap Node.texts ++ graph.edges.flatMap Edge.texts

/-- A text is read back as itself if and only if it has no next-line character or needs double
quotes. -/
theorem rereadText_eq_iff (text : String) :
    rereadText text = text ↔ nextLine ∉ text.toList ∨ needsDouble text.toList = true := by
  rw [← reread_eq_iff]
  constructor
  · intro same
    exact (String.toList_ofList).symm.trans (congrArg String.toList same)
  · intro same
    rw [rereadText, same, String.ofList_toList]

/-- A map leaves a list as it is exactly if it leaves each member as it is. -/
theorem map_eq_self_iff {α : Type} {f : α → α} {members : List α} :
    members.map f = members ↔ ∀ member ∈ members, f member = member := by
  have kept : members.map id = members := List.map_id members
  conv_lhs => rw [← kept]
  rw [List.map_map]
  exact List.map_inj_left

theorem Method.reread_eq_iff (method : Method) :
    method.reread = method ↔ ∀ text ∈ method.texts, rereadText text = text := by
  cases method
  simp [Method.reread, Method.texts]

theorem Edge.reread_eq_iff (edge : Edge) :
    edge.reread = edge ↔ ∀ text ∈ edge.texts, rereadText text = text := by
  cases edge
  simp [Edge.reread, Edge.texts]

/-- A type stays as it is exactly if its texts do. -/
theorem Node.reread_eq_iff (node : Node) :
    node.reread = node ↔ ∀ text ∈ node.texts, rereadText text = text := by
  cases node with
  | mk id label kind originFile methods =>
    have file : originFile.map rereadText = originFile ↔
        ∀ text ∈ originFile.toList, rereadText text = text := by
      cases originFile <;> simp
    simp only [Node.reread, Node.texts, Node.mk.injEq, file, map_eq_self_iff, Method.reread_eq_iff,
      List.forall_mem_append, List.forall_mem_cons, List.mem_flatMap]
    grind

/-- The data is the same if and only if each text is. -/
theorem Graph.rereadData_eq_iff (graph : Graph) :
    graph.rereadData = graph.data ↔ ∀ text ∈ graph.texts, rereadText text = text := by
  simp only [Graph.rereadData, Graph.data, Data.record.injEq, List.cons.injEq, Prod.mk.injEq,
    Data.list.injEq, true_and, and_true, List.map_inj_left, Node.data_injective.eq_iff,
    Edge.data_injective.eq_iff, Node.reread_eq_iff,
    Edge.reread_eq_iff, Graph.texts, List.forall_mem_append, List.mem_flatMap]
  grind

/-- The JSON text of a graph is read back as its data. So is the YAML text, if and only if each text
of the graph that holds a next-line character needs double quotes; otherwise that character is lost
or replaced. -/
theorem written_yaml_lossless_iff (graph : Graph) :
    Json.parse? (graph.written .json) = some graph.data ∧
      Yaml.parse? (graph.written .yaml) = some graph.rereadData ∧
      (Yaml.parse? (graph.written .yaml) = some graph.data ↔
        ∀ text ∈ graph.texts, nextLine ∉ text.toList ∨ needsDouble text.toList = true) := by
  -- In the other notation nothing is lost; here texts are what is reread.
  have readJson : Json.parse? (graph.written .json) = some graph.data :=
    (Json.spreadsInAscii_of_numberless graph.numberless_data 0).1.parse?
  have readYaml := parse?_written_yaml graph
  refine ⟨readJson, readYaml, ?_⟩
  rw [readYaml, Option.some.injEq, graph.rereadData_eq_iff]
  simp only [rereadText_eq_iff]

/-- A type whose label has a next-line character. -/
def splitLabel : Graph :=
  ⟨Table.empty.put "A" ⟨"A", "a\u0085b", "class", none, []⟩, []⟩

/-- The label stands between single quotes, where the end of its line is read as a space. -/
theorem splitLabel_loses :
    splitLabel.written .yaml =
        ("nodes:\n- id: A\n  label: 'a\u0085    b'\n  kind: class\n  originFile: null\n" ++
          "  methods: []\nedges: []\n").toList ∧
      Yaml.parse? (splitLabel.written .yaml) = some (.record [
        ("nodes", .list [.record [("id", .text "A"), ("label", .text "a b"),
          ("kind", .text "class"),
          ("originFile", .null), ("methods", .list [])]]),
        ("edges", .list [])]) ∧
      Yaml.parse? (splitLabel.written .yaml) ≠ some splitLabel.data := by
  have id : rereadText "A" = "A" := by decide +kernel
  have label : rereadText "a\u0085b" = "a b" := by decide +kernel
  have kind : rereadText "class" = "class" := by decide +kernel
  refine ⟨by decide +kernel, ?_, ?_⟩
  · -- What is read is evaluated text by text.
    rw [parse?_written_yaml]
    show some (Data.record [ ("nodes", .list [.record [("id", .text (rereadText "A")),
        ("label", .text (rereadText "a\u0085b")), ("kind", .text (rereadText "class")),
        ("originFile", .null), ("methods", .list [])]]),
      ("edges", .list [])]) = _
    rw [id, label, kind]
  · rw [parse?_written_yaml]
    intro same
    have kept := splitLabel.rereadData_eq_iff.1 (Option.some.inj same) "a\u0085b" (by decide)
    rw [label] at kept
    exact absurd kept (by decide)

end Lineage
