import Lineage.Proofs.Json.Spread

/-! A graph is exported without loss: its data is read back from the text, and an assembled graph
can be told from it. -/

namespace Lineage

open Lineage.Json Lineage.Page

/-- The data of a method holds texts alone. -/
theorem Method.numberless_data (method : Method) : Numberless method.data := by
  simp [Method.data]

/-- The data of a type holds no numbers, whether or not its file is known. -/
theorem Node.numberless_data (node : Node) : Numberless node.data := by
  have methods : Numberless (.list (node.methods.map Method.data)) :=
    .list (List.forall_mem_map.2 fun method _ => method.numberless_data)
  have file : Numberless (.ofText? node.originFile) := by
    cases node.originFile with
    | none => exact .null
    | some path => exact .text path
  refine .record ?_
  simp only [List.forall_mem_cons, List.not_mem_nil, false_implies, implies_true, and_true]
  exact ⟨.text _, .text _, .text _, file, methods⟩

/-- The data of an edge holds texts alone. -/
theorem Edge.numberless_data (edge : Edge) : Numberless edge.data := by
  simp [Edge.data]

/-- The data of a graph holds no numbers. -/
theorem Graph.numberless_data (graph : Graph) : Numberless graph.data := by
  have nodes : Numberless (.list (graph.nodes.values.map Node.data)) :=
    .list (List.forall_mem_map.2 fun node _ => node.numberless_data)
  have edges : Numberless (.list (graph.edges.map Edge.data)) :=
    .list (List.forall_mem_map.2 fun edge _ => edge.numberless_data)
  exact .record (List.forall_mem_cons.2 ⟨nodes, List.forall_mem_singleton.2 edges⟩)

/-- A method can be told from its data. -/
theorem Method.data_injective : Function.Injective Method.data := by
  intro one other same
  cases one
  cases other
  simpa [Method.data] using same

/-- A text that may be missing can be told from its data, for the missing one is no text. -/
theorem Data.ofText?_injective : Function.Injective Data.ofText? := by
  intro one other same
  cases one <;> cases other <;> simp_all [Data.ofText?]

/-- A type can be told from its data. -/
theorem Node.data_injective : Function.Injective Node.data := by
  intro one other same
  cases one
  cases other
  simp only [Node.data, Data.record.injEq, List.cons.injEq, Prod.mk.injEq, Data.text.injEq,
    Data.list.injEq, true_and, and_true] at same
  obtain ⟨sameId, sameLabel, sameKind, sameFile, sameMethods⟩ := same
  rw [sameId, sameLabel, sameKind, Data.ofText?_injective sameFile,
    Method.data_injective.list_map sameMethods]

/-- An edge can be told from its data. -/
theorem Edge.data_injective : Function.Injective Edge.data := by
  intro one other same
  cases one
  cases other
  simpa [Edge.data] using same

/-- The types of a graph, in order, and its edges, in order, can be told from its data. -/
theorem Graph.eq_of_data {graph other : Graph} (same : graph.data = other.data) :
    graph.nodes.values = other.nodes.values ∧ graph.edges = other.edges := by
  simp only [Graph.data, Data.record.injEq, List.cons.injEq, Prod.mk.injEq, Data.list.injEq,
    true_and, and_true] at same
  exact ⟨Node.data_injective.list_map same.1, Edge.data_injective.list_map same.2⟩

/-- A graph is built when it is assembled from some declarations under some policies. -/
def Graph.Built (graph : Graph) : Prop :=
  ∃ merge dangling declarations, (assemble merge dangling declarations).value = .ok graph

/-- The JSON text of a graph is its data in ASCII. It is read back as that data, whatever texts the
graph holds, and so no two graphs that are built have one text. -/
theorem written_json_lossless (graph : Graph) :
    Json.parse? (graph.written .json) = some graph.data ∧
      (∀ c ∈ graph.written .json, c.toNat < 128) ∧
      ∀ other : Graph, graph.Built → other.Built → graph.written .json = other.written .json →
        graph.nodes.entries = other.nodes.entries ∧ graph.edges = other.edges := by
  have read (graph : Graph) : Json.parse? (graph.written .json) = some graph.data :=
    (spreadsInAscii_of_numberless graph.numberless_data 0).1.parse?
  refine ⟨read graph, (spreadsInAscii_of_numberless graph.numberless_data 0).2,
    fun other built builtOther same => ?_⟩
  -- One text is read as one piece of data, from which types and edges can be told.
  have sameData : graph.data = other.data := by
    have readOther := read other
    rw [← same, read graph] at readOther
    exact Option.some.inj readOther
  obtain ⟨nodes, edges⟩ := Graph.eq_of_data sameData
  -- Where each type stands under its own name, the entries add nothing to the types.
  obtain ⟨merge, dangling, declarations, result⟩ := built
  obtain ⟨merge', dangling', declarations', result'⟩ := builtOther
  refine ⟨?_, edges⟩
  rw [(assembled_of_ok result).entries_eq, (assembled_of_ok result').entries_eq, nodes]

end Lineage
