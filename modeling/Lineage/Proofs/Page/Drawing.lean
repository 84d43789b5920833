import Lineage.Proofs.Page.Script
import Mathlib.Data.List.Induction

/-! What is assembled can be drawn: the script of an assembled graph names each node once and draws
no edge without its two ends. -/

namespace Lineage.Page

/-- The entries of one of the lists that a script holds. -/
def entriesOf (name : String) (data : Data) : List Data :=
  match data.field? name with
  | some (.list entries) => entries
  | _ => []

/-- The text under a name in an entry. -/
def textOf (name : String) (entry : Data) : Option String :=
  match entry.field? name with
  | some (.text value) => some value
  | _ => none

/-- The edges that are drawn for declarations: all of theirs, or those of them that lead to a
declared type. -/
def drawnEdges (dangling : DanglingPolicy) (declarations : List Declaration) : List Edge :=
  match dangling with
  | .keep => declarations.flatMap Declaration.edges
  | .drop =>
    (declarations.flatMap Declaration.edges).filter fun edge =>
      edge.target ∈ declarations.map (·.name)

/-- What the data of a script must satisfy, so that the types of the declarations can be drawn. -/
structure Drawable (dangling : DanglingPolicy) (declarations : List Declaration) (data : Data) :
    Prop where
  /-- Every entry of a node has a name, and no two have the same. -/
  ids : ∃ ids : List String, (entriesOf "nodes" data).map (textOf "id") = ids.map some ∧ ids.Nodup
  /-- At either end of an edge there is a node. -/
  ends : ∀ entry ∈ entriesOf "edges" data, ∀ side ∈ ["from", "to"], ∃ name,
    textOf side entry = some name ∧
    ∃ node ∈ entriesOf "nodes" data, textOf "id" node = some name
  /-- The nodes of the group for outside types are the targets of edges that no declaration
  declares. -/
  external : ∀ name, (∃ node ∈ entriesOf "nodes" data, textOf "group" node = some "external" ∧
      textOf "id" node = some name) ↔
    (∃ entry ∈ entriesOf "edges" data, textOf "to" entry = some name) ∧
      name ∉ declarations.map (·.name)
  /-- The edges are drawn in order, each with the style of its relation. -/
  edges : List.Forall₂ ShowsEdge (drawnEdges dangling declarations) (entriesOf "edges" data)
  /-- Where edges to undeclared types are dropped, there is no node for an outside type. -/
  inside : dangling = .drop → ∀ node ∈ entriesOf "nodes" data, textOf "group" node ≠ some "external"
  /-- Where edges to undeclared types are dropped, every other edge of a declaration is there. -/
  present : dangling = .drop → ∀ declaration ∈ declarations, ∀ edge ∈ declaration.edges,
    edge.target ∈ declarations.map (·.name) → ∃ entry ∈ entriesOf "edges" data, ShowsEdge edge entry

section Entries

/-- An entry of an edge has its two ends. -/
theorem ShowsEdge.textOf {edge : Edge} {entry : Data} (shown : ShowsEdge edge entry) :
    textOf "from" entry = some edge.source ∧ textOf "to" entry = some edge.target := by
  obtain ⟨relation, -, rfl⟩ := shown
  exact ⟨rfl, rfl⟩

/-- Every entry is that of some edge. -/
theorem exists_edge_of_mem {edges : List Edge} {entries : List Data}
    (shown : List.Forall₂ ShowsEdge edges entries) :
    ∀ entry ∈ entries, ∃ edge ∈ edges, ShowsEdge edge entry := by
  induction shown with
  | nil => simp
  | cons first _ ih =>
    refine List.forall_mem_cons.2 ⟨⟨_, List.mem_cons_self, first⟩, fun entry mem => ?_⟩
    obtain ⟨edge, listed, shows'⟩ := ih entry mem
    exact ⟨edge, List.mem_cons_of_mem _ listed, shows'⟩

/-- Every edge has an entry. -/
theorem exists_entry_of_mem {edges : List Edge} {entries : List Data}
    (shown : List.Forall₂ ShowsEdge edges entries) :
    ∀ edge ∈ edges, ∃ entry ∈ entries, ShowsEdge edge entry := by
  induction shown with
  | nil => simp
  | cons first _ ih =>
    refine List.forall_mem_cons.2 ⟨⟨_, List.mem_cons_self, first⟩, fun edge listed => ?_⟩
    obtain ⟨entry, mem, shows'⟩ := ih edge listed
    exact ⟨entry, List.mem_cons_of_mem _ mem, shows'⟩

/-- Names from which repetitions are erased are all different. -/
theorem nodup_eraseDups (names : List String) : names.eraseDups.Nodup := by
  induction names using List.reverseRecOn with
  | nil => exact List.nodup_nil
  | append_singleton names name ih =>
    rw [TakenIn.eraseDups_concat]
    split
    · exact ih
    · -- The name that comes last is new.
      rename_i new
      rw [← List.concat_eq_append]
      exact ih.concat (by rwa [List.mem_eraseDups])

/-- The targets that are added as nodes are those that no node declares. -/
theorem mem_undeclaredTargets {graph : Graph} {name : String} :
    name ∈ undeclaredTargets graph ↔
      (∃ edge ∈ graph.edges, edge.target = name) ∧ name ∉ graph.nodes.names := by
  simp [undeclaredTargets, List.mem_eraseDups]

end Entries

section Assembled

variable {merge : MergePolicy} {dangling : DanglingPolicy} {declarations : List Declaration}
  {graph : Graph}

/-- The names among the nodes are those that are declared. -/
theorem mem_names_iff (assembled : Assembled merge dangling declarations graph) (name : String) :
    name ∈ graph.nodes.names ↔ name ∈ declarations.map (·.name) := by
  rw [assembled.names, List.mem_eraseDups]

/-- The edges of a graph are those that are drawn for its declarations. -/
theorem edges_eq (assembled : Assembled merge dangling declarations graph) :
    graph.edges = drawnEdges dangling declarations :=
  assembled.edges

/-- Every edge that a declaration makes has one of the relations that there are. -/
theorem exists_relation_of_mem_edges {declaration : Declaration} {edge : Edge}
    (made : edge ∈ declaration.edges) :
    ∃ relation : Relation, edge.relation = relation.label := by
  simp only [Declaration.edges, List.mem_append, List.mem_map] at made
  rcases made with ⟨_, _, rfl⟩ | ⟨_, _, rfl⟩
  · exact ⟨.extendsClass, rfl⟩
  · exact ⟨if declaration.kind = .interface then .extendsInterface else .implementsInterface, rfl⟩

/-- An edge that is drawn is made by a declaration. -/
theorem exists_declaration_of_mem {edge : Edge} (drawn : edge ∈ drawnEdges dangling declarations) :
    ∃ declaration ∈ declarations, edge ∈ declaration.edges := by
  -- Whether loose edges are kept or dropped, an edge that is drawn was made.
  have made : edge ∈ declarations.flatMap Declaration.edges := by
    cases dangling with
    | keep => exact drawn
    | drop => exact (List.mem_filter.1 drawn).1
  exact List.mem_flatMap.1 made

/-- The relations of an assembled graph are known. -/
theorem knownRelations_of_assembled (assembled : Assembled merge dangling declarations graph) :
    KnownRelations graph := by
  intro edge listed
  rw [edges_eq assembled] at listed
  obtain ⟨declaration, -, made⟩ := exists_declaration_of_mem listed
  exact exists_relation_of_mem_edges made

/-- Where edges to undeclared types are dropped, no edge leads to a type that is no node. -/
theorem undeclaredTargets_drop (assembled : Assembled merge .drop declarations graph) :
    undeclaredTargets graph = [] := by
  -- An edge to a type that is not declared was dropped.
  refine List.eq_nil_iff_forall_not_mem.2 fun name mem => ?_
  obtain ⟨⟨edge, listed, rfl⟩, missing⟩ := mem_undeclaredTargets.1 mem
  rw [edges_eq assembled] at listed
  have declared : edge.target ∈ declarations.map (·.name) := by
    simpa using (List.mem_filter.1 listed).2
  exact missing ((mem_names_iff assembled _).2 declared)

/-- The entries of the nodes of a graph, and behind them those of the outside types. -/
def nodeEntries (graph : Graph) : List Data :=
  graph.nodes.values.map nodeData ++ (undeclaredTargets graph).map externalData

/-- The nodes of an assembled graph are named as they stand. -/
theorem names_eq (assembled : Assembled merge dangling declarations graph) :
    graph.nodes.names = graph.nodes.values.map (·.id) := by
  rw [Table.names, assembled.entries_eq, List.map_map]
  rfl

/-- The entries bear the names of the nodes and of the outside types, in this order. -/
theorem map_textOf_nodeEntries (assembled : Assembled merge dangling declarations graph) :
    (nodeEntries graph).map (textOf "id") =
      (graph.nodes.names ++ undeclaredTargets graph).map some := by
  rw [nodeEntries, names_eq assembled, List.map_append, List.map_append, List.map_map, List.map_map,
    List.map_map]
  rfl

/-- No outside type bears the name of a node. -/
theorem nodup_ids (graph : Graph) : (graph.nodes.names ++ undeclaredTargets graph).Nodup := by
  -- The nodes have names of their own, and the others are no nodes.
  refine List.nodup_append.2 ⟨graph.nodes.distinct, nodup_eraseDups _,
    fun name declared other outside same => ?_⟩
  rw [← same] at outside
  exact (mem_undeclaredTargets.1 outside).2 declared

/-- There is an entry for every name of a node and of an outside type. -/
theorem exists_nodeEntry (assembled : Assembled merge dangling declarations graph) {name : String}
    (named : name ∈ graph.nodes.names ++ undeclaredTargets graph) :
    ∃ node ∈ nodeEntries graph, textOf "id" node = some name := by
  have listed : some name ∈ (nodeEntries graph).map (textOf "id") := by
    rw [map_textOf_nodeEntries assembled]
    exact List.mem_map_of_mem named
  exact List.mem_map.1 listed

/-- Either end of an edge is a node or an outside type. -/
theorem mem_ids_of_edge (assembled : Assembled merge dangling declarations graph) {edge : Edge}
    (listed : edge ∈ graph.edges) :
    edge.source ∈ graph.nodes.names ++ undeclaredTargets graph ∧
      edge.target ∈ graph.nodes.names ++ undeclaredTargets graph := by
  -- The source is a node, and the target is one or is listed behind the nodes.
  refine ⟨List.mem_append_left _ (assembled.sources edge listed), List.mem_append.2 ?_⟩
  by_cases declared : edge.target ∈ graph.nodes.names
  · exact Or.inl declared
  · exact Or.inr (mem_undeclaredTargets.2 ⟨⟨edge, listed, rfl⟩, declared⟩)

/-- The group for outside types is no kind of declaration, so only outside types are in it. -/
theorem external_iff (assembled : Assembled merge dangling declarations graph) (name : String) :
    (∃ node ∈ nodeEntries graph, textOf "group" node = some "external" ∧
      textOf "id" node = some name) ↔
      name ∈ undeclaredTargets graph := by
  constructor
  · rintro ⟨node, mem, group, named⟩
    rcases List.mem_append.1 mem with declared | outside
    · -- The group of a node is its kind.
      obtain ⟨node, isNode, rfl⟩ := List.mem_map.1 declared
      obtain ⟨entry, listed, rfl⟩ := List.mem_map.1 isNode
      obtain ⟨-, kind, label⟩ := assembled.node_of_mem listed
      have same : entry.2.kind = "external" := Option.some.inj group
      rw [label] at same
      cases kind <;> exact absurd same (by decide)
    · obtain ⟨other, isOutside, rfl⟩ := List.mem_map.1 outside
      have same : other = name := Option.some.inj named
      rwa [← same]
  · intro outside
    exact ⟨externalData name, List.mem_append_right _ (List.mem_map_of_mem outside), rfl, rfl⟩

/-- The data that shows an assembled graph can be drawn. -/
theorem drawable_of_assembled (assembled : Assembled merge dangling declarations graph)
    {data : Data} (shown : ShowsGraph graph data) : Drawable dangling declarations data := by
  obtain ⟨entries, shownEdges, rfl⟩ := shown
  have edges : List.Forall₂ ShowsEdge (drawnEdges dangling declarations) entries := by
    rwa [← edges_eq assembled]
  refine ⟨⟨_, map_textOf_nodeEntries assembled, nodup_ids graph⟩, ?_, fun name => ?_, edges, ?_, ?_⟩
  · intro entry mem side isSide
    obtain ⟨edge, listed, isEntry⟩ := exists_edge_of_mem shownEdges entry mem
    obtain ⟨source, target⟩ := mem_ids_of_edge assembled listed
    -- The two ends are found in the same way.
    rcases List.mem_pair.1 isSide with rfl | rfl
    · exact ⟨edge.source, isEntry.textOf.1, exists_nodeEntry assembled source⟩
    · exact ⟨edge.target, isEntry.textOf.2, exists_nodeEntry assembled target⟩
  · -- The targets that the entries name are those of the edges.
    have targets : (∃ entry ∈ entries, textOf "to" entry = some name) ↔
        ∃ edge ∈ graph.edges, edge.target = name := by
      constructor
      · rintro ⟨entry, mem, named⟩
        obtain ⟨edge, listed, isEntry⟩ := exists_edge_of_mem shownEdges entry mem
        exact ⟨edge, listed, Option.some.inj (isEntry.textOf.2.symm.trans named)⟩
      · rintro ⟨edge, listed, rfl⟩
        obtain ⟨entry, mem, isEntry⟩ := exists_entry_of_mem shownEdges edge listed
        exact ⟨entry, mem, isEntry.textOf.2⟩
    refine (external_iff assembled name).trans ?_
    rw [mem_undeclaredTargets, mem_names_iff assembled]
    exact and_congr_left' targets.symm
  · rintro rfl node mem isExternal
    -- The name of such a node would be that of an outside type, and there is none.
    have outside : ∀ name, name ∉ undeclaredTargets graph := by
      simp [undeclaredTargets_drop assembled]
    rcases List.mem_append.1 mem with declared | isOutside
    · obtain ⟨node, isNode, rfl⟩ := List.mem_map.1 declared
      exact outside node.id ((external_iff assembled node.id).1 ⟨_, mem, isExternal, rfl⟩)
    · obtain ⟨name, isName, -⟩ := List.mem_map.1 isOutside
      exact outside name isName
  · rintro rfl declaration listed edge made declared
    refine exists_entry_of_mem edges edge
      (List.mem_filter.2 ⟨List.mem_flatMap.2 ⟨declaration, listed, made⟩, ?_⟩)
    simpa using declared

end Assembled

/-- Whatever is assembled has a script, and the data that the script is read as can be drawn. -/
theorem assembled_drawable {merge : MergePolicy} {dangling : DanglingPolicy}
    {declarations : List Declaration} {graph : Graph}
    (built : (assemble merge dangling declarations).value = .ok graph) :
    ∃ script data, graphScript graph = .ok script ∧ Json.parse? script = some data ∧
      Drawable dangling declarations data := by
  have assembled := assembled_of_ok built
  obtain ⟨script, made, carries⟩ := exists_graphScript (knownRelations_of_assembled assembled)
  obtain ⟨data, read, shown⟩ := carries.read
  exact ⟨script, data, made, read, drawable_of_assembled assembled shown⟩

/-- A class that is declared twice, with a superclass that comes later and an interface that does
not come at all. -/
def shapes : List Declaration :=
  [{ name := "Circle", kind := .plainClass, superclass := some "Shape",
      interfaces := ["Serializable"], superless := fun same => Kind.noConfusion same },
    { name := "Shape", kind := .abstractClass, interfaces := ["Shape", "Serializable"],
      superless := fun same => Kind.noConfusion same },
    { name := "Circle", kind := .abstractClass, interfaces := ["Round"],
      superless := fun same => Kind.noConfusion same }]

/-- A graph with a type that is declared twice and a type outside of it can be drawn. -/
theorem assembled_drawable_shapes :
    ∃ graph script data, (assemble .last .keep shapes).value = .ok graph ∧
      graphScript graph = .ok script ∧
      Json.parse? script = some data ∧ Drawable .keep shapes data := by
  have built : (assemble .last .keep shapes).value = .ok _ := rfl
  obtain ⟨script, data, made, read, drawable⟩ := assembled_drawable built
  exact ⟨_, script, data, built, made, read, drawable⟩

end Lineage.Page
