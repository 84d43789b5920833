import Lineage.Graph.Assembly
import Mathlib.Data.List.Nodup

/-! The graph of a list of declarations, said without the order in which it is built. -/

namespace Lineage

/-- The declaration of a name that counts: the last one if later ones replace earlier ones, and
otherwise the first. -/
def MergePolicy.chosen (policy : MergePolicy) (declarations : List Declaration) (name : String) :
    Option Declaration :=
  match policy with
  | .last => declarations.reverse.find? (·.name == name)
  | .first | .error => declarations.find? (·.name == name)

/-- What the graph of a list of declarations is. -/
structure Assembled (merge : MergePolicy) (dangling : DanglingPolicy)
    (declarations : List Declaration) (graph : Graph) : Prop where
  /-- The nodes are the declared names, each where it first came. -/
  names : graph.nodes.names = (declarations.map (·.name)).eraseDups
  /-- A node says what the declaration of its name that counts says. -/
  node : ∀ name, graph.nodes.get? name = (merge.chosen declarations name).map fun declaration =>
    { id := name
      label := name
      kind := declaration.kind.label
      originFile := declaration.sourceFile
      methods := declaration.methods }
  /-- The edges are those of all the declarations, or those of them that lead to a declared name. -/
  edges : graph.edges = match dangling with
    | .keep => declarations.flatMap Declaration.edges
    | .drop => (declarations.flatMap Declaration.edges).filter fun edge =>
        edge.target ∈ declarations.map (·.name)
  /-- No edge comes from a name that is no node. -/
  sources : ∀ edge ∈ graph.edges, edge.source ∈ graph.nodes.names

/-- What the nodes are once the given declarations are taken in. -/
structure TakenIn (merge : MergePolicy) (declarations : List Declaration)
    (nodes : Table String Node) :
    Prop where
  names : nodes.names = (declarations.map (·.name)).eraseDups
  node : ∀ name, nodes.get? name = (merge.chosen declarations name).map Declaration.node

namespace TakenIn

variable {merge : MergePolicy} {declarations : List Declaration} {nodes : Table String Node}
  {declaration : Declaration}

/-- Nothing is taken in at first. -/
theorem empty (merge : MergePolicy) : TakenIn merge [] .empty where
  names := rfl
  node name := by cases merge <;> rfl

/-- The names among the nodes are those declared. -/
theorem mem_names (taken : TakenIn merge declarations nodes) (name : String) :
    name ∈ nodes.names ↔ name ∈ declarations.map (·.name) := by
  rw [taken.names, List.mem_eraseDups]

/-- A name has no node exactly when it is not declared. -/
theorem get?_eq_none_iff (taken : TakenIn merge declarations nodes) (name : String) :
    nodes.get? name = none ↔ name ∉ declarations.map (·.name) := by
  rw [← taken.mem_names, ← Table.contains_iff, Table.contains]
  simp

/-- The names with one more declared: a new name comes last, and a known one adds nothing. -/
theorem eraseDups_concat (names : List String) (name : String) :
    (names ++ [name]).eraseDups =
      if name ∈ names then names.eraseDups else names.eraseDups ++ [name] := by
  rw [List.eraseDups_append]
  by_cases known : name ∈ names
  · simp [List.removeAll, known]
  · simp [List.removeAll, known, List.eraseDups_cons]

/-- Putting the node of a declaration takes it in if it is the one that counts from now on. -/
theorem put (taken : TakenIn merge declarations nodes)
    (counts : merge.chosen (declarations ++ [declaration]) declaration.name = some declaration)
    (others : ∀ name, name ≠ declaration.name →
      merge.chosen (declarations ++ [declaration]) name = merge.chosen declarations name) :
    TakenIn merge (declarations ++ [declaration])
      (nodes.put declaration.name declaration.node) where
  names := by
    -- Putting keeps the place of a known name and adds a new one at the end.
    rw [Table.names_put, List.map_append, List.map_singleton, eraseDups_concat, taken.names]
    simp only [List.mem_eraseDups]
  node name := by
    rw [Table.get?_put]
    by_cases same : name = declaration.name
    · simp [same, counts]
    · rw [if_neg same, taken.node, others name same]

/-- Leaving the nodes alone takes in a declaration whose name keeps the declaration that counted. -/
theorem keep (taken : TakenIn merge declarations nodes)
    (known : declaration.name ∈ declarations.map (·.name))
    (same :
      ∀ name, merge.chosen (declarations ++ [declaration]) name = merge.chosen declarations name) :
    TakenIn merge (declarations ++ [declaration]) nodes where
  names := by rw [List.map_append, List.map_singleton, eraseDups_concat, if_pos known, taken.names]
  node name := by rw [taken.node, same]

end TakenIn

/-- A search by name comes back empty exactly when the name is not declared. -/
theorem find?_name_eq_none_iff (declarations : List Declaration) (name : String) :
    declarations.find? (·.name == name) = none ↔ name ∉ declarations.map (·.name) := by
  simp [List.find?_eq_none]

/-- A declaration of a new name counts for that name, whatever the policy. -/
theorem chosen_concat_of_new {declarations : List Declaration} {declaration : Declaration}
    (new : declaration.name ∉ declarations.map (·.name)) (merge : MergePolicy) (name : String) :
    merge.chosen (declarations ++ [declaration]) name =
      if declaration.name = name then some declaration else merge.chosen declarations name := by
  -- No earlier declaration bears the name, so from either end this one is found.
  have absent := (find?_name_eq_none_iff declarations declaration.name).mpr new
  cases merge with
  | last => by_cases same : declaration.name = name <;> simp [MergePolicy.chosen, same]
  | first | error =>
    simp only [MergePolicy.chosen, List.find?_append]
    by_cases same : declaration.name = name
    · subst same
      simp [absent]
    · simp [same]

/-- Under a policy that keeps the first declaration, a further one of a known name changes
nothing. -/
theorem chosen_first_concat_of_known {declarations : List Declaration} {declaration : Declaration}
    (known : declaration.name ∈ declarations.map (·.name)) (name : String) :
    MergePolicy.first.chosen (declarations ++ [declaration]) name =
      MergePolicy.first.chosen declarations name := by
  simp only [MergePolicy.chosen, List.find?_append]
  by_cases same : declaration.name = name
  · -- The name is found before the end is reached.
    subst same
    have present := mt (find?_name_eq_none_iff declarations declaration.name).mp (not_not.mpr known)
    obtain ⟨first, found⟩ := Option.ne_none_iff_exists'.mp present
    simp [found]
  · simp [same]

/-- A new name is taken in under every policy in the same way. -/
theorem addDeclaration_of_new {merge : MergePolicy} {nodes : Table String Node}
    {declaration : Declaration} (new : nodes.get? declaration.name = none) :
    addDeclaration merge nodes declaration = pure
      (.ok (nodes.put declaration.name declaration.node)) := by
  simp only [addDeclaration, new]

/-- Taking in one more declaration fails only for a name declared before, and only if that is an
error. -/
theorem addDeclaration_takenIn {merge : MergePolicy} {declarations : List Declaration}
    {nodes : Table String Node} (taken : TakenIn merge declarations nodes)
    (declaration : Declaration) :
    (∃ grown, (addDeclaration merge nodes declaration).value = .ok grown ∧
      TakenIn merge (declarations ++ [declaration]) grown ∧
      (merge = .error → declaration.name ∉ declarations.map (·.name))) ∨
    (merge = .error ∧ ∃ first, declarations.find? (·.name == declaration.name) = some first ∧
      (addDeclaration merge nodes declaration).value =
        .error ⟨declaration.name, first.sourceFile, declaration.sourceFile⟩) := by
  by_cases new : declaration.name ∉ declarations.map (·.name)
  · -- A new name gets its node under every policy.
    left
    refine ⟨nodes.put declaration.name declaration.node, ?_, taken.put ?_ ?_, fun _ => new⟩
    · rw [addDeclaration_of_new ((taken.get?_eq_none_iff _).mpr new), Logged.value_pure]
    · rw [chosen_concat_of_new new, if_pos rfl]
    · intro name different
      rw [chosen_concat_of_new new, if_neg different.symm]
  · -- A known name has a node, and the policy says what becomes of it.
    have known := not_not.mp new
    obtain ⟨node, isNode⟩ := Option.ne_none_iff_exists'.mp (mt (taken.get?_eq_none_iff _).mp new)
    cases merge with
    | first =>
      refine Or.inl ⟨nodes, ?_, taken.keep known (chosen_first_concat_of_known known), by simp⟩
      simp only [addDeclaration, isNode, Logged.value_bind, Logged.value_pure]
    | last =>
      left
      refine ⟨nodes.put declaration.name declaration.node, ?_, taken.put ?_ ?_, by simp⟩
      · simp [addDeclaration, isNode]
      · simp [MergePolicy.chosen]
      · intro name different
        simp [MergePolicy.chosen, different.symm]
    | error =>
      -- The node of a known name comes from its first declaration.
      have fromFirst := taken.node declaration.name
      rw [isNode] at fromFirst
      obtain ⟨first, found, isFirst⟩ := Option.map_eq_some_iff.mp fromFirst.symm
      refine Or.inr ⟨rfl, first, found, ?_⟩
      simp [addDeclaration, isNode, ← isFirst, Declaration.node]

/-- Where a later declaration replaces an earlier one or falls behind it, all declarations are taken
in. -/
theorem addDeclarations_takenIn {merge : MergePolicy} (lenient : merge ≠ .error) :
    ∀ (more declarations : List Declaration)
      (nodes : Table String Node), TakenIn merge declarations nodes →
      ∃ grown, (addDeclarations merge nodes more).value = .ok grown ∧
        TakenIn merge (declarations ++ more) grown := by
  intro more
  induction more with
  | nil =>
    intro declarations nodes taken
    exact ⟨nodes, rfl, by simpa using taken⟩
  | cons declaration more ih =>
    intro declarations nodes taken
    -- One declaration is taken in, and the rest by induction.
    rcases addDeclaration_takenIn taken declaration with ⟨grown, step, takenMore, _⟩ | ⟨isError, _⟩
    · obtain ⟨final, result, takenAll⟩ := ih _ _ takenMore
      refine ⟨final, ?_, by simpa using takenAll⟩
      simp only [addDeclarations, Logged.value_bind, step, result]
    · exact absurd isError lenient

/-- Where no name may repeat, either all names differ and all declarations are taken in, or the
first declaration of a name that came before is reported. -/
theorem addDeclarations_error :
    ∀ (more declarations : List Declaration) (nodes : Table String Node),
      TakenIn .error declarations nodes → (declarations.map (·.name)).Nodup →
      (((declarations ++ more).map (·.name)).Nodup ∧
        ∃ grown, (addDeclarations .error nodes more).value = .ok grown) ∨
      ∃ between second later first, more = between ++ second :: later ∧
        ((declarations ++ between).map (·.name)).Nodup ∧ second.name ∈
          (declarations ++ between).map (·.name) ∧
        (declarations ++ more).find? (·.name == second.name) = some first ∧
        (addDeclarations .error nodes more).value =
          .error ⟨second.name, first.sourceFile, second.sourceFile⟩ := by
  intro more
  induction more with
  | nil =>
    intro declarations nodes _ distinct
    exact Or.inl ⟨by simpa using distinct, nodes, rfl⟩
  | cons declaration more ih =>
    intro declarations nodes taken distinct
    rcases addDeclaration_takenIn taken declaration with ⟨grown, step, takenMore, new⟩
      | ⟨_, first, found, step⟩
    · -- The name at hand is new, so the names stay different and the rest decides.
      have distinctMore : ((declarations ++ [declaration]).map (·.name)).Nodup := by
        rw [List.map_append, List.map_singleton, ← List.concat_eq_append]
        exact distinct.concat (new rfl)
      have unfolds : (addDeclarations .error nodes (declaration :: more)).value =
          (addDeclarations .error grown more).value := by
        simp only [addDeclarations, Logged.value_bind, step]
      rw [unfolds]
      rcases ih _ _ takenMore distinctMore with ⟨all, result⟩ |
          ⟨between, second, later, first, split, distinctBefore, repeated, found, result⟩
      · exact Or.inl ⟨by simpa using all, result⟩
      · refine Or.inr ⟨declaration :: between, second, later, first, by simp [split], ?_, ?_, ?_,
          result⟩
        · simpa using distinctBefore
        · simpa using repeated
        · simpa using found
    · -- The declaration at hand repeats a name, and all before it are different.
      have known : declaration.name ∈ declarations.map (·.name) := by
        by_contra new
        rw [(find?_name_eq_none_iff _ _).mpr new] at found
        cases found
      refine Or.inr ⟨[], declaration, more, first,
        rfl, by simpa using distinct, by simpa using known, ?_, ?_⟩
      · rw [List.find?_append, found, Option.some_or]
      · simp only [addDeclarations, Logged.value_bind, step, Logged.value_pure]

/-- As long as no name repeats, it does not matter which declaration of a name would count. -/
theorem addDeclarations_of_distinct (merge other : MergePolicy) :
    ∀ (more : List Declaration) (nodes : Table String Node),
      (nodes.names ++ more.map (·.name)).Nodup →
      addDeclarations merge nodes more = addDeclarations other nodes more := by
  intro more
  induction more with
  | nil =>
    intro nodes _
    rfl
  | cons declaration more ih =>
    intro nodes distinct
    -- The policy is asked only about known names, and this one is new.
    have split := List.nodup_append.mp distinct
    have fresh : declaration.name ∉ nodes.names := fun known =>
      split.2.2 declaration.name known declaration.name (by simp) rfl
    have new : nodes.get? declaration.name = none := by
      rw [← Option.not_isSome_iff_eq_none]
      exact fun known => fresh ((nodes.contains_iff _).mp known)
    have names : (nodes.put declaration.name declaration.node).names = nodes.names ++
        [declaration.name] := by
      rw [Table.names_put, if_neg fresh]
    simp only [addDeclarations, addDeclaration_of_new new, pure_bind]
    exact ih _ (by rw [names]; simpa using distinct)

/-- Every edge of a declaration comes from its name. -/
theorem source_of_mem_edges {declaration : Declaration} {edge : Edge}
    (made : edge ∈ declaration.edges) :
    edge.source = declaration.name := by
  simp only [Declaration.edges, List.mem_append, List.mem_map] at made
  rcases made with ⟨_, _, rfl⟩ | ⟨_, _, rfl⟩ <;> rfl

/-- The graph is that of the nodes taken in, with the edges that the policy leaves, or a repeated
name is reported. -/
theorem value_assemble (merge : MergePolicy) (dangling : DanglingPolicy)
    (declarations : List Declaration) :
    (assemble merge dangling declarations).value =
      (addDeclarations merge .empty declarations).value.map fun nodes =>
        ⟨nodes, keepEdges dangling nodes (declarations.flatMap Declaration.edges)⟩ := by
  unfold assemble
  rw [Logged.value_bind]
  cases (addDeclarations merge .empty declarations).value with
  | error duplicate => rfl
  | ok nodes =>
    -- Whether or not dropped edges are noted, the graph is the same.
    dsimp only
    split <;> rfl

/-- Nodes that are taken in make the graph of the declarations. -/
theorem TakenIn.assembled {merge : MergePolicy} {declarations : List Declaration}
    {nodes : Table String Node} (taken : TakenIn merge declarations nodes)
    (dangling : DanglingPolicy) :
    Assembled merge dangling declarations
      ⟨nodes, keepEdges dangling nodes (declarations.flatMap Declaration.edges)⟩ where
  names := taken.names
  node name := by
    -- The declaration that counts for a name bears that name, so its node does as well.
    have named : ∀ declaration, merge.chosen declarations name = some declaration →
        declaration.name = name := by
      intro declaration isChosen
      cases merge <;> exact by simpa using List.find?_some isChosen
    rw [taken.node]
    cases isChosen : merge.chosen declarations name with
    | none => rfl
    | some declaration => simp [Declaration.node, named declaration isChosen]
  edges := by
    cases dangling with
    | keep => rfl
    | drop =>
      -- The names among the nodes are the declared ones.
      refine List.filter_congr fun edge _ => ?_
      rw [Bool.eq_iff_iff, Table.contains_iff, taken.mem_names, decide_eq_true_iff]
  sources edge kept := by
    -- An edge that is kept was made by a declaration and comes from its name.
    have declared : edge ∈ declarations.flatMap Declaration.edges := by
      cases dangling with
      | keep => exact kept
      | drop => exact (List.mem_filter.mp kept).1
    obtain ⟨declaration, listed, made⟩ := List.mem_flatMap.mp declared
    rw [source_of_mem_edges made]
    exact (taken.mem_names _).mpr (List.mem_map_of_mem listed)

/-- Under any policy, declarations that go in without a fault are taken in. -/
theorem takenIn_of_addDeclarations {merge : MergePolicy} :
    ∀ (more declarations : List Declaration) (nodes grown : Table String Node),
      TakenIn merge declarations nodes →
      (addDeclarations merge nodes more).value = .ok grown → TakenIn merge
      (declarations ++ more) grown := by
  intro more
  induction more with
  | nil =>
    intro declarations nodes grown taken result
    cases result
    simpa using taken
  | cons declaration more ih =>
    intro declarations nodes grown taken result
    rcases addDeclaration_takenIn taken declaration with ⟨next, step, takenMore, _⟩
      | ⟨_, first, _, step⟩
    · simp only [addDeclarations, Logged.value_bind, step] at result
      simpa using ih _ _ _ takenMore result
    · -- A fault at one declaration is the fault of all.
      simp only [addDeclarations, Logged.value_bind, step, Logged.value_pure] at result
      cases result

/-- Whatever graph is assembled, under any policy, is the graph of the declarations. -/
theorem assembled_of_ok {merge : MergePolicy} {dangling : DanglingPolicy}
    {declarations : List Declaration} {graph : Graph}
    (built : (assemble merge dangling declarations).value = .ok graph) :
    Assembled merge dangling declarations graph := by
  -- Without a duplicate all declarations are taken in, starting from an empty table.
  rw [value_assemble] at built
  cases result : (addDeclarations merge .empty declarations).value with
  | error duplicate =>
    rw [result] at built
    cases built
  | ok nodes =>
    rw [result] at built
    cases built
    exact (takenIn_of_addDeclarations declarations [] .empty nodes (.empty merge) result).assembled
      dangling

/-- Each node of an assembled graph stands under its own name and has one of the kinds that there
are. -/
theorem Assembled.node_of_mem {merge : MergePolicy} {dangling : DanglingPolicy}
    {declarations : List Declaration} {graph : Graph}
    (assembled : Assembled merge dangling declarations graph) {name : String} {node : Node}
    (listed : (name, node) ∈ graph.nodes.entries) :
    node.id = name ∧ ∃ kind : Kind, node.kind = kind.label := by
  -- The node that is found under a name was made from a declaration of that name.
  have found := graph.nodes.get?_of_mem listed
  rw [assembled.node] at found
  obtain ⟨declaration, -, rfl⟩ := Option.map_eq_some_iff.1 found
  exact ⟨rfl, declaration.kind, rfl⟩

/-- The entries of an assembled graph can be told from its nodes. -/
theorem Assembled.entries_eq {merge : MergePolicy} {dangling : DanglingPolicy}
    {declarations : List Declaration} {graph : Graph}
    (assembled : Assembled merge dangling declarations graph) :
    graph.nodes.entries = graph.nodes.values.map fun node => (node.id, node) := by
  have named : ∀ entry ∈ graph.nodes.entries, entry = (entry.2.id, entry.2) := by
    intro entry listed
    rw [(assembled.node_of_mem listed).1]
  rw [Table.values, List.map_map]
  exact (List.map_id _).symm.trans (List.map_congr_left named)

/-- Assembling meets its specification. Where repeated names are no error it always gives the graph
of the declarations. Where they are, it fails exactly if some name repeats, and then reports the
first declaration whose name came before, with the file of the first declaration of that name and
its own; otherwise the graph is the one in which first declarations count. -/
theorem assemble_meets_specification (dangling : DanglingPolicy) (declarations : List Declaration) :
    (∀ merge, merge ≠ .error → ∃ graph, (assemble merge dangling declarations).value = .ok graph ∧
      Assembled merge dangling declarations graph) ∧
    ((∃ duplicate, (assemble .error dangling declarations).value = .error duplicate) ↔
      ¬ (declarations.map (·.name)).Nodup) ∧
    (∀ duplicate, (assemble .error dangling declarations).value = .error duplicate →
      ∃ earlier second later first, declarations = earlier ++ second :: later ∧
        (earlier.map (·.name)).Nodup ∧ second.name ∈ earlier.map (·.name) ∧
        declarations.find? (·.name == second.name) = some first ∧
        duplicate = ⟨second.name, first.sourceFile, second.sourceFile⟩) ∧
    ((declarations.map (·.name)).Nodup → (assemble .error dangling declarations).value =
        (assemble .first dangling declarations).value) := by
  have lenient : ∀ merge, merge ≠ .error → ∃ graph,
      (assemble merge dangling declarations).value = .ok graph ∧
        Assembled merge dangling declarations graph := by
    intro merge isLenient
    obtain ⟨nodes, result, taken⟩ :=
      addDeclarations_takenIn isLenient declarations [] .empty (.empty merge)
    exact ⟨_, by rw [value_assemble, result]; rfl, taken.assembled dangling⟩
  -- If no name repeats, the policy is never asked.
  have sameAsFirst : (declarations.map (·.name)).Nodup →
      (assemble .error dangling declarations).value =
        (assemble .first dangling declarations).value := by
    intro distinct
    rw [value_assemble, value_assemble,
      addDeclarations_of_distinct .error .first declarations .empty distinct]
  refine ⟨lenient, ?_⟩
  rcases addDeclarations_error declarations [] .empty (.empty .error) List.nodup_nil with
    ⟨distinct, nodes, result⟩ | ⟨earlier, second, later, first, split, distinct, repeated, found,
      result⟩
  · -- No name repeats, so the graph is the one in which first declarations count.
    rw [List.nil_append] at distinct
    have succeeds : (assemble .error dangling declarations).value =
        .ok ⟨nodes, keepEdges dangling nodes (declarations.flatMap Declaration.edges)⟩ := by
      rw [value_assemble, result]
      rfl
    refine ⟨⟨?_, fun notDistinct => absurd distinct notDistinct⟩, ?_, fun _ => sameAsFirst distinct⟩
    · rintro ⟨duplicate, fails⟩
      rw [succeeds] at fails
      cases fails
    · intro duplicate fails
      rw [succeeds] at fails
      cases fails
  · -- The second declaration of some name is reported.
    rw [List.nil_append] at distinct repeated found
    have fails : (assemble .error dangling declarations).value =
        .error ⟨second.name, first.sourceFile, second.sourceFile⟩ := by
      rw [value_assemble, result]
      rfl
    have repeats : ¬ (declarations.map (·.name)).Nodup := by
      intro all
      rw [split, List.map_append, List.map_cons, List.nodup_append] at all
      exact all.2.2 second.name repeated second.name (by simp) rfl
    refine ⟨⟨fun _ => repeats, fun _ => ⟨_, fails⟩⟩, ?_, fun all => absurd all repeats⟩
    intro duplicate reported
    rw [fails] at reported
    cases reported
    exact ⟨earlier, second, later, first, split, distinct, repeated, found, rfl⟩

end Lineage
