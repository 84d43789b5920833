import Lineage.Proofs.Graph.Assembly
import Lineage.Proofs.Graph.Neighborhood

/-! Edges that lack a node at an end take no part in the analysis of a graph, so it does not matter
whether they are kept or dropped. -/

namespace Lineage.Graph

/-- An edge is loose when one of its ends is no node. -/
def Loose (graph : Graph) (edge : Edge) : Prop :=
  edge.source ∉ graph.nodes.names ∨ edge.target ∉ graph.nodes.names

/-- The same nodes with some of the edges. -/
def prune (graph : Graph) (keep : Edge → Bool) : Graph :=
  { graph with edges := graph.edges.filter keep }

/-- From a node a loose edge leads to nothing that could be added. -/
theorem Loose.addNeighbor {graph : Graph} {edge : Edge} (loose : graph.Loose edge)
    {current : Neighbor} (isNode : current.name ∈ graph.nodes.names)
    (reached found : List Neighbor) :
    graph.addNeighbor reached current found edge = found := by
  rcases graph.addNeighbor_cases reached current found edge with
    ⟨unchanged, _⟩ | ⟨name, relation, node, _, leads, present, _⟩
  · exact unchanged
  · -- Whatever is added is a node, so that neither end would be missing.
    exfalso
    have otherNode := Table.mem_names_of_get? present
    rcases ends_of_otherEnd? leads with ⟨source, target⟩ | ⟨source, target⟩
    · rw [← source] at isNode
      rw [← target] at otherNode
      exact loose.elim (fun missing => missing isNode) fun missing => missing otherNode
    · rw [← target] at isNode
      rw [← source] at otherNode
      exact loose.elim (fun missing => missing otherNode) fun missing => missing isNode

section Prune

variable {graph : Graph} {keep : Edge → Bool}
  (loose : ∀ edge ∈ graph.edges, keep edge = false → graph.Loose edge)

include loose

/-- Loose edges give a type no successors. -/
theorem successors_prune (name : String) :
    (graph.prune keep).successors name = graph.successors name := by
  unfold successors prune
  rw [List.filter_filter]
  congr 1
  -- An edge that counts as a step has both of its ends, so it was not removed.
  refine List.filter_congr fun edge listed => ?_
  cases kept : keep edge with
  | true => simp
  | false =>
    have missing := loose edge listed kept
    simp only [Loose, ← Table.contains_iff, Bool.not_eq_true] at missing
    rcases missing with source | target
    · simp [source]
    · simp [target]

/-- The depth-first search asks for nothing but nodes and successors. -/
theorem cycles_prune : (graph.prune keep).cycles = graph.cycles := by
  -- The search looks at successors only, and a loose edge makes none.
  have successors : (graph.prune keep).successors = graph.successors :=
    funext (successors_prune loose)
  unfold cycles
  rw [successors]
  rfl

/-- One turn of a node finds the same types, since a loose edge leaves what was found as it is. -/
theorem newNeighbors_prune {current : Neighbor} (isNode : current.name ∈ graph.nodes.names)
    (reached : List Neighbor) :
    (graph.prune keep).newNeighbors reached current = graph.newNeighbors reached current := by
  -- Edge by edge: one that is left out would not have led anywhere.
  show (graph.edges.filter keep).foldl (graph.addNeighbor reached current) [] =
    graph.edges.foldl (graph.addNeighbor reached current) []
  rw [List.foldl_filter]
  refine List.foldl_ext _ _ _ fun found edge listed => ?_
  cases kept : keep edge with
  | true => rfl
  | false => exact ((loose edge listed kept).addNeighbor isNode reached found).symm

/-- Turn by turn the two searches reach the same types in the same order. -/
theorem spread_prune (maxDepth : Int) (steps : Nat) :
    ∀ waiting reached, (∀ one ∈ waiting, one.name ∈ graph.nodes.names) →
      (graph.prune keep).spread maxDepth steps waiting reached =
        graph.spread maxDepth steps waiting reached := by
  -- Only nodes ever wait, and from a node both searches find the same.
  induction steps with
  | zero =>
    intro waiting reached _
    rw [spread, spread]
  | succ steps ih =>
    intro waiting reached nodes
    cases waiting with
    | nil => rw [spread, spread] <;> simp
    | cons current waiting =>
      obtain ⟨isNode, nodesBehind⟩ := List.forall_mem_cons.mp nodes
      rw [spread, spread, newNeighbors_prune loose isNode]
      split
      · exact ih waiting reached nodesBehind
      · refine ih _ _ fun one member => ?_
        rcases List.mem_append.mp member with old | new
        · exact nodesBehind one old
        · exact ((newNeighbors_foundFrom isNode reached).beside one new).node

/-- The types around a type are the same, and so is the answer for a type that is no node. -/
theorem neighborhood?_prune (start : String) (maxDepth : Int) :
    (graph.prune keep).neighborhood? start maxDepth = graph.neighborhood? start maxDepth := by
  -- The walk begins at a node, and from nodes it comes to nodes only.
  show (graph.nodes.get? start).bind _ = (graph.nodes.get? start).bind _
  cases entry : graph.nodes.get? start with
  | none => rfl
  | some node =>
    have isNode : start ∈ graph.nodes.names := by
      rw [← Table.contains_iff, Table.contains, entry]
      rfl
    exact congrArg some (spread_prune loose maxDepth _ _ _ (by simpa using isNode))

end Prune

end Lineage.Graph

namespace Lineage

/-- Dropping the edges to undeclared types prunes the graph that keeps them. -/
theorem value_assemble_drop (merge : MergePolicy) (declarations : List Declaration) :
    (assemble merge .drop declarations).value =
      (assemble merge .keep declarations).value.map fun graph =>
        graph.prune fun edge => graph.nodes.contains edge.target := by
  -- The nodes are the same under both policies, and only the edges are chosen.
  rw [value_assemble, value_assemble]
  cases (addDeclarations merge .empty declarations).value with
  | error duplicate => rfl
  | ok nodes => rfl

/-- Whether edges to undeclared types are kept or dropped, assembling fails in the same way or gives
graphs of which the analysis is the same: the groups that inherit in a circle, in order, and the
types around any type to any depth, in order and with all that is said of them. -/
theorem analysis_of_dangling (merge : MergePolicy) (declarations : List Declaration) :
    (∃ duplicate, (assemble merge .keep declarations).value = .error duplicate ∧
      (assemble merge .drop declarations).value = .error duplicate) ∨
    ∃ kept dropped, (assemble merge .keep declarations).value = .ok kept ∧
      (assemble merge .drop declarations).value = .ok dropped ∧
      kept.cycles = dropped.cycles ∧
      ∀ start maxDepth, kept.neighborhood? start maxDepth =
        dropped.neighborhood? start maxDepth := by
  rw [value_assemble_drop]
  cases (assemble merge .keep declarations).value with
  | error duplicate => exact Or.inl ⟨duplicate, rfl, rfl⟩
  | ok kept =>
    right
    -- An edge is dropped because its target is no node.
    have loose : ∀ edge ∈ kept.edges, kept.nodes.contains edge.target = false →
        kept.Loose edge := by
      intro edge _ undeclared
      right
      rw [← Table.contains_iff, undeclared]
      simp
    exact ⟨kept, _, rfl, rfl, (Graph.cycles_prune loose).symm,
      fun start maxDepth => (Graph.neighborhood?_prune loose start maxDepth).symm⟩

end Lineage
