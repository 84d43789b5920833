import Lineage.Project.Run
import Lineage.Proofs.Graph.CycleChain

/-! What the notes about types that inherit from each other say, read as chains of edges. -/

namespace Lineage.Project

open Lineage.Graph

/-- The note about a group: its names with arrows between them. -/
def cycleNote (cycle : List String) : Note :=
  ⟨.warning, "Inheritance cycle: " ++ " -> ".intercalate cycle⟩

/-- Each group is noted in turn, and nothing else changes. -/
theorem run_reportCycles (graph : Graph) (desk : Desk) :
    (reportCycles graph).run.run desk =
      (.ok (), { desk with notes := desk.notes ++ graph.cycles.map cycleNote }) := by
  unfold reportCycles
  generalize graph.cycles = cycles
  induction cycles generalizing desk with
  | nil =>
    rw [List.map_nil, List.append_nil]
    rfl
  | cons cycle cycles ih =>
    -- The first note is on the desk when the others are taken.
    have later := ih { desk with notes := desk.notes ++ [cycleNote cycle] }
    rw [List.append_assoc, List.singleton_append, ← List.map_cons] at later
    rw [← later]
    rfl

/-- The arrows of a note follow the edges exactly if each member of the group has an edge to the
member that a depth-first search visits just before it. For two members this is always so, and
otherwise it takes edges in both directions between the last two names. What every note shows is the
search itself, backwards: each name but the last is the target of an edge from a name further on. -/
theorem reportCycles_follows_iff (graph : Graph) (desk : Desk) :
    (reportCycles graph).run.run desk =
      (.ok (), { desk with notes := desk.notes ++ graph.cycles.map cycleNote }) ∧
    ∃ order, Discovers graph.successors graph.nodes.names [] order ∧ ∀ cycle ∈ graph.cycles,
      (graph.Follows cycle ↔
        (order.filter fun name => name ∈ cycle).IsChain fun earlier later =>
          graph.HasEdge later earlier) ∧
      (cycle.length = 2 → graph.Follows cycle) ∧
      (graph.Follows cycle →
        ∃ front one last, cycle = front ++
          [one, last] ∧ graph.HasEdge one last ∧ graph.HasEdge last one) ∧
      ∀ front name back, cycle = front ++ name :: back → back ≠
        [] → ∃ parent ∈ back, graph.HasEdge parent name := by
  -- What is reported are the cycles, and the order is the one in which the search met the names.
  refine ⟨run_reportCycles graph desk, _, graph.discovers_roots, fun cycle found =>
    ⟨?_, ?_, ?_, ?_⟩⟩
  · exact follows_iff graph.discovers_roots found
  · exact follows_of_pair graph.discovers_roots found
  · exact both_ways_of_follows graph.discovers_roots found
  · exact fun front name back parts more =>
      exists_hasEdge_from_behind graph.discovers_roots found parts more

/-- Three types that inherit from each other in a ring. -/
def ring : Graph where
  nodes := ⟨[("A", ⟨"A", "A", "class", none, []⟩), ("B", ⟨"B", "B", "class", none, []⟩),
    ("C", ⟨"C", "C", "class", none, []⟩)], by decide⟩
  edges := [⟨"A", "B", "extends-class"⟩, ⟨"B", "C", "extends-class"⟩, ⟨"C", "A", "extends-class"⟩]

/-- The members of a ring of three are reported against their edges. -/
theorem ring_against_edges :
    ((reportCycles ring).run.run ⟨⟨.empty, []⟩, [], []⟩).2.notes =
      [⟨.warning, "Inheritance cycle: C -> B -> A"⟩] ∧
      ring.cycles = [["C", "B", "A"]] ∧ ¬ ring.Follows ["C", "B", "A"] := by
  refine ⟨by decide, by decide, fun follows => ?_⟩
  have edge : ring.HasEdge "C" "B" := (List.isChain_cons_cons.mp follows).1
  simp [HasEdge, ring] at edge

end Lineage.Project
