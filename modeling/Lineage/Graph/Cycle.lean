import Lineage.Graph

/-! Groups of types that inherit from each other in a circle. -/

namespace Lineage.Graph

/-- The steps from a type to the types it inherits from, among those that are in the graph, in the
order of the edges. -/
def successors (graph : Graph) (name : String) : List String :=
  (graph.edges.filter fun edge =>
    edge.source == name && graph.nodes.contains edge.source && graph.nodes.contains edge.target).map
      (·.target)

/-- A depth-first search under way: the names met, each with the number it was met as, those of them
that belong to no group yet, the latest first, and the groups found. -/
structure Search where
  met : List (String × Nat)
  stack : List String
  groups : List (List String)

/-- Before the search has met anything. -/
def Search.start : Search :=
  ⟨[], [], []⟩

/-- A name is met: it gets the next number and lies on top of the stack. -/
def Search.meet (search : Search) (name : String) : Search :=
  { search with met := (name, search.met.length) :: search.met, stack := name :: search.stack }

/-- A name and all above it on the stack form a group, which is recorded if it has two members at
least. -/
def Search.close (search : Search) (name : String) : Search :=
  let group := search.stack.takeWhile (· != name) ++ [name]
  { search with
    stack := (search.stack.dropWhile (· != name)).drop 1
    groups := if 2 ≤ group.length then search.groups ++ [group] else search.groups }

/-- Visits a name that was not met before and all that can be reached from it, and returns the least
number that is known to be reachable. The first argument bounds the depth. A search gives it the
number of all nodes, which no chain of visits exceeds; the stack of a machine, on which long chains
may not have room, is left out. -/
def visit (next : String → List String) : Nat → String → Search → Nat × Search
  | 0, _, search => (search.met.length, search)
  | depth + 1, name, search =>
    let number := search.met.length
    let (least, explored) := (next name).foldl
      (fun (least, search) successor =>
        match search.met.lookup successor with
        | none =>
          let (reached, deeper) := visit next depth successor search
          (min least reached, deeper)
        -- A name that was met and has left the stack belongs to a finished group and leads no
        -- further back.
        | some met => (if search.stack.contains successor then min least met else least, search))
      (number, search.meet name)
    (least, if least == number then explored.close name else explored)

/-- The groups of at least two types each of which inherits from all the others, directly or through
further types. A group comes before those that inherit from it, and within a group the types come in
the reverse of the order in which the search met them. -/
def cycles (graph : Graph) : List (List String) :=
  let search := graph.nodes.names.foldl
    (fun search name =>
      if (search.met.lookup name).isSome then search
      else (visit graph.successors graph.nodes.entries.length name search).2)
    Search.start
  search.groups

end Lineage.Graph
