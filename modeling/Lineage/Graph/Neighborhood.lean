import Lineage.Graph

/-! The types around a type, in order of their distance. -/

namespace Lineage.Graph

/-- A type that was reached: how far it is, how many methods lie on the way to it, its own included,
and the relation of the last step, of which the start has none. -/
structure Neighbor where
  name : String
  distance : Nat
  methodCount : Nat
  relation : Option String
  deriving DecidableEq, Repr

/-- The type at the other end of an edge, with the name of the relation as seen from the given
end. -/
def otherEnd? (edge : Edge) (name : String) : Option (String × String) :=
  if edge.source == name then some (edge.target, edge.relation)
  else if edge.target == name then some (edge.source, edge.relation ++ " (reverse)")
  else none

/-- The types that one step along the edges leads to for the first time, in the order of the
edges. -/
def newNeighbors (graph : Graph) (reached : List Neighbor) (current : Neighbor) : List Neighbor :=
  graph.edges.foldl
    (fun found edge =>
      match otherEnd? edge current.name with
      | none => found
      | some (name, relation) =>
        match graph.nodes.get? name with
        | none => found
        | some node =>
          if (reached ++ found).any (·.name == name) then found
          else found ++
            [⟨name, current.distance + 1, current.methodCount + node.methods.length,
              some relation⟩])
    []

/-- Goes on from the types that wait until none is left, and returns all that were reached. Each
type waits once, so the number of types bounds the steps, which is the first argument. -/
def spread (graph : Graph) (maxDepth : Int) : Nat → List Neighbor → List Neighbor → List Neighbor
  | 0, _, reached => reached
  | _, [], reached => reached
  | steps + 1, current :: waiting, reached =>
    -- A type at the greatest distance is reached but leads no further.
    if maxDepth ≤ current.distance then spread graph maxDepth steps waiting reached
    else
      let found := newNeighbors graph reached current
      spread graph maxDepth steps (waiting ++ found) (reached ++ found)

/-- The types within a distance of a type, along edges in either direction, the nearest first. There
is no answer for a type that is not in the graph. -/
def neighborhood? (graph : Graph) (start : String) (maxDepth : Int) : Option (List Neighbor) := do
  let node ← graph.nodes.get? start
  let first : Neighbor := ⟨start, 0, node.methods.length, none⟩
  return graph.spread maxDepth (graph.nodes.entries.length + 1) [first] [first]

end Lineage.Graph
