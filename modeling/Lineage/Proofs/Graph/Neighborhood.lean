import Lineage.Graph.Neighborhood
import Lineage.Proofs.Graph.Cycle

/-! The types around a type are those within a distance, each with its shortest distance, the
nearest first. -/

namespace Lineage.Graph

/-- Two nodes are side by side when an arc joins them in either direction. -/
def Beside (graph : Graph) (one other : String) : Prop :=
  graph.Arc one other ∨ graph.Arc other one

/-- A walk takes a number of steps from a node to another, each to a node side by side. -/
inductive Walk (graph : Graph) (start : String) : Nat → String → Prop where
  | stay : start ∈ graph.nodes.names → Walk graph start 0 start
  | step {steps : Nat} {one other : String} : Walk graph start steps one → graph.Beside one other →
    Walk graph start (steps + 1) other

/-- The distance of a node is the number of steps of a shortest walk to it. -/
def IsDistance (graph : Graph) (start name : String) (distance : Nat) : Prop :=
  graph.Walk start distance name ∧ ∀ steps, graph.Walk start steps name → distance ≤ steps

/-- What a breadth-first search to a depth has to find: the start first, every name once, in the
order of distance, and exactly the nodes within the depth with their distances. A negative depth
reaches the start alone. -/
structure BreadthFirst (graph : Graph) (start : String) (maxDepth : Int) (reached : List Neighbor) :
    Prop where
  first : reached.head?.map (·.name) = some start
  once : (reached.map (·.name)).Nodup
  ordered : reached.Pairwise fun one other => one.distance ≤ other.distance
  exact :
    ∀ name distance, (∃ neighbor ∈ reached, neighbor.name = name ∧ neighbor.distance = distance) ↔
    graph.IsDistance start name distance ∧ (distance : Int) ≤ max 0 maxDepth

/-- What lies beside a type is a node. -/
theorem Beside.node {graph : Graph} {one other : String} (beside : graph.Beside one other) :
    other ∈ graph.nodes.names := by
  rcases beside with ⟨_, isNode, _⟩ | ⟨isNode, _, _⟩
  · exact isNode
  · exact isNode

/-- A walk ends at a node. -/
theorem Walk.node {graph : Graph} {start name : String} {steps : Nat}
    (walk : graph.Walk start steps name) :
    name ∈ graph.nodes.names := by
  cases walk with
  | stay isNode => exact isNode
  | step _ beside => exact beside.node

/-- An edge leads from one of its ends to the other. -/
theorem ends_of_otherEnd? {edge : Edge} {one other relation : String}
    (leads : otherEnd? edge one = some (other, relation)) :
    (edge.source = one ∧ edge.target = other) ∨ (edge.source = other ∧ edge.target = one) := by
  unfold otherEnd? at leads
  split at leads
  · -- The edge is followed in its direction.
    rename_i isSource
    cases leads
    exact Or.inl ⟨by simpa using isSource, rfl⟩
  · split at leads
    · -- The edge is followed against its direction.
      rename_i isTarget
      cases leads
      exact Or.inr ⟨rfl, by simpa using isTarget⟩
    · cases leads

/-- The other end of an edge is side by side with the given one if both are nodes, and every node
side by side is the other end of some edge. -/
theorem beside_iff_otherEnd? {graph : Graph} {one other : String}
    (isNode : one ∈ graph.nodes.names) :
    graph.Beside one other ↔
      other ∈ graph.nodes.names ∧ ∃ edge ∈ graph.edges, ∃ relation, otherEnd? edge one = some
        (other, relation) := by
  constructor
  · -- Either end of the edge may be the given one; where both are, the two names are the same.
    rintro (⟨_, otherNode, edge, listed, rfl, rfl⟩ | ⟨otherNode, _, edge, listed, rfl, rfl⟩)
    · exact ⟨otherNode, edge, listed, edge.relation, by simp [otherEnd?]⟩
    · refine ⟨otherNode, edge, listed, ?_⟩
      by_cases loop : edge.source = edge.target
      · exact ⟨edge.relation, by simp [otherEnd?, loop]⟩
      · exact ⟨edge.relation ++ " (reverse)", by simp [otherEnd?, loop]⟩
  · rintro ⟨otherNode, edge, listed, relation, found⟩
    rcases ends_of_otherEnd? found with ⟨source, target⟩ | ⟨source, target⟩
    · exact Or.inl ⟨isNode, otherNode, edge, listed, source, target⟩
    · exact Or.inr ⟨otherNode, isNode, edge, listed, source, target⟩

/-- One edge adds the type at its other end unless that is missing or was reached before. -/
def addNeighbor (graph : Graph) (reached : List Neighbor) (current : Neighbor)
    (found : List Neighbor) (edge : Edge) :
    List Neighbor :=
  match otherEnd? edge current.name with
  | none => found
  | some (name, relation) =>
    match graph.nodes.get? name with
    | none => found
    | some node =>
      if (reached ++ found).any (·.name == name) then found
      else found ++ [⟨name, current.distance + 1, current.methodCount + node.methods.length,
        some relation⟩]

theorem newNeighbors_eq (graph : Graph) (reached : List Neighbor) (current : Neighbor) :
    graph.newNeighbors reached current = graph.edges.foldl (graph.addNeighbor reached current) [] :=
  rfl

/-- What an edge adds: nothing, if it leads to no node or to one that was reached, or else one type,
one step further. -/
theorem addNeighbor_cases (graph : Graph) (reached : List Neighbor) (current : Neighbor)
    (found : List Neighbor) (edge : Edge) :
    (graph.addNeighbor reached current found edge = found ∧
      ∀ name relation, otherEnd? edge current.name = some (name, relation) →
        name ∈ graph.nodes.names →
        name ∈ (reached ++ found).map (·.name)) ∨
    ∃ name relation node, graph.addNeighbor reached current found edge = found ++
        [⟨name, current.distance + 1, current.methodCount + node.methods.length, some relation⟩] ∧
      otherEnd? edge current.name = some (name, relation) ∧ graph.nodes.get? name = some node ∧
      name ∉ (reached ++ found).map (·.name) := by
  unfold addNeighbor
  split
  · -- The edge does not touch the type.
    rename_i apart
    exact Or.inl ⟨rfl, fun name relation other => by rw [apart] at other; cases other⟩
  · rename_i name relation other
    split
    · -- There is no node at the other end.
      rename_i missing
      refine Or.inl ⟨rfl, fun name' relation' same isNode => ?_⟩
      rw [other] at same
      cases same
      rw [← Table.contains_iff, Table.contains, missing] at isNode
      cases isNode
    · rename_i node present
      split
      · -- The node was reached before.
        rename_i known
        refine Or.inl ⟨rfl, fun name' relation' same _ => ?_⟩
        rw [other] at same
        cases same
        simpa [List.any_eq_true] using known
      · rename_i fresh
        refine Or.inr ⟨name, relation, node, rfl, other, present, ?_⟩
        simpa [List.any_eq_true] using fresh

/-- What is known of the types found from one type: they are new and different nodes side by side
with it, one step further, and no edge that was looked at leads to a node that was neither reached
nor found. -/
structure FoundFrom (graph : Graph) (reached : List Neighbor) (current : Neighbor)
    (seen : List Edge) (found : List Neighbor) : Prop where
  once : (found.map (·.name)).Nodup
  fresh : ∀ neighbor ∈ found, neighbor.name ∉ reached.map (·.name)
  beside : ∀ neighbor ∈ found, graph.Beside current.name neighbor.name
  further : ∀ neighbor ∈ found, neighbor.distance = current.distance + 1
  complete : ∀ edge ∈ seen, ∀ name relation, otherEnd? edge current.name = some (name, relation) →
    name ∈ graph.nodes.names → name ∈ (reached ++ found).map (·.name)

/-- One more edge keeps what is known of the types found. -/
theorem FoundFrom.add {graph : Graph} {reached : List Neighbor} {current : Neighbor}
    {seen : List Edge} {found : List Neighbor} (known : graph.FoundFrom reached current seen found)
    (isNode : current.name ∈ graph.nodes.names) {edge : Edge} (listed : edge ∈ graph.edges) :
    graph.FoundFrom reached current (seen ++ [edge])
      (graph.addNeighbor reached current found edge) := by
  rcases graph.addNeighbor_cases reached current found edge with
    ⟨unchanged, covered⟩ | ⟨name, relation, node, added, other, present, new⟩
  · -- Nothing is added, because there is nothing new at the other end.
    rw [unchanged]
    refine ⟨known.once, known.fresh, known.beside, known.further, fun seenEdge inSeen => ?_⟩
    rcases List.mem_append.mp inSeen with before | last
    · exact known.complete seenEdge before
    · rw [List.mem_singleton.mp last]
      exact covered
  · rw [added]
    simp only [List.map_append, List.mem_append, not_or] at new
    refine ⟨?_, ?_, ?_, ?_, ?_⟩
    · -- The new name differs from those found before.
      rw [List.map_append, List.map_singleton, ← List.concat_eq_append]
      exact known.once.concat new.2
    · intro one member
      rcases List.mem_append.mp member with before | last
      · exact known.fresh one before
      · rw [List.mem_singleton.mp last]
        exact new.1
    · intro one member
      rcases List.mem_append.mp member with before | last
      · exact known.beside one before
      · rw [List.mem_singleton.mp last]
        exact (beside_iff_otherEnd? isNode).mpr
          ⟨Table.mem_names_of_get? present, edge, listed, relation, other⟩
    · intro one member
      rcases List.mem_append.mp member with before | last
      · exact known.further one before
      · rw [List.mem_singleton.mp last]
    · intro seenEdge inSeen name' relation' end' isNode'
      rcases List.mem_append.mp inSeen with before | last
      · -- What was covered before still is.
        have covered := known.complete seenEdge before name' relation' end' isNode'
        simp only [List.map_append, List.mem_append] at covered ⊢
        exact covered.imp id Or.inl
      · -- The edge at hand leads to the type that was added.
        rw [List.mem_singleton.mp last, other] at end'
        cases end'
        simp

/-- Whatever each edge keeps true of the types found holds of the new neighbors once all edges were
looked at. -/
theorem newNeighbors_run {graph : Graph} {reached : List Neighbor} {current : Neighbor}
    {motive : List Edge → List Neighbor → Prop}
    (add : ∀ seen found edge, edge ∈ graph.edges → motive seen found →
      motive (seen ++ [edge]) (graph.addNeighbor reached current found edge))
    (start : motive [] []) : motive graph.edges (graph.newNeighbors reached current) := by
  -- Along the edges: what was seen and what is still to come make up all of them.
  have general : ∀ more seen found, seen ++ more = graph.edges → motive seen found →
      motive graph.edges (more.foldl (graph.addNeighbor reached current) found) := by
    intro more
    induction more with
    | nil =>
      intro seen found all known
      rw [List.append_nil] at all
      rw [← all]
      exact known
    | cons edge more ih =>
      intro seen found all known
      have listed : edge ∈ graph.edges := by simp [← all]
      exact ih (seen ++ [edge]) _ (by simpa using all) (add seen found edge listed known)
  rw [newNeighbors_eq]
  exact general graph.edges [] [] rfl start

/-- All the edges together find every node side by side that was not reached. -/
theorem newNeighbors_foundFrom {graph : Graph} {current : Neighbor}
    (isNode : current.name ∈ graph.nodes.names) (reached : List Neighbor) :
    graph.FoundFrom reached current graph.edges (graph.newNeighbors reached current) :=
  newNeighbors_run (fun _ _ _ listed known => known.add isNode listed)
    ⟨List.nodup_nil, by simp, by simp, by simp, by simp⟩

/-- What holds of a search between two steps. The types whose turn has come are those before the
waiting ones. The types are in the order of distance, those that were reached lie at most one step
beyond each that waits, and all nodes side by side with a type whose turn has come were reached, if
that type may lead further. -/
structure Spreading (graph : Graph) (start : String) (maxDepth : Int)
    (waiting reached : List Neighbor) : Prop where
  first : ∃ neighbor, reached.head? = some neighbor ∧ neighbor.name = start ∧ neighbor.distance = 0
  once : (reached.map (·.name)).Nodup
  ordered : reached.Pairwise fun one other => one.distance ≤ other.distance
  walks : ∀ neighbor ∈ reached, graph.Walk start neighbor.distance neighbor.name
  within : ∀ neighbor ∈ reached, (neighbor.distance : Int) ≤ max 0 maxDepth
  near : ∀ one ∈ waiting, ∀ other ∈ reached, other.distance ≤ one.distance + 1
  turns : ∃ done, reached = done ++ waiting ∧ ∀ one ∈ done, (one.distance : Int) < maxDepth →
    ∀ name, graph.Beside one.name name → ∃ neighbor ∈ reached, neighbor.name = name ∧
      neighbor.distance ≤ one.distance + 1

namespace Spreading

variable {graph : Graph} {start : String} {maxDepth : Int} {waiting reached : List Neighbor}
  {current : Neighbor}

/-- At first the start is reached and waits. -/
theorem begin (isNode : start ∈ graph.nodes.names) (methodCount : Nat) :
    graph.Spreading start maxDepth [⟨start, 0, methodCount, none⟩]
      [⟨start, 0, methodCount, none⟩] where
  -- Only the start is reached and waiting.
  first := ⟨_, rfl, rfl, rfl⟩
  once := by simp
  ordered := List.pairwise_singleton _ _
  walks := by
    intro neighbor member
    rw [List.mem_singleton.mp member]
    exact .stay isNode
  within := by
    intro neighbor member
    rw [List.mem_singleton.mp member]
    exact Int.le_max_left 0 maxDepth
  near := by simp
  turns := ⟨[], rfl, by simp⟩

/-- A type that waits was reached. -/
theorem mem_reached (spreading : graph.Spreading start maxDepth (current :: waiting) reached) :
    current ∈ reached := by
  obtain ⟨done, split, _⟩ := spreading.turns
  rw [split]
  simp

/-- Those that wait behind the current type are not nearer than it is. -/
theorem notNearer (spreading : graph.Spreading start maxDepth (current :: waiting) reached) :
    ∀ one ∈ waiting, current.distance ≤ one.distance := by
  -- What is reached is in the order of the distances, and so is its end.
  obtain ⟨done, split, _⟩ := spreading.turns
  have tail : (current :: waiting).Pairwise fun one other => one.distance ≤ other.distance :=
    (List.pairwise_append.mp (split ▸ spreading.ordered)).2.1
  exact (List.pairwise_cons.mp tail).1

/-- A type at the greatest distance only loses its turn. -/
theorem stop (spreading : graph.Spreading start maxDepth (current :: waiting) reached)
    (far : maxDepth ≤ current.distance) : graph.Spreading start maxDepth waiting reached where
  first := spreading.first
  once := spreading.once
  ordered := spreading.ordered
  walks := spreading.walks
  within := spreading.within
  near one member := spreading.near one (List.mem_cons_of_mem current member)
  turns := by
    obtain ⟨done, split, closed⟩ := spreading.turns
    refine ⟨done ++ [current], by simpa using split, fun one member short => ?_⟩
    rcases List.mem_append.mp member with before | last
    · exact closed one before short
    · -- Nothing is asked of a type that leads no further.
      rw [List.mem_singleton.mp last] at short
      omega

/-- A type that may lead further adds the types found from it at the end. -/
theorem extend (spreading : graph.Spreading start maxDepth (current :: waiting) reached)
    (short : (current.distance : Int) < maxDepth) :
    graph.Spreading start maxDepth (waiting ++ graph.newNeighbors reached current)
      (reached ++ graph.newNeighbors reached current) := by
  have isReached := spreading.mem_reached
  have walk := spreading.walks current isReached
  have found := newNeighbors_foundFrom walk.node reached
  generalize graph.newNeighbors reached current = added at found ⊢
  obtain ⟨done, split, closed⟩ := spreading.turns
  have notNearer := spreading.notNearer
  have nearCurrent : ∀ other ∈ reached, other.distance ≤ current.distance + 1 :=
    spreading.near current List.mem_cons_self
  refine ⟨?_, ?_, ?_, ?_, ?_, ?_, ?_⟩
  · rw [List.head?_append_of_ne_nil _ (List.ne_nil_of_mem isReached)]
    exact spreading.first
  · -- Old names differ from new ones, and new ones from each other.
    rw [List.map_append, List.nodup_append]
    refine ⟨spreading.once, found.once, fun name old other new same => ?_⟩
    obtain ⟨neighbor, member, rfl⟩ := List.mem_map.mp new
    exact found.fresh neighbor member (same ▸ old)
  · -- What is new lies one step beyond the current type, and nothing old lies further away.
    refine List.pairwise_append.mpr ⟨spreading.ordered, ?_, fun one old other new => ?_⟩
    · refine List.pairwise_of_forall_mem_list fun one inOne other inOther => ?_
      exact Nat.le_of_eq ((found.further one inOne).trans (found.further other inOther).symm)
    · rw [found.further other new]
      exact nearCurrent one old
  · intro neighbor member
    rcases List.mem_append.mp member with old | new
    · exact spreading.walks neighbor old
    · rw [found.further neighbor new]
      exact .step walk (found.beside neighbor new)
  · intro neighbor member
    rcases List.mem_append.mp member with old | new
    · exact spreading.within neighbor old
    · rw [found.further neighbor new]
      omega
  · -- Every type that waits is at least as far as the current one, and nothing is two steps beyond
    -- that.
    have beyond : ∀ other ∈ reached ++ added, other.distance ≤ current.distance + 1 := by
      intro other member
      rcases List.mem_append.mp member with old | new
      · exact nearCurrent other old
      · exact Nat.le_of_eq (found.further other new)
    intro one inWaiting other member
    have bound := beyond other member
    rcases List.mem_append.mp inWaiting with old | new
    · have := notNearer one old
      omega
    · have := found.further one new
      omega
  · refine ⟨done ++ [current], by simp [split], fun one member limit name beside => ?_⟩
    rcases List.mem_append.mp member with before | last
    · obtain ⟨neighbor, isOld, named, bound⟩ := closed one before limit name beside
      exact ⟨neighbor, List.mem_append_left added isOld, named, bound⟩
    · -- A node side by side with the current type was reached before or is found now.
      rw [List.mem_singleton.mp last] at beside ⊢
      obtain ⟨otherNode, edge, listed, relation, other⟩ :=
        (beside_iff_otherEnd? walk.node).mp beside
      have covered := found.complete edge listed name relation other otherNode
      obtain ⟨neighbor, isKnown, rfl⟩ := List.mem_map.mp covered
      refine ⟨neighbor, isKnown, rfl, ?_⟩
      rcases List.mem_append.mp isKnown with old | new
      · exact nearCurrent neighbor old
      · exact Nat.le_of_eq (found.further neighbor new)

/-- There are no more types than nodes. -/
theorem length_le (spreading : graph.Spreading start maxDepth waiting reached) :
    reached.length ≤ graph.nodes.entries.length := by
  have nodes : reached.map (·.name) ⊆ graph.nodes.names := by
    intro name member
    obtain ⟨neighbor, isReached, rfl⟩ := List.mem_map.mp member
    exact (spreading.walks neighbor isReached).node
  -- Different names that are all among the names of the nodes are no more than these.
  have bound := (List.subperm_of_subset spreading.once nodes).length_le
  simpa [Table.names] using bound

/-- Once nothing waits, a walk within the depth ends at a type that was reached and is no further
away. -/
theorem complete (spreading : graph.Spreading start maxDepth [] reached) {steps : Nat}
    {name : String} (walk : graph.Walk start steps name) (within : (steps : Int) ≤ max 0 maxDepth) :
    ∃ neighbor ∈ reached, neighbor.name = name ∧ neighbor.distance ≤ steps := by
  obtain ⟨done, split, closed⟩ := spreading.turns
  rw [List.append_nil] at split
  subst split
  -- Along the walk: its last step leaves a type that was reached and whose turn has come.
  induction walk with
  | stay isNode =>
    obtain ⟨neighbor, isFirst, named, distance⟩ := spreading.first
    exact ⟨neighbor, List.mem_of_head? isFirst, named, Nat.le_of_eq distance⟩
  | @step steps one other walk beside ih =>
    obtain ⟨neighbor, member, rfl, bound⟩ := ih (by omega)
    obtain ⟨next, isReached, named, further⟩ := closed neighbor member (by omega) other beside
    exact ⟨next, isReached, named, by omega⟩

/-- Once nothing waits, what was reached is what a breadth-first search has to find. -/
theorem breadthFirst (spreading : graph.Spreading start maxDepth [] reached) :
    graph.BreadthFirst start maxDepth reached where
  first := by
    obtain ⟨neighbor, isFirst, named, _⟩ := spreading.first
    rw [isFirst, Option.map_some, named]
  once := spreading.once
  ordered := spreading.ordered
  exact name distance := by
    constructor
    · rintro ⟨neighbor, member, rfl, rfl⟩
      have within := spreading.within neighbor member
      refine ⟨⟨spreading.walks neighbor member, fun steps walk => ?_⟩, within⟩
      -- A shorter walk would end at a type of the same name that is nearer, but each name is there
      -- once.
      by_contra shorter
      obtain ⟨other, isReached, named, bound⟩ := spreading.complete walk (by omega)
      have same : other = neighbor := List.inj_on_of_nodup_map spreading.once isReached member named
      rw [same] at bound
      omega
    · rintro ⟨⟨walk, shortest⟩, within⟩
      obtain ⟨neighbor, member, rfl, bound⟩ := spreading.complete walk within
      -- The walk to the type that was reached is not shorter than the shortest one.
      have := shortest neighbor.distance (spreading.walks neighbor member)
      exact ⟨neighbor, member, rfl, by omega⟩

/-- Whatever each turn of a search keeps true holds once nothing waits, if there are enough steps
for all that waits and for every node that was not reached. -/
theorem run {motive : List Neighbor → List Neighbor → Prop}
    (stopped :
      ∀ current waiting reached, graph.Spreading start maxDepth (current :: waiting) reached →
      maxDepth ≤ current.distance → motive (current :: waiting) reached → motive waiting reached)
    (extended :
      ∀ current waiting reached, graph.Spreading start maxDepth (current :: waiting) reached →
      (current.distance : Int) < maxDepth → motive (current :: waiting) reached →
      motive (waiting ++ graph.newNeighbors reached current)
        (reached ++ graph.newNeighbors reached current))
    (spreading : graph.Spreading start maxDepth waiting reached) {steps : Nat}
    (enough : waiting.length + graph.nodes.entries.length ≤ steps + reached.length)
    (now : motive waiting reached) :
    motive [] (graph.spread maxDepth steps waiting reached) := by
  -- Each step takes one type from those that wait, and what is added to them is added to those that
  -- were reached.
  induction steps generalizing waiting reached with
  | zero =>
    have bound := spreading.length_le
    have nothing : waiting = [] := List.length_eq_zero_iff.mp (by omega)
    rw [nothing] at now ⊢
    exact now
  | succ steps ih =>
    cases waiting with
    | nil => exact now
    | cons current waiting =>
      rw [List.length_cons] at enough
      rw [Graph.spread]
      split
      · rename_i far
        exact ih (spreading.stop far) (by omega) (stopped current waiting reached spreading far now)
      · rename_i short
        refine ih (spreading.extend (by omega)) ?_
          (extended current waiting reached spreading (by omega) now)
        simp only [List.length_append]
        omega

/-- A search with enough steps goes on until nothing waits. -/
theorem spread (spreading : graph.Spreading start maxDepth waiting reached) {steps : Nat}
    (enough : waiting.length + graph.nodes.entries.length ≤ steps + reached.length) :
    graph.Spreading start maxDepth [] (graph.spread maxDepth steps waiting reached) :=
  spreading.run (fun _ _ _ spreading far _ => spreading.stop far)
    (fun _ _ _ spreading short _ => spreading.extend short) enough spreading

end Spreading

/-- Around a node the search begins with the node itself, and there are enough steps for all
nodes. -/
theorem neighborhood?_eq_spread {graph : Graph} {start : String} {node : Node}
    (isNode : graph.nodes.get? start = some node) (maxDepth : Int) :
    graph.neighborhood? start maxDepth = some
      (graph.spread maxDepth (graph.nodes.entries.length + 1)
      [⟨start, 0, node.methods.length, none⟩] [⟨start, 0, node.methods.length, none⟩]) := by
  simp [neighborhood?, isNode]

/-- The neighborhood of a type is missing exactly if the type is no node, and otherwise it is what a
breadth-first search along edges in either direction has to find. -/
theorem neighborhood?_breadthFirst (graph : Graph) (start : String) (maxDepth : Int) :
    (graph.neighborhood? start maxDepth = none ↔ start ∉ graph.nodes.names) ∧
      (start ∈ graph.nodes.names →
        ∃ reached, graph.neighborhood? start maxDepth = some reached ∧
          graph.BreadthFirst start maxDepth reached) := by
  have present : start ∈ graph.nodes.names ↔ (graph.nodes.get? start).isSome = true :=
    (graph.nodes.contains_iff start).symm
  cases entry : graph.nodes.get? start with
  | none =>
    -- Nothing is looked for around a type that is no node.
    have missing : start ∉ graph.nodes.names := by simp [present, entry]
    refine ⟨⟨fun _ => missing, fun _ => ?_⟩, fun isNode => absurd isNode missing⟩
    simp [neighborhood?, entry]
  | some node =>
    have isNode : start ∈ graph.nodes.names := by simp [present, entry]
    rw [neighborhood?_eq_spread entry maxDepth]
    refine ⟨⟨nofun, fun missing => absurd isNode missing⟩, fun _ => ⟨_, rfl, ?_⟩⟩
    -- The start waits, and every other node needs a step at most once.
    exact ((Spreading.begin isNode _).spread (by simp; omega)).breadthFirst

end Lineage.Graph
