import Lineage.Proofs.Graph.Neighborhood

/-! How the types around a type are discovered: each one through the earliest type that an edge
joins to it and through the first such edge. A search to a smaller depth finds the first part of
what a deeper one finds. -/

namespace Lineage

/-- Whether an edge joins two names, in either direction. -/
def Edge.joins (edge : Edge) (one other : String) : Bool :=
  (edge.source == one && edge.target == other) || (edge.source == other && edge.target == one)

namespace Graph

/-- Whether some edge joins two names. -/
def isJoined (graph : Graph) (one other : String) : Bool :=
  graph.edges.any fun edge => edge.joins one other

/-- The earliest of the types reached that an edge joins to a name. -/
def parent? (graph : Graph) (reached : List Neighbor) (name : String) : Option Neighbor :=
  reached.find? fun earlier => graph.isJoined earlier.name name

/-- The place of the parent among the types reached. -/
def parentPlace (graph : Graph) (reached : List Neighbor) (name : String) : Nat :=
  reached.findIdx fun earlier => graph.isJoined earlier.name name

/-- The place of the first edge between two names. -/
def edgePlace (graph : Graph) (one other : String) : Nat :=
  graph.edges.findIdx fun edge => edge.joins one other

/-- What a type takes over from its parent and from the edge between the two. -/
structure FoundBy (graph : Graph) (parent : Neighbor) (edge : Edge) (neighbor : Neighbor) :
    Prop where
  relation : neighbor.relation = some
    (if edge.source = parent.name ∧ edge.target = neighbor.name then
      edge.relation else edge.relation ++ " (reverse)")
  methodCount : ∃ node, graph.nodes.get? neighbor.name = some node ∧
    neighbor.methodCount = parent.methodCount + node.methods.length

/-- The types reached, if each was discovered through its parent: the start comes first with its own
methods alone, every other type has a parent, and the types come in the order of their parents and,
for one parent, in the order of the edges. -/
structure DiscoveryTree (graph : Graph) (start : String) (reached : List Neighbor) : Prop where
  root : ∃ node, graph.nodes.get? start = some node ∧
    reached.head? = some ⟨start, 0, node.methods.length, none⟩
  children : ∀ neighbor ∈ reached, neighbor.name ≠ start → ∃ parent edge,
    graph.parent? reached neighbor.name = some parent ∧
    graph.edges.find? (fun edge => edge.joins parent.name neighbor.name) = some edge ∧
    graph.FoundBy parent edge neighbor
  ordered : reached.Pairwise fun one other => one.name ≠ start → other.name ≠ start →
    ∀ parent ∈ graph.parent? reached one.name, ∀ parent' ∈ graph.parent? reached other.name,
      Prod.Lex (· < ·) (· < ·) (graph.parentPlace reached one.name,
        graph.edgePlace parent.name one.name)
        (graph.parentPlace reached other.name, graph.edgePlace parent'.name other.name)

/-- An edge joins two names exactly if it leads from one to the other. -/
theorem joins_iff {edge : Edge} {one other : String} :
    edge.joins one other = true ↔
      (edge.source = one ∧ edge.target = other) ∨ (edge.source = other ∧ edge.target = one) := by
  simp [Edge.joins]

/-- An edge joins a name to what is at its other end. -/
theorem joins_iff_otherEnd? {edge : Edge} {one other : String} :
    edge.joins one other = true ↔ ∃ relation, otherEnd? edge one = some (other, relation) := by
  rw [joins_iff]
  refine ⟨fun ends => ?_, fun ⟨relation, leads⟩ => ends_of_otherEnd? leads⟩
  -- Where both ends have the given name, the edge counts as followed in its direction.
  by_cases isSource : edge.source = one
  · rcases ends with ⟨_, target⟩ | ⟨source, target⟩
    · exact ⟨edge.relation, by simp [otherEnd?, isSource, target]⟩
    · exact ⟨edge.relation, by simp [otherEnd?, isSource, target, ← source]⟩
  · obtain ⟨source, target⟩ := ends.resolve_left fun forward => isSource forward.1
    exact ⟨edge.relation ++ " (reverse)", by simp [otherEnd?, ← source, target, isSource]⟩

/-- The relation to the other end is that of the edge, and it is marked if the edge is followed
against its direction. -/
theorem relation_of_otherEnd? {edge : Edge} {one other relation : String}
    (leads : otherEnd? edge one = some (other, relation)) :
    relation = if edge.source = one ∧ edge.target = other then
      edge.relation else edge.relation ++ " (reverse)" := by
  -- The name at hand is the source of the edge, or else it is its target.
  unfold otherEnd? at leads
  split at leads
  · rename_i isSource
    cases leads
    rw [if_pos ⟨by simpa using isSource, rfl⟩]
  · rename_i notSource
    split at leads
    · cases leads
      rw [if_neg fun forward => notSource (by simpa using forward.1)]
    · cases leads

/-- Nodes are side by side exactly if some edge joins them. -/
theorem beside_iff_isJoined {graph : Graph} {one other : String} (oneNode : one ∈ graph.nodes.names)
    (otherNode : other ∈ graph.nodes.names) :
    graph.Beside one other ↔ graph.isJoined one other = true := by
  simp only [beside_iff_otherEnd? oneNode, isJoined, List.any_eq_true, joins_iff_otherEnd?,
    otherNode, true_and]

/-- The first item of a kind has a position in the list. -/
theorem findIdx_lt_of_find? {α : Type} {p : α → Bool} {row : List α} {item : α}
    (first : row.find? p = some item) :
    row.findIdx p < row.length :=
  List.findIdx_lt_length_of_exists ⟨item, List.mem_of_find?_eq_some first, List.find?_some first⟩

/-- What comes first in a row still does if the row grows at its end. -/
theorem findIdx_append_of_find? {α : Type} {p : α → Bool} {row : List α} {item : α}
    (first : row.find? p = some item) (more : List α) :
    (row ++ more).findIdx p = row.findIdx p := by
  rw [List.findIdx_append, if_pos (findIdx_lt_of_find? first)]

/-- What is known of the types found from one type through the edges that were looked at: each is
found through the first edge that joins the two, and they come in the order of these edges. -/
structure FoundThrough (graph : Graph) (current : Neighbor) (seen : List Edge)
    (found : List Neighbor) : Prop where
  through : ∀ neighbor ∈ found, ∃ edge,
    seen.find? (fun edge => edge.joins current.name neighbor.name) = some edge ∧
    graph.FoundBy current edge neighbor
  ordered : found.Pairwise fun one other =>
    (seen.findIdx fun edge => edge.joins current.name one.name) <
    seen.findIdx fun edge => edge.joins current.name other.name

/-- The types found so far do not depend on the next edge. -/
theorem FoundThrough.grow {graph : Graph} {current : Neighbor} {seen : List Edge}
    {found : List Neighbor} (known : graph.FoundThrough current seen found) (edge : Edge) :
    graph.FoundThrough current (seen ++ [edge]) found where
  -- More edges behind leave the first edge to a neighbor where it was.
  through neighbor member := by
    obtain ⟨first, isFirst, foundBy⟩ := known.through neighbor member
    exact ⟨first, by rw [List.find?_append, isFirst, Option.some_or], foundBy⟩
  ordered := by
    refine known.ordered.imp_of_mem fun {one other} oneIn otherIn before => ?_
    obtain ⟨_, isFirst, _⟩ := known.through one oneIn
    obtain ⟨_, isFirst', _⟩ := known.through other otherIn
    rwa [findIdx_append_of_find? isFirst, findIdx_append_of_find? isFirst']

/-- A type that is added is found through the edge at hand, since no edge before it leads there. -/
theorem FoundThrough.add {graph : Graph} {reached : List Neighbor} {current : Neighbor}
    {seen : List Edge} {found : List Neighbor}
    (complete : graph.FoundFrom reached current seen found)
    (known : graph.FoundThrough current seen found) (edge : Edge) :
    graph.FoundThrough current (seen ++ [edge]) (graph.addNeighbor reached current found edge) := by
  rcases graph.addNeighbor_cases reached current found edge with
    ⟨unchanged, _⟩ | ⟨name, relation, node, added, leads, present, new⟩
  · rw [unchanged]
    exact known.grow edge
  · have unseen : ∀ earlier ∈ seen, ¬ earlier.joins current.name name = true := by
      intro earlier inSeen joins
      obtain ⟨relation', leads'⟩ := joins_iff_otherEnd?.mp joins
      exact new (complete.complete earlier inSeen name relation' leads'
        (Table.mem_names_of_get? present))
    have joins := joins_iff_otherEnd?.mpr ⟨relation, leads⟩
    have grown := known.grow edge
    rw [added]
    refine ⟨fun neighbor member => ?_, ?_⟩
    · rcases List.mem_append.mp member with before | last
      · exact grown.through neighbor before
      · rw [List.mem_singleton.mp last]
        refine ⟨edge, ?_, ⟨by rw [relation_of_otherEnd? leads], node, present, rfl⟩⟩
        rw [List.find?_append, List.find?_eq_none.mpr unseen, Option.none_or, List.find?_singleton,
          if_pos joins]
    · -- The new type comes last, and so does its edge.
      refine List.pairwise_append.mpr
        ⟨grown.ordered, List.pairwise_singleton _ _, fun one before other last => ?_⟩
      obtain ⟨_, isFirst, _⟩ := known.through one before
      have inSeen := findIdx_lt_of_find? isFirst
      have none : (seen.findIdx fun edge => edge.joins current.name name) = seen.length :=
        List.findIdx_eq_length.mpr fun earlier listed => by simpa using unseen earlier listed
      rw [List.mem_singleton.mp last, findIdx_append_of_find? isFirst, List.findIdx_append, none,
        if_neg (Nat.lt_irrefl _)]
      omega

/-- New neighbors are found through the first edges that lead to them. -/
theorem newNeighbors_foundThrough {graph : Graph} {current : Neighbor}
    (isNode : current.name ∈ graph.nodes.names) (reached : List Neighbor) :
    graph.FoundThrough current graph.edges (graph.newNeighbors reached current) :=
  -- What was reached and found is needed along the way, to know that no earlier edge leads to what
  -- is added.
  (newNeighbors_run (motive := fun seen found => graph.FoundFrom reached current seen found ∧
      graph.FoundThrough current seen found)
    (fun _ _ edge listed known => ⟨known.1.add isNode listed, .add known.1 known.2 edge⟩)
    ⟨⟨List.nodup_nil, by simp, by simp, by simp, by simp⟩, by simp, List.Pairwise.nil⟩).2

/-- A type keeps its parent while more types are reached. -/
theorem parent?_append {graph : Graph} {reached : List Neighbor} {name : String} {parent : Neighbor}
    (isParent : graph.parent? reached name = some parent) (more : List Neighbor) :
    graph.parent? (reached ++ more) name = some parent ∧
      graph.parentPlace (reached ++ more) name = graph.parentPlace reached name := by
  unfold parent? at isParent ⊢
  exact ⟨by rw [List.find?_append, isParent, Option.some_or], findIdx_append_of_find? isParent more⟩

/-- What holds of a search between two turns: the types reached so far make up a tree, and the
parents in it are types whose turn has come. -/
structure Discovering (graph : Graph) (start : String) (waiting reached : List Neighbor) :
    Prop where
  tree : graph.DiscoveryTree start reached
  turned : ∀ neighbor ∈ reached, neighbor.name ≠ start →
    graph.parentPlace reached neighbor.name + waiting.length < reached.length

section Turn

variable {graph : Graph} {start : String} {maxDepth : Int} {waiting reached : List Neighbor}
  {current neighbor : Neighbor}

/-- The parent of a type that is found in a turn is the type whose turn it is, for all types before
that one have had theirs, and all nodes that edges join to them were reached then. -/
theorem parent?_new (spreading : graph.Spreading start maxDepth (current :: waiting) reached)
    (short : (current.distance : Int) < maxDepth)
    (new : neighbor ∈ graph.newNeighbors reached current) (more : List Neighbor) :
    graph.parent? (reached ++ more) neighbor.name = some current ∧
      graph.parentPlace (reached ++ more) neighbor.name +
        (waiting.length + 1) = reached.length := by
  have isNode := (spreading.walks current spreading.mem_reached).node
  have found := newNeighbors_foundFrom isNode reached
  have beside := found.beside neighbor new
  have joined : graph.isJoined current.name neighbor.name = true :=
    (beside_iff_isJoined isNode beside.node).mp beside
  obtain ⟨done, split, closed⟩ := spreading.turns
  have apart : ∀ earlier ∈ done, ¬ graph.isJoined earlier.name neighbor.name = true := by
    intro earlier before joins
    have inReached : earlier ∈ reached := split ▸ List.mem_append_left _ before
    -- Types come in the order of distance, so the earlier one led further too.
    have nearer : earlier.distance ≤ current.distance :=
      (List.pairwise_append.mp (split ▸ spreading.ordered)).2.2 earlier before current
        List.mem_cons_self
    have side :=
      (beside_iff_isJoined (spreading.walks earlier inReached).node beside.node).mpr joins
    obtain ⟨known, isKnown, named, _⟩ := closed earlier before (by omega) neighbor.name side
    exact found.fresh neighbor new (List.mem_map.mpr ⟨known, isKnown, named⟩)
  have isParent : graph.parent? reached neighbor.name = some current := by
    rw [parent?, split, List.find?_append, List.find?_eq_none.mpr apart, Option.none_or,
      List.find?_cons, joined]
  have place : graph.parentPlace reached neighbor.name = done.length := by
    have passed : (done.findIdx fun earlier => graph.isJoined earlier.name neighbor.name) =
      done.length :=
      List.findIdx_eq_length.mpr fun earlier before => by simpa using apart earlier before
    rw [parentPlace, split, List.findIdx_append, passed, if_neg (Nat.lt_irrefl _),
      List.findIdx_cons, joined]
    exact Nat.zero_add _
  obtain ⟨still, samePlace⟩ := parent?_append isParent more
  refine ⟨still, ?_⟩
  rw [samePlace, place, split, List.length_append, List.length_cons]

namespace Discovering

/-- At first there is the start alone. -/
theorem begin {node : Node} (isNode : graph.nodes.get? start = some node) :
    graph.Discovering start [⟨start, 0, node.methods.length, none⟩]
      [⟨start, 0, node.methods.length, none⟩] where
  tree := ⟨⟨node, isNode, rfl⟩, by simp, List.pairwise_singleton _ _⟩
  turned := by simp

/-- A type that leads no further leaves the tree as it is. -/
theorem stop (discovering : graph.Discovering start (current :: waiting) reached) :
    graph.Discovering start waiting reached where
  tree := discovering.tree
  -- One type less is waiting, so the bound on the parents' turns is easier to meet.
  turned neighbor member other := by
    have before := discovering.turned neighbor member other
    rw [List.length_cons] at before
    omega

/-- A type that was reached before keeps its parent, whose turn has come. -/
theorem parent?_old (discovering : graph.Discovering start (current :: waiting) reached)
    (member : neighbor ∈ reached) (other : neighbor.name ≠ start) (more : List Neighbor) :
    graph.parent? (reached ++ more) neighbor.name = graph.parent? reached neighbor.name ∧
      graph.parentPlace (reached ++ more) neighbor.name = graph.parentPlace reached neighbor.name ∧
      graph.parentPlace (reached ++ more) neighbor.name +
        (waiting.length + 1) < reached.length := by
  -- The parent had its turn before all that is waiting, and what comes later is behind it.
  obtain ⟨parent, _, isParent, _⟩ := discovering.tree.children neighbor member other
  obtain ⟨still, samePlace⟩ := parent?_append isParent more
  refine ⟨still.trans isParent.symm, samePlace, ?_⟩
  rw [samePlace]
  exact discovering.turned neighbor member other

/-- The types found in a turn come behind all others, as their parent comes behind all other
parents. -/
theorem ordered_extend (discovering : graph.Discovering start (current :: waiting) reached)
    (spreading : graph.Spreading start maxDepth (current :: waiting) reached)
    (short : (current.distance : Int) < maxDepth) (added : List Neighbor)
    (isAdded : graph.newNeighbors reached current = added) :
    (reached ++ added).Pairwise fun one other => one.name ≠ start → other.name ≠ start →
      ∀ parent ∈ graph.parent? (reached ++ added) one.name, ∀ parent' ∈ graph.parent?
        (reached ++ added) other.name,
        Prod.Lex (· < ·) (· < ·)
          (graph.parentPlace (reached ++ added) one.name, graph.edgePlace parent.name one.name)
          (graph.parentPlace (reached ++ added) other.name,
            graph.edgePlace parent'.name other.name) := by
  have through :=
    newNeighbors_foundThrough (spreading.walks current spreading.mem_reached).node reached
  have parents := fun neighbor (new : neighbor ∈ _) => parent?_new spreading short new added
  rw [isAdded] at through parents
  refine List.pairwise_append.mpr ⟨?_, ?_, ?_⟩
  · -- Among the old types nothing changes.
    refine discovering.tree.ordered.imp_of_mem fun {one other} oneIn otherIn before oneOther
      otherOther => ?_
    obtain ⟨isParent, place, _⟩ := discovering.parent?_old oneIn oneOther added
    obtain ⟨isParent', place', _⟩ := discovering.parent?_old otherIn otherOther added
    rw [isParent, place, isParent', place']
    exact before oneOther otherOther
  · -- The new types share their parent and come in the order of their edges.
    refine through.ordered.imp_of_mem fun {one other} oneIn otherIn before _ _ => ?_
    obtain ⟨isParent, place⟩ := parents one oneIn
    obtain ⟨isParent', place'⟩ := parents other otherIn
    rw [isParent, isParent']
    intro parent same parent' same'
    rw [← Option.mem_some_iff.mp same, ← Option.mem_some_iff.mp same']
    have equal : graph.parentPlace (reached ++ added) one.name =
        graph.parentPlace (reached ++ added) other.name := by
      omega
    rw [equal]
    exact Prod.Lex.right _ before
  · -- The parents of the old types had their turns before the parent of the new ones.
    intro one oneIn other new oneOther _ parent _ parent' _
    obtain ⟨_, _, before⟩ := discovering.parent?_old oneIn oneOther added
    obtain ⟨_, place⟩ := parents other new
    exact Prod.Lex.left _ _ (by omega)

/-- A turn in which types are found extends the tree by them. -/
theorem extend (discovering : graph.Discovering start (current :: waiting) reached)
    (spreading : graph.Spreading start maxDepth (current :: waiting) reached)
    (short : (current.distance : Int) < maxDepth) :
    graph.Discovering start (waiting ++ graph.newNeighbors reached current)
      (reached ++ graph.newNeighbors reached current) := by
  have through :=
    newNeighbors_foundThrough (spreading.walks current spreading.mem_reached).node reached
  have parents := fun neighbor (new : neighbor ∈ _) => parent?_new spreading short new
  have ordered := discovering.ordered_extend spreading short
  generalize graph.newNeighbors reached current = added at through parents ordered ⊢
  refine ⟨⟨?_, ?_, ordered added rfl⟩, ?_⟩
  · obtain ⟨node, isNode, first⟩ := discovering.tree.root
    exact ⟨node, isNode, by rw [List.head?_append, first, Option.some_or]⟩
  · intro neighbor member other
    rcases List.mem_append.mp member with old | new
    · rw [(discovering.parent?_old old other added).1]
      exact discovering.tree.children neighbor old other
    · -- The first edge that joins a new type to its parent is the one that it was found through.
      obtain ⟨edge, isFirst, foundBy⟩ := through.through neighbor new
      exact ⟨current, edge, (parents neighbor new added).1, isFirst, foundBy⟩
  · -- The turn of the current type has come now, and those that were added wait.
    intro neighbor member other
    simp only [List.length_append]
    rcases List.mem_append.mp member with old | new
    · have before := (discovering.parent?_old old other added).2.2
      omega
    · have place := (parents neighbor new added).2
      omega

end Discovering

end Turn

/-- The types around a node are discovered in a way that the graph alone determines. -/
theorem neighborhood?_discoveryTree (graph : Graph) (start : String) (maxDepth : Int)
    (isNode : start ∈ graph.nodes.names) :
    ∃ reached, graph.neighborhood? start maxDepth = some reached ∧
      graph.DiscoveryTree start reached := by
  obtain ⟨node, present⟩ := Table.exists_get?_of_mem isNode
  have spreading : graph.Spreading start maxDepth _ _ := .begin isNode node.methods.length
  refine ⟨_, neighborhood?_eq_spread present maxDepth, ?_⟩
  exact (spreading.run (motive := graph.Discovering start)
    (fun _ _ _ _ _ discovering => discovering.stop)
    (fun _ _ _ spreading short discovering => discovering.extend spreading short) (by simp; omega)
      (.begin present)).tree

/-- Two ways lead from `A` to `D`, and two edges in opposite directions join `A` and `C`. -/
def diamond : Graph where
  nodes :=
    ⟨[("A", ⟨"A", "A", "class", none, [⟨"f", "", ""⟩]⟩), ("B", ⟨"B", "B", "interface", none, []⟩),
    ("C", ⟨"C", "C", "class", none, [⟨"g", "", ""⟩]⟩),
    ("D", ⟨"D", "D", "class", none, [⟨"h", "", ""⟩]⟩)], by decide⟩
  edges :=
    [⟨"C", "A", "extends-class"⟩, ⟨"A", "C", "extends-class"⟩, ⟨"D", "B", "implements-interface"⟩,
    ⟨"A", "B", "implements-interface"⟩, ⟨"D", "C", "extends-class"⟩]

/-- In a diamond the tree leads to each type once. -/
theorem neighborhood?_discoveryTree_diamond :
    "A" ∈ diamond.nodes.names ∧ ∃ reached, diamond.neighborhood? "A" 2 = some reached ∧
      diamond.DiscoveryTree "A" reached ∧ reached =
        [⟨"A", 0, 1, none⟩, ⟨"C", 1, 2, some "extends-class (reverse)"⟩,
        ⟨"B", 1, 1, some "implements-interface"⟩, ⟨"D", 2, 3, some "extends-class (reverse)"⟩] := by
  obtain ⟨reached, found, tree⟩ := neighborhood?_discoveryTree diamond "A" 2 (by decide)
  exact ⟨by decide, reached, found, tree, Option.some.inj (found.symm.trans (by decide))⟩

section Depth

variable {graph : Graph} {start : String} {maxDepth : Int} {waiting reached : List Neighbor}

/-- Types that may lead no further end the search. -/
theorem spread_of_far (far : ∀ one ∈ waiting, maxDepth ≤ one.distance) (steps : Nat) :
    graph.spread maxDepth steps waiting reached = reached := by
  -- One after the other the waiting types are passed without leading anywhere.
  induction steps generalizing waiting with
  | zero => rfl
  | succ steps ih =>
    cases waiting with
    | nil => rfl
    | cons current waiting =>
      obtain ⟨here, later⟩ := List.forall_mem_cons.mp far
      rw [spread, if_pos here]
      exact ih later

/-- A search only adds to what was reached, and what it adds lies beyond all that waits. -/
theorem Spreading.beyond (spreading : graph.Spreading start maxDepth waiting reached)
    {steps least : Nat}
    (enough : waiting.length + graph.nodes.entries.length ≤ steps + reached.length)
    (far : ∀ one ∈ waiting, least ≤ one.distance) :
    ∃ more, graph.spread maxDepth steps waiting reached = reached ++ more ∧
      ∀ neighbor ∈ more, least < neighbor.distance := by
  refine (spreading.run (motive := fun waiting' reached' =>
    (∀ one ∈ waiting', least ≤ one.distance) ∧
    ∃ more, reached' = reached ++ more ∧ ∀ neighbor ∈ more, least < neighbor.distance) ?_ ?_ enough
    ⟨far, [], (List.append_nil _).symm, by simp⟩).2
  · -- A type that leads no further adds nothing.
    rintro current waiting' reached' _ _ ⟨far, grown⟩
    exact ⟨(List.forall_mem_cons.mp far).2, grown⟩
  · -- What is found from a type at this distance is one step further.
    rintro current waiting' reached' spreading _ ⟨far, more, rfl, beyond⟩
    have found :=
      newNeighbors_foundFrom (spreading.walks current spreading.mem_reached).node (reached ++ more)
    obtain ⟨here, later⟩ := List.forall_mem_cons.mp far
    have further : ∀ neighbor ∈ graph.newNeighbors (reached ++ more) current,
        least < neighbor.distance := by
      intro neighbor new
      rw [found.further neighbor new]
      omega
    refine ⟨fun one member => ?_, more ++ _, List.append_assoc _ _ _, fun neighbor member => ?_⟩
    · exact (List.mem_append.mp member).elim (later one) fun new => Nat.le_of_lt (further one new)
    · exact (List.mem_append.mp member).elim (beyond neighbor) (further neighbor)

/-- Two searches to different depths go the same way until one of them stops, and what the other
finds from then on is out of reach for the first. -/
theorem Spreading.deeper {depth deeper : Int} (le : depth ≤ deeper)
    (shallow : graph.Spreading start depth waiting reached)
    (deep : graph.Spreading start deeper waiting reached) {steps : Nat}
    (enough : waiting.length + graph.nodes.entries.length ≤ steps + reached.length) :
    ∃ more, graph.spread deeper steps waiting reached =
        graph.spread depth steps waiting reached ++ more ∧
      ∀ neighbor ∈ more, max 0 depth < (neighbor.distance : Int) := by
  induction steps generalizing waiting reached with
  | zero => exact ⟨[], (List.append_nil _).symm, by simp⟩
  | succ steps ih =>
    cases waiting with
    | nil => exact ⟨[], (List.append_nil _).symm, by simp⟩
    | cons current waiting =>
      by_cases stops : depth ≤ current.distance
      · -- The first search ends here, since those that wait are not nearer.
        have far : ∀ one ∈ current :: waiting, current.distance ≤ one.distance :=
          List.forall_mem_cons.mpr ⟨Nat.le_refl _, shallow.notNearer⟩
        have ends : graph.spread depth (steps + 1) (current :: waiting) reached = reached :=
          spread_of_far (fun one member => by have := far one member; omega) (steps + 1)
        obtain ⟨more, grown, beyond⟩ := deep.beyond enough far
        refine ⟨more, by rw [ends, grown], fun neighbor new => ?_⟩
        have := beyond neighbor new
        omega
      · rw [List.length_cons] at enough
        rw [Graph.spread, Graph.spread, if_neg stops, if_neg (by omega)]
        refine ih (shallow.extend (by omega)) (deep.extend (by omega)) ?_
        simp only [List.length_append]
        omega

end Depth

/-- To a smaller depth the search finds the first part of what it finds to a greater one, which are
the types within the smaller depth. A negative depth counts as zero. -/
theorem neighborhood?_monotone (graph : Graph) (start : String) (isNode : start ∈ graph.nodes.names)
    (depth deeper : Int) (le : depth ≤ deeper) :
    ∃ near far, graph.neighborhood? start depth = some near ∧
      graph.neighborhood? start deeper = some far ∧
      near <+: far ∧ near = far.filter fun neighbor => (neighbor.distance : Int) ≤ max 0 depth := by
  obtain ⟨node, present⟩ := Table.exists_get?_of_mem isNode
  have shallow : graph.Spreading start depth _ _ := .begin isNode node.methods.length
  have deep : graph.Spreading start deeper _ _ := .begin isNode node.methods.length
  have enough : [(⟨start, 0, node.methods.length, none⟩ : Neighbor)].length +
      graph.nodes.entries.length ≤ graph.nodes.entries.length + 1 +
          [(⟨start, 0, node.methods.length, none⟩ : Neighbor)].length := by
    simp only [List.length_singleton]
    omega
  have within := (shallow.spread enough).within
  obtain ⟨more, grown, beyond⟩ := shallow.deeper le deep enough
  refine ⟨_, _, neighborhood?_eq_spread present depth, neighborhood?_eq_spread present deeper,
    ⟨more, grown.symm⟩, ?_⟩
  -- Of the longer list the first part is within the smaller depth, and the rest lies beyond it.
  have dropped : more.filter (fun neighbor => (neighbor.distance : Int) ≤ max 0 depth) = [] := by
    refine List.filter_eq_nil_iff.mpr fun neighbor new => ?_
    have farther := beyond neighbor new
    simp
    omega
  rw [grown, List.filter_append, dropped, List.append_nil]
  exact (List.filter_eq_self.mpr fun neighbor member => by simpa using within neighbor member).symm

/-- In a diamond one more step adds the far corner behind all others. -/
theorem neighborhood?_monotone_diamond :
    "A" ∈ diamond.nodes.names ∧ (1 : Int) ≤ 2 ∧ ∃ near far,
      diamond.neighborhood? "A" 1 = some near ∧
      diamond.neighborhood? "A" 2 = some far ∧ near <+: far ∧
      near = (far.filter fun neighbor => (neighbor.distance : Int) ≤ max 0 1) ∧
      near.map (·.name) = ["A", "C", "B"] ∧ far.map (·.name) = ["A", "C", "B", "D"] := by
  obtain ⟨near, far, isNear, isFar, first, within⟩ :=
    neighborhood?_monotone diamond "A" (by decide) 1 2 (by decide)
  refine ⟨by decide, by decide, near, far, isNear, isFar, first, within, ?_, ?_⟩
  · -- The names are evaluated on both lists.
    exact Option.some.inj ((congrArg (Option.map _) isNear).symm.trans (by decide))
  · exact Option.some.inj ((congrArg (Option.map _) isFar).symm.trans (by decide))

end Graph

end Lineage
