import Lineage.Proofs.Graph.CycleOrder
import Mathlib.Data.List.Chain
import Mathlib.Data.List.Sort

/-! A group read as a chain of names: each name but the last is stepped to from one further on, so
that the chain as it is written follows the edges only where they go both ways. -/

namespace Lineage.Graph

namespace Discovers

variable {next : String → List String} {todo seen order : List String} {name : String}

/-- What was visited comes first in the order. -/
theorem seen_first (discovers : Discovers next todo seen order) : seen <+: order := by
  induction discovers with
  | done => exact List.prefix_refl _
  | again _ _ ih => exact ih
  | visit _ _ ih => exact (List.prefix_append _ _).trans ih

/-- A search can be cut where some of the names to be taken are done with. -/
theorem split {first second : List String}
    (discovers : Discovers next (first ++ second) seen order) :
    ∃ middle, Discovers next first seen middle ∧ Discovers next second middle order := by
  generalize both : first ++ second = todo at discovers
  induction discovers generalizing first with
  | done =>
    obtain ⟨rfl, rfl⟩ := List.append_eq_nil_iff.mp both
    exact ⟨_, .done, .done⟩
  | @again name todo seen order known further ih =>
    cases first with
    | nil =>
      rw [List.nil_append] at both
      exact ⟨seen, .done, both ▸ .again known further⟩
    | cons head first =>
      obtain ⟨rfl, rfl⟩ := List.cons.inj both
      obtain ⟨middle, one, two⟩ := ih rfl
      exact ⟨middle, .again known one, two⟩
  | @visit name todo seen order new further ih =>
    cases first with
    | nil =>
      rw [List.nil_append] at both
      exact ⟨seen, .done, both ▸ .visit new further⟩
    | cons head first =>
      obtain ⟨rfl, rfl⟩ := List.cons.inj both
      -- The successors of the new name belong to the first part.
      obtain ⟨middle, one, two⟩ := ih (List.append_assoc _ _ _)
      exact ⟨middle, .visit new one, two⟩

/-- All that a newly visited name steps to is visited as well. -/
theorem closed (discovers : Discovers next todo seen order) :
    ∀ name ∈ order, name ∉ seen → next name ⊆ order := by
  induction discovers with
  | done => exact fun name inside new => absurd inside new
  | again _ _ ih => exact ih
  | @visit head todo seen order _ further ih =>
    -- The successors of a name are to be met right after it.
    intro name inside new
    by_cases same : name = head
    · subst same
      exact (List.append_subset.mp further.todo_subset).1
    · exact ih name inside (by simp [new, same])

/-- A newly visited name is one of those to be taken, or it is stepped to from one that was visited
before it and that one of those to be taken leads to. -/
theorem parent (discovers : Discovers next todo seen order) :
    ∀ name ∈ order, name ∉ seen → name ∈ todo ∨ ∃ parent, order.idxOf parent < order.idxOf name ∧
      name ∈ next parent ∧
      ∃ root ∈ todo, Leads next root parent := by
  induction discovers with
  | done => exact fun name inside new => absurd inside new
  | again _ _ ih =>
    intro name inside new
    rcases ih name inside new with waits | ⟨parent, before, step, root, waits, leads⟩
    · exact Or.inl (List.mem_cons_of_mem _ waits)
    · exact Or.inr ⟨parent, before, step, root, List.mem_cons_of_mem _ waits, leads⟩
  | @visit head todo seen order fresh further ih =>
    intro name inside new
    by_cases same : name = head
    · exact Or.inl (by simp [same])
    · have later : name ∉ seen ++ [head] := by simp [new, same]
      rcases ih name inside later with waits | ⟨parent, before, step, root, waits, leads⟩
      · rcases List.mem_append.mp waits with step | waits
        · -- The name is stepped to from the one that was just visited.
          obtain ⟨rest, rfl⟩ := further.seen_first
          refine Or.inr ⟨head, ?_, step, head, List.mem_cons_self, .refl⟩
          rw [List.idxOf_append_of_notMem later, List.idxOf_append_of_mem (by simp)]
          have := List.idxOf_lt_length_of_mem (show head ∈ seen ++ [head] by simp)
          omega
        · exact Or.inl (List.mem_cons_of_mem _ waits)
      · rcases List.mem_append.mp waits with first | waits
        · exact Or.inr ⟨parent, before, step, head, List.mem_cons_self, .head first leads⟩
        · exact Or.inr ⟨parent, before, step, root, List.mem_cons_of_mem _ waits, leads⟩

/-- When a name is visited, a search through its successors follows. -/
theorem at_visit (discovers : Discovers next todo seen order) (inside : name ∈ order)
    (new : name ∉ seen) :
    ∃ before middle, name ∉ before ∧ Discovers next (next name) (before ++ [name]) middle ∧
      middle <+: order := by
  induction discovers with
  | done => exact absurd inside new
  | again _ _ ih => exact ih inside new
  | @visit head todo seen order fresh further ih =>
    -- What is met because of the name comes before what was waiting already.
    by_cases same : name = head
    · subst same
      obtain ⟨middle, one, two⟩ := further.split
      exact ⟨seen, middle, fresh, one, two.seen_first⟩
    · exact ih inside (by simp [new, same])

/-- Of the names that belong together with the one of them visited first, each other one is stepped
to from one of them that was visited before it. -/
theorem exists_parent {first : String} (discovers : Discovers next todo [] order)
    (inside : first ∈ order)
    (earliest : ∀ other ∈ order, Joined next first other → order.idxOf first ≤ order.idxOf other)
    (joined : Joined next first name) (different : name ≠ first) :
    ∃ parent, Joined next first parent ∧ order.idxOf parent < order.idxOf name ∧
      name ∈ next parent := by
  obtain ⟨before, middle, new, search, rest, rfl⟩ := discovers.at_visit inside List.not_mem_nil
  have position : (middle ++ rest).idxOf first = before.length := by
    obtain ⟨found, rfl⟩ := search.seen_first
    simp [List.idxOf_append_of_notMem new]
  have firstIn : first ∈ middle := search.seen_first.subset (by simp)
  -- None of the names was visited before the first one.
  have unseen : ∀ other, Joined next first other → other ∉ before := by
    intro other together early
    obtain ⟨found, rfl⟩ := search.seen_first
    have late := earliest other (by simp [early]) together
    rw [position] at late
    simp only [List.append_assoc, List.idxOf_append_of_mem early] at late
    have := List.idxOf_lt_length_of_mem early
    omega
  -- So the search that follows the visit of the first one reaches all of them, along the chains of
  -- steps between them.
  have reached : ∀ other, Leads next first other → Leads next other first → other ∈ middle := by
    intro other there
    induction there with
    | refl => exact fun _ => firstIn
    | @tail one other there step ih =>
      intro back
      have oneIn := ih (.head step back)
      by_cases same : one = first
      · subst same
        exact search.todo_subset step
      · have apart : one ∉ before ++ [first] := by simp [unseen one ⟨there, .head step back⟩, same]
        exact search.closed one oneIn apart step
  have nameIn := reached name joined.1 joined.2
  have later : name ∉ before ++ [first] := by simp [unseen name joined, different]
  rcases search.parent name nameIn later with step | ⟨parent, earlier, step, root, begins, leads⟩
  · refine ⟨first, ⟨.refl, .refl⟩, ?_, step⟩
    obtain ⟨found, rfl⟩ := search.seen_first
    rw [position, List.append_assoc, List.idxOf_append_of_notMem later, List.length_append,
      List.length_singleton]
    omega
  · have parentIn : parent ∈ middle :=
      List.idxOf_lt_length_iff.mp (Nat.lt_trans earlier (List.idxOf_lt_length_of_mem nameIn))
    refine ⟨parent, ⟨.head begins leads, .head step joined.2⟩, ?_, step⟩
    rwa [List.idxOf_append_of_mem parentIn, List.idxOf_append_of_mem nameIn]

end Discovers

/-- There is an edge from one name to another. -/
def HasEdge (graph : Graph) (one other : String) : Prop :=
  ∃ edge ∈ graph.edges, edge.source = one ∧ edge.target = other

/-- A chain of names follows the edges if there is an edge from each name to the next one. -/
def Follows (graph : Graph) (chain : List String) : Prop :=
  chain.IsChain graph.HasEdge

theorem hasEdge_of_mem_successors {graph : Graph} {one other : String}
    (step : other ∈ graph.successors one) :
    graph.HasEdge one other :=
  ((graph.mem_successors one other).mp step).2.2

/-- A list of two members or more has a last one and one before it. -/
theorem exists_last_two {row : List String} (large : 2 ≤ row.length) :
    ∃ front one last, row = front ++ [one, last] := by
  rcases List.eq_nil_or_concat row with rfl | ⟨start, last, rfl⟩
  · cases large
  · rcases List.eq_nil_or_concat start with rfl | ⟨front, one, rfl⟩
    · simp at large
    · exact ⟨front, one, last, by simp⟩

section Group

variable {graph : Graph} {order group : List String}
  (isOrder : Discovers graph.successors graph.nodes.names [] order)
  (found : group ∈ graph.cycles)

include isOrder found

/-- A group has at least two members, which are visited, and it is all that belongs together with
any of them. -/
theorem group_whole :
    2 ≤ group.length ∧ (∀ name ∈ group, name ∈ order) ∧
      ∀ name ∈ group, ∀ other, other ∈ group ↔ Joined graph.successors name other := by
  -- The order is the one in which the search meets the names, and the search has found the group.
  obtain ⟨⟨_, grouped⟩, _, _⟩ :=
    foldl_visitRoot_resting graph graph.nodes.names .start (fun name listed => listed)
      ⟨.start, .start⟩
  rw [isOrder.unique graph.discovers_roots]
  rw [cycles_eq] at found
  generalize graph.nodes.names.foldl graph.visitRoot .start = search at grouped found ⊢
  refine ⟨(grouped.size group found).2, fun name inside => ?_, grouped.whole group found⟩
  exact (search.met_iff_mem_discovered name).mp (grouped.members group found name inside).1

/-- A group is the part of the order of visits that belongs together, read backwards. -/
theorem group_eq_reverse : group = (order.filter fun name => name ∈ group).reverse := by
  have rising : order.Pairwise fun one other => order.idxOf one < order.idxOf other := by
    refine List.pairwise_iff_getElem.mpr fun one other oneIn otherIn less => ?_
    have distinct := isOrder.nodup List.nodup_nil
    rwa [distinct.idxOf_getElem one oneIn, distinct.idxOf_getElem other otherIn]
  have irreflexive : Std.Irrefl fun one other => order.idxOf other < order.idxOf one :=
    ⟨fun _ => Nat.lt_irrefl _⟩
  have antisymmetric : Std.Antisymm fun one other => order.idxOf other < order.idxOf one :=
    ⟨fun _ _ less more => absurd less (Nat.lt_asymm more)⟩
  -- Both rows fall in the order of visits, and they have the same members.
  refine List.Pairwise.eq_of_mem_iff (graph.cycles_falling isOrder found)
    (List.pairwise_reverse.mpr (rising.filter _)) fun name => ?_
  simp only [List.mem_reverse, List.mem_filter, decide_eq_true_eq]
  exact ⟨fun inside => ⟨(group_whole isOrder found).2.1 name inside, inside⟩, fun both => both.2⟩

/-- Each name of a group but the last one is stepped to from a name that stands further on. -/
theorem exists_hasEdge_from_behind {front back : List String} {name : String}
    (parts : group = front ++ name :: back) (more : back ≠ []) :
    ∃ parent ∈ back, graph.HasEdge parent name := by
  obtain ⟨_, visited, whole⟩ := group_whole isOrder found
  have falling := graph.cycles_falling isOrder found
  rw [parts] at falling
  obtain ⟨_, tail, across⟩ := List.pairwise_append.mp falling
  obtain ⟨below, within⟩ := List.pairwise_cons.mp tail
  -- The last name was visited first.
  obtain ⟨last, isLast, least⟩ := @exists_getLast?_of_falling order.idxOf back more within
  have lastBack : last ∈ back := List.mem_of_getLast? isLast
  have lastIn : last ∈ group := by simp [parts, lastBack]
  have earliest : ∀ other ∈ order, Joined graph.successors last other →
      order.idxOf last ≤ order.idxOf other := by
    intro other _ together
    have inside := (whole last lastIn other).mpr together
    rw [parts, List.mem_append, List.mem_cons] at inside
    rcases inside with inFront | rfl | inBack
    · exact Nat.le_of_lt (across other inFront last (by simp [lastBack]))
    · exact Nat.le_of_lt (below last lastBack)
    · exact least other inBack
  have joined := (whole last lastIn name).mp (by simp [parts])
  have different : name ≠ last := by
    rintro rfl
    exact Nat.lt_irrefl _ (below name lastBack)
  obtain ⟨parent, together, before, step⟩ :=
    isOrder.exists_parent (visited last lastIn) earliest joined different
  have inside := (whole last lastIn parent).mpr together
  rw [parts, List.mem_append, List.mem_cons] at inside
  refine ⟨parent, ?_, hasEdge_of_mem_successors step⟩
  -- The names before the given one were visited after it.
  rcases inside with inFront | rfl | inBack
  · exact absurd before (Nat.lt_asymm (across parent inFront name (by simp)))
  · exact absurd before (Nat.lt_irrefl _)
  · exact inBack

/-- A group follows the edges exactly if each member has an edge to the member visited just before
it. -/
theorem follows_iff :
    graph.Follows group ↔
      (order.filter fun name => name ∈ group).IsChain fun earlier later =>
        graph.HasEdge later earlier := by
  rw [← List.isChain_reverse, ← group_eq_reverse isOrder found, Follows]

/-- If a group follows the edges, then edges go both ways between its last two names. -/
theorem both_ways_of_follows (follows : graph.Follows group) :
    ∃ front one last, group = front ++
      [one, last] ∧ graph.HasEdge one last ∧ graph.HasEdge last one := by
  obtain ⟨front, one, last, parts⟩ := exists_last_two (group_whole isOrder found).1
  refine ⟨front, one, last, parts, ?_, ?_⟩
  · -- The step to the last member is one of the list.
    rw [Follows, parts, List.isChain_append_cons_cons] at follows
    exact follows.2.1
  · -- The member before the last is the only one behind which the last one can have been met.
    obtain ⟨parent, isLast, edge⟩ :=
      exists_hasEdge_from_behind isOrder found parts (List.cons_ne_nil _ _)
    rwa [List.mem_singleton.mp isLast] at edge

/-- Two names alone always follow the edges. -/
theorem follows_of_pair (pair : group.length = 2) : graph.Follows group := by
  obtain ⟨one, other, rfl⟩ := List.length_eq_two.mp pair
  have whole := (group_whole isOrder found).2.2
  have joined : Joined graph.successors one other := (whole one (by simp) other).mp (by simp)
  have different : one ≠ other := by
    rintro rfl
    have falling := graph.cycles_falling isOrder found
    simp at falling
  -- Along a chain of steps from one to the other: the step that enters the other comes from the
  -- one.
  have enters : ∀ target, Leads graph.successors one target → target = other →
      graph.HasEdge one other := by
    intro target leads
    induction leads with
    | refl => exact fun same => absurd same different
    | @tail middle target there step ih =>
      rintro rfl
      have inside := (whole one (by simp) middle).mpr ⟨there, .head step joined.2⟩
      rcases List.mem_pair.mp inside with rfl | rfl
      · exact hasEdge_of_mem_successors step
      · exact ih rfl
  simpa [Follows] using enters other joined.1 rfl

end Group

end Lineage.Graph
