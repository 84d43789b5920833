import Lineage.Proofs.Graph.Visit
import Mathlib.Data.List.Perm.Subperm

/-! The groups that are found are the strongly connected components with at least two members. -/

namespace Lineage.Graph

/-- An arc joins two nodes when some edge goes from the first to the second. Edges with a missing
end give no arc. -/
def Arc (graph : Graph) (one other : String) : Prop :=
  one ∈ graph.nodes.names ∧ other ∈ graph.nodes.names ∧
    ∃ edge ∈ graph.edges, edge.source = one ∧ edge.target = other

/-- One name reaches another when a directed path of arcs, perhaps an empty one, goes from the first
to the second. -/
def Reaches (graph : Graph) : String → String → Prop :=
  Relation.ReflTransGen graph.Arc

/-- A name lies on a circle with another one when each of the two reaches the other. -/
def OnCircle (graph : Graph) (name : String) : Prop :=
  ∃ other, other ≠ name ∧ graph.Reaches name other ∧ graph.Reaches other name

/-- The successors of a name are the ends of the arcs that begin at it. -/
theorem mem_successors (graph : Graph) (one other : String) :
    other ∈ graph.successors one ↔ graph.Arc one other := by
  simp only [successors, Arc, List.mem_map, List.mem_filter, Bool.and_eq_true, beq_iff_eq,
    Table.contains_iff]
  -- Both sides say the same of one edge, in another order.
  constructor
  · rintro ⟨edge, ⟨listed, ⟨rfl, source⟩, target⟩, rfl⟩
    exact ⟨source, target, edge, listed, rfl, rfl⟩
  · rintro ⟨source, target, edge, listed, rfl, rfl⟩
    exact ⟨edge, ⟨listed, ⟨rfl, source⟩, target⟩, rfl⟩

/-- Edges that lead out of the graph are no steps. -/
theorem successors_within (graph : Graph) (one : String) :
    ∀ other ∈ graph.successors one, other ∈ graph.nodes.names :=
  fun other step => ((graph.mem_successors one other).mp step).2.1

/-- No more names than there are nodes are still to be met. -/
theorem unmet_names_le (graph : Graph) (search : Search) :
    search.unmet graph.nodes.names ≤ graph.nodes.entries.length := by
  have bound : search.unmet graph.nodes.names ≤ graph.nodes.names.length := List.countP_le_length
  simpa only [Table.names, List.length_map] using bound

/-- Leading along successors is reaching along arcs. -/
theorem leads_successors (graph : Graph) : Leads graph.successors = graph.Reaches := by
  have same : (fun one other => other ∈ graph.successors one) = graph.Arc :=
    funext fun one => funext fun other => propext (graph.mem_successors one other)
  unfold Leads Reaches
  rw [same]

/-- Before anything is met there are no groups to speak of. -/
theorem Grouped.start {next : String → List String} : Grouped next Search.start where
  members group found := by simp [Search.start] at found
  whole group found := by simp [Search.start] at found
  size group found := by simp [Search.start] at found
  apart := List.Pairwise.nil
  complete name other settled := by simp [Search.Settled, Search.Met, Search.start] at settled
  falling group found := by simp [Search.start] at found
  onward := List.Pairwise.nil

/-- With no visit under way nothing is left on the stack. -/
theorem Sound.stack_nil {next : String → List String} {search : Search}
    (sound : Sound next [] search) :
    search.stack = [] := by
  refine List.eq_nil_iff_forall_not_mem.mpr fun name inside => ?_
  -- Whatever is on the stack leads down to an open visit, and there is none.
  obtain ⟨ancestor, isOpen, _⟩ := sound.down name inside
  exact absurd isOpen List.not_mem_nil

/-- A root is visited unless it was met on the way from an earlier one. -/
def visitRoot (graph : Graph) (search : Search) (name : String) : Search :=
  if (search.met.lookup name).isSome then search
  else (visit graph.successors graph.nodes.entries.length name search).2

/-- The groups are those of a search that takes the nodes as roots in order. -/
theorem cycles_eq (graph : Graph) :
    graph.cycles = (graph.nodes.names.foldl graph.visitRoot .start).groups :=
  rfl

/-- Between two roots no visit is under way, and the groups found so far are in order. -/
def Resting (graph : Graph) (search : Search) : Prop :=
  Sound graph.successors [] search ∧ Grouped graph.successors search

/-- Visiting a root keeps what is known, and meets the root. -/
theorem visitRoot_resting {graph : Graph} {search : Search} {name : String}
    (listed : name ∈ graph.nodes.names) (resting : graph.Resting search) :
    graph.Resting (graph.visitRoot search name) ∧ search.Continues (graph.visitRoot search name) ∧
      (graph.visitRoot search name).Met name := by
  unfold visitRoot
  by_cases known : (search.met.lookup name).isSome
  · -- A root that was met on the way from an earlier one needs no visit.
    rw [if_pos known]
    exact ⟨resting, fun _ _ => rfl, known⟩
  · -- The depth suffices for as many names as there are nodes.
    obtain ⟨left, visited⟩ :=
      visit_visited graph.successors_within graph.nodes.entries.length [] search name resting.1
      resting.2 listed known (by simp) (graph.unmet_names_le search)
    rw [if_neg known]
    exact ⟨⟨visited.sound, visited.grouped⟩, visited.continues, visited.met⟩

/-- Visiting root after root meets all of them. -/
theorem foldl_visitRoot_resting (graph : Graph) :
    ∀ (roots : List String) (search : Search), (∀ name ∈ roots, name ∈ graph.nodes.names) →
      graph.Resting search →
      graph.Resting (roots.foldl graph.visitRoot search) ∧
        search.Continues (roots.foldl graph.visitRoot search) ∧
        ∀ name ∈ roots, (roots.foldl graph.visitRoot search).Met name := by
  intro roots
  induction roots with
  | nil =>
    intro search _ resting
    exact ⟨resting, fun _ _ => rfl, by simp⟩
  | cons root roots ih =>
    intro search listed resting
    -- The first root is met by its own visit, and later visits do not forget it.
    obtain ⟨rests, continues, met⟩ := visitRoot_resting (listed root List.mem_cons_self) resting
    obtain ⟨restsLater, continuesLater, metLater⟩ :=
      ih _ (fun name further => listed name (List.mem_cons_of_mem root further)) rests
    refine ⟨restsLater, continues.trans continuesLater, fun name member => ?_⟩
    rcases List.mem_cons.mp member with same | further
    · rw [same]
      exact continuesLater.met met
    · exact metLater name further

/-- A name that reaches another one is a node. -/
theorem Reaches.node {graph : Graph} {name other : String} (reaches : graph.Reaches name other)
    (different : other ≠ name) : name ∈ graph.nodes.names := by
  rcases Relation.ReflTransGen.cases_head reaches with same | ⟨middle, arc, _⟩
  · exact absurd same.symm different
  · exact arc.1

/-- Among lists without common members a name that is in some list is in exactly one. -/
theorem countP_mem_eq_one {name : String} :
    ∀ {groups : List (List String)}, groups.Pairwise List.Disjoint →
      (∃ group ∈ groups, name ∈ group) →
      groups.countP (fun group => name ∈ group) = 1 := by
  intro groups
  induction groups with
  | nil =>
    rintro _ ⟨group, found, _⟩
    exact absurd found List.not_mem_nil
  | cons group groups ih =>
    intro apart found
    obtain ⟨fromFirst, apart⟩ := List.pairwise_cons.mp apart
    rw [List.countP_cons]
    by_cases inside : name ∈ group
    · -- The first list has the name, so none of the others does.
      have none : groups.countP (fun group => name ∈ group) = 0 := by
        rw [List.countP_eq_zero]
        intro other listed within
        exact fromFirst other listed inside (by simpa using within)
      simp [inside, none]
    · -- The first list lacks the name, so one of the others has it.
      have later : ∃ group ∈ groups, name ∈ group := by
        obtain ⟨other, listed, within⟩ := found
        rcases List.mem_cons.mp listed with same | further
        · exact absurd (same ▸ within) inside
        · exact ⟨other, further, within⟩
      simp [inside, ih apart later]

/-- The groups are exactly the strongly connected components with at least two members: a group
holds all the names that belong together with any of its members, two different names share a group
exactly when each reaches the other, and a name is in exactly one group if it lies on a circle with
another name, and in none otherwise. -/
theorem cycles_components (graph : Graph) :
    (∀ group ∈ graph.cycles, group.Nodup ∧ 2 ≤ group.length ∧
      (∀ name ∈ group, name ∈ graph.nodes.names) ∧
      ∀ name ∈ group, ∀ other, other ∈ group ↔ graph.Reaches name other ∧
        graph.Reaches other name) ∧
    (∀ one other, one ≠ other →
      ((∃ group ∈ graph.cycles, one ∈ group ∧ other ∈ group) ↔
        graph.Reaches one other ∧ graph.Reaches other one)) ∧
    (∀ name, graph.OnCircle name → graph.cycles.countP (fun group => name ∈ group) = 1) ∧
    (∀ name, ¬ graph.OnCircle name → graph.cycles.countP (fun group => name ∈ group) = 0) := by
  -- Once every node was taken as a root, the search rests and has met all of them.
  obtain ⟨⟨sound, grouped⟩, _, met⟩ :=
    foldl_visitRoot_resting graph graph.nodes.names .start (fun name listed => listed)
      ⟨.start, .start⟩
  rw [cycles_eq]
  generalize graph.nodes.names.foldl graph.visitRoot .start = search at sound grouped met ⊢
  have whole : ∀ group ∈ search.groups, ∀ name ∈ group, ∀ other,
      other ∈ group ↔ graph.Reaches name other ∧ graph.Reaches other name := by
    intro group found name inside other
    rw [← graph.leads_successors]
    exact grouped.whole group found name inside other
  -- Every node has left the stack by now, so each that has company is in a group.
  have complete : ∀ name other, other ≠ name → graph.Reaches name other → graph.Reaches other name →
      ∃ group ∈ search.groups, name ∈ group := by
    intro name other different there back
    have settled : search.Settled name :=
      ⟨met name (there.node different), by simp [sound.stack_nil]⟩
    rw [← graph.leads_successors] at there back
    exact grouped.complete name other settled different ⟨there, back⟩
  -- A group has two different members, so each member has company.
  have company : ∀ group ∈ search.groups, ∀ name ∈ group, graph.OnCircle name := by
    intro group found name inside
    obtain ⟨distinct, large⟩ := grouped.size group found
    have other : ∃ other ∈ group, other ≠ name := by
      -- Otherwise the group would have no more than one member.
      by_contra alone
      push Not at alone
      have single : group ⊆ [name] := fun other within => by simp [alone other within]
      have small := (distinct.subperm single).length_le
      simp only [List.length_singleton] at small
      omega
    obtain ⟨other, within, different⟩ := other
    exact ⟨other, different, (whole group found name inside other).mp within⟩
  refine ⟨?_, ?_, ?_, ?_⟩
  · -- A member reaches another one, and so it is a node.
    intro group found
    obtain ⟨distinct, large⟩ := grouped.size group found
    refine ⟨distinct, large, fun name inside => ?_, whole group found⟩
    obtain ⟨other, different, there, _⟩ := company group found name inside
    exact there.node different
  · intro one other different
    constructor
    · rintro ⟨group, found, oneIn, otherIn⟩
      exact (whole group found one oneIn other).mp otherIn
    · -- Two names that reach each other are in the group of the first.
      rintro ⟨there, back⟩
      obtain ⟨group, found, inside⟩ := complete one other different.symm there back
      exact ⟨group, found, inside, (whole group found one inside other).mpr ⟨there, back⟩⟩
  · -- Groups have no common members, so no name is in two of them.
    rintro name ⟨other, different, there, back⟩
    exact countP_mem_eq_one grouped.apart (complete name other different there back)
  · intro name alone
    rw [List.countP_eq_zero]
    intro group found inside
    exact alone (company group found name (by simpa using inside))

end Lineage.Graph
