import Lineage.Proofs.Graph.Cycle

/-! The order of groups: a group comes before those that reach it, and within a group the names come
in the reverse of the order in which a depth-first search visits them. -/

namespace Lineage.Graph

/-- A depth-first search with the names that it has still to take, in order, those that it has
visited so far, and all that it visits in the end. -/
inductive Discovers (next : String → List String) :
    List String → List String → List String → Prop where
  | done {seen : List String} : Discovers next [] seen seen
  /-- A name that was visited before is passed over. -/
  | again {name : String} {todo seen order : List String} : name ∈ seen →
    Discovers next todo seen order →
    Discovers next (name :: todo) seen order
  /-- Behind a new name its successors come before all that is still to be taken. -/
  | visit {name : String} {todo seen order : List String} : name ∉ seen →
    Discovers next (next name ++ todo) (seen ++ [name]) order →
      Discovers next (name :: todo) seen order

variable {vertices : List String} {search : Search}

namespace Discovers

variable {next : String → List String} {todo seen order : List String}

/-- There is only one way for the search to go. -/
theorem unique {other : List String} (one : Discovers next todo seen order)
    (two : Discovers next todo seen other) :
    order = other := by
  -- Whether a name was met before decides which rule applies, so both go the same way.
  induction one with
  | done => cases two; rfl
  | again known _ ih =>
    cases two with
    | again _ further => exact ih further
    | visit new _ => exact absurd known new
  | visit new _ ih =>
    cases two with
    | again known _ => exact absurd known new
    | visit _ further => exact ih further

/-- What was visited stays visited. -/
theorem subset (discovers : Discovers next todo seen order) : seen ⊆ order := by
  induction discovers with
  | done => exact fun _ inside => inside
  | again _ _ ih => exact ih
  | visit _ _ ih => exact fun name inside => ih (List.mem_append_left _ inside)

/-- No name is visited twice. -/
theorem nodup (discovers : Discovers next todo seen order) (distinct : seen.Nodup) :
    order.Nodup := by
  induction discovers with
  | done => exact distinct
  | again _ _ ih => exact ih distinct
  | visit new _ ih =>
    refine ih ?_
    rw [← List.concat_eq_append]
    exact distinct.concat new

/-- Every name that is to be taken is visited. -/
theorem todo_subset (discovers : Discovers next todo seen order) : todo ⊆ order := by
  -- The name at the front is met before or now, and those behind it later.
  induction discovers with
  | done => exact List.nil_subset _
  | again known further ih => exact List.cons_subset.mpr ⟨further.subset known, ih⟩
  | visit _ further ih =>
    refine List.cons_subset.mpr ⟨further.subset (by simp), fun name inside => ih ?_⟩
    exact List.mem_append_right _ inside

/-- Nothing is visited but what is to be taken and what is stepped to. -/
theorem subset_of_closed (within : ∀ one, ∀ other ∈ next one, other ∈ vertices)
    (discovers : Discovers next todo seen order) (todoIn : todo ⊆ vertices)
    (seenIn : seen ⊆ vertices) : order ⊆ vertices := by
  -- What is still to be met are names from before and successors of names.
  induction discovers with
  | done => exact seenIn
  | again _ _ ih => exact ih (List.cons_subset.mp todoIn).2 seenIn
  | @visit name _ _ _ _ _ ih =>
    obtain ⟨nameIn, todoIn⟩ := List.cons_subset.mp todoIn
    refine ih (List.append_subset.mpr ⟨within name, todoIn⟩) (List.append_subset.mpr ⟨seenIn, ?_⟩)
    exact List.cons_subset.mpr ⟨nameIn, List.nil_subset _⟩

/-- Names that are to be taken first can be taken by a search of their own. -/
theorem append {more middle : List String} (first : Discovers next todo seen middle)
    (second : Discovers next more middle order) : Discovers next (todo ++ more) seen order := by
  -- The first part runs as it did, with the second part waiting behind it.
  induction first with
  | done => exact second
  | again known _ ih => exact .again known (ih second)
  | visit new _ ih =>
    have further := ih second
    rw [List.append_assoc] at further
    exact .visit new further

end Discovers

namespace Search

/-- The names met so far in the order in which they were met. -/
def discovered (search : Search) : List String :=
  (search.met.map Prod.fst).reverse

theorem met_iff_mem_discovered (search : Search) (name : String) :
    search.Met name ↔ name ∈ search.discovered := by
  simp [Met, discovered]

theorem discovered_meet (search : Search) (name : String) :
    (search.meet name).discovered = search.discovered ++ [name] := by
  simp [discovered, meet]

/-- The numbers are given in order, from zero on. -/
def Numbered (search : Search) : Prop :=
  search.met.map Prod.snd = (List.range search.met.length).reverse

theorem Numbered.meet (numbered : search.Numbered) (name : String) :
    (search.meet name).Numbered := by
  unfold Numbered at numbered ⊢
  simp [Search.meet, List.range_succ, numbered]

/-- The number of a name is its place among the names discovered. -/
theorem Numbered.number_eq (numbered : search.Numbered) (distinct : search.discovered.Nodup)
    {name : String} (met : search.Met name) :
    search.number name = search.discovered.idxOf name := by
  -- Along the names met, the latest first: its number is how many were met before it.
  have general : ∀ met : List (String × Nat), met.map Prod.snd = (List.range met.length).reverse →
      (met.map Prod.fst).reverse.Nodup → name ∈ (met.map Prod.fst).reverse →
      (met.lookup name).getD 0 = (met.map Prod.fst).reverse.idxOf name := by
    intro met
    induction met with
    | nil => simp
    | cons entry met ih =>
      obtain ⟨latest, number⟩ := entry
      intro numbered distinct inside
      simp only [List.map_cons, List.length_cons, List.range_succ, List.reverse_append,
        List.reverse_singleton, List.singleton_append, List.cons.injEq] at numbered
      obtain ⟨rfl, numbered⟩ := numbered
      rw [List.map_cons, List.reverse_cons] at distinct inside ⊢
      obtain ⟨distinct, _, apart⟩ := List.nodup_append.mp distinct
      by_cases same : name = latest
      · subst same
        have absent : name ∉ (met.map Prod.fst).reverse :=
          fun earlier => apart name earlier name (by simp) rfl
        rw [List.idxOf_append_of_notMem absent]
        simp
      · have earlier : name ∈ (met.map Prod.fst).reverse := by simpa [same] using inside
        rw [List.idxOf_append_of_mem earlier, ← ih numbered distinct earlier, List.lookup_cons,
          beq_false_of_ne same]
  exact general search.met numbered distinct ((search.met_iff_mem_discovered name).mp met)

end Search

section Visiting

variable {next : String → List String}

/-- A name is visited unless it was met before. -/
def visitNew (next : String → List String) (depth : Nat) (search : Search) (name : String) :
    Search :=
  if (search.met.lookup name).isSome then search else (visit next depth name search).2

/-- Which names are met does not depend on the least number that is reached. -/
theorem foldl_explore (depth : Nat) (names : List String) (state : Nat × Search) :
    (names.foldl (explore next depth) state).2 = names.foldl (visitNew next depth) state.2 := by
  -- The least number is carried along and decides nothing about which names are visited.
  induction names generalizing state with
  | nil => rfl
  | cons name names ih =>
    rw [List.foldl_cons, List.foldl_cons, ih]
    congr 1
    cases known : state.2.met.lookup name <;> simp [explore, visitNew, known]

/-- A visit meets the name and then all that can be reached through its successors in order. -/
theorem met_visit (depth : Nat) (name : String) (before : Search) :
    (visit next (depth + 1) name before).2.met =
      ((next name).foldl (visitNew next depth) (before.meet name)).met := by
  have close : ∀ (search : Search), (search.close name).met = search.met := fun _ => rfl
  rw [visit_succ, ← foldl_explore depth _ (before.met.length, before.meet name)]
  dsimp only
  split
  · exact close _
  · rfl

/-- Visits in a row keep the names numbered in their order. -/
theorem numbered_foldl {depth : Nat}
    (step : ∀ name (search : Search), search.Numbered → (visit next depth name search).2.Numbered)
    (names : List String) (numbered : search.Numbered) :
    (names.foldl (visitNew next depth) search).Numbered := by
  induction names generalizing search with
  | nil => exact numbered
  | cons name names ih =>
    refine ih ?_
    unfold visitNew
    split
    · exact numbered
    · exact step name search numbered

/-- A visit keeps the names numbered in their order. -/
theorem numbered_visit (depth : Nat) (name : String) (numbered : search.Numbered) :
    (visit next depth name search).2.Numbered := by
  -- Along the depth: the name itself is numbered first, then those behind it.
  induction depth generalizing name search with
  | zero => exact numbered
  | succ depth ih =>
    have later := numbered_foldl (fun name _ => ih name) (next name) (numbered.meet name)
    unfold Search.Numbered at later ⊢
    rwa [met_visit]

/-- Names are discovered one after the other, as long as each visit has enough depth for what is
still to be met. -/
theorem discovers_foldl {depth : Nat}
    (step : ∀ name (search : Search), name ∈ vertices → ¬ search.Met name →
      search.unmet vertices ≤ depth →
      Discovers next [name] search.discovered (visit next depth name search).2.discovered)
    (names : List String) (listed : names ⊆ vertices) (enough : search.unmet vertices ≤ depth) :
    Discovers next names search.discovered
      (names.foldl (visitNew next depth) search).discovered := by
  induction names generalizing search with
  | nil => exact .done
  | cons name names ih =>
    obtain ⟨here, listed⟩ := List.cons_subset.mp listed
    rw [List.foldl_cons]
    by_cases met : search.Met name
    · -- A name that was met before leaves the search as it is.
      have same : visitNew next depth search name = search := if_pos met
      rw [same]
      exact .again ((search.met_iff_mem_discovered name).mp met) (ih listed enough)
    · have new : visitNew next depth search name = (visit next depth name search).2 := if_neg met
      have first := step name search here met enough
      have stay : ∀ other, search.Met other → (visit next depth name search).2.Met other := by
        intro other known
        rw [Search.met_iff_mem_discovered] at known ⊢
        exact first.subset known
      rw [new]
      exact first.append (ih listed (Nat.le_trans (Search.unmet_le_of_met stay vertices) enough))

/-- A visit with enough depth discovers names as a depth-first search does. -/
theorem discovers_visit (within : ∀ one, ∀ other ∈ next one, other ∈ vertices) (depth : Nat) :
    ∀ name (search : Search), name ∈ vertices → ¬ search.Met name → search.unmet vertices ≤ depth →
      Discovers next [name] search.discovered (visit next depth name search).2.discovered := by
  induction depth with
  | zero =>
    intro name search listed fresh enough
    -- The name itself is still to be met, so some depth is left.
    have := Search.unmet_meet_lt listed fresh
    omega
  | succ depth ih =>
    intro name search listed fresh enough
    have fewer := Search.unmet_meet_lt listed fresh
    have room : (search.meet name).unmet vertices ≤ depth := by omega
    have further := discovers_foldl ih (next name) (within name) room
    have new : name ∉ search.discovered :=
      fun inside => fresh ((search.met_iff_mem_discovered name).mpr inside)
    refine .visit new ?_
    rw [List.append_nil, ← search.discovered_meet]
    unfold Search.discovered at further ⊢
    rwa [met_visit]

end Visiting

/-- The search for groups visits the nodes as a depth-first search does that takes them in order. -/
theorem discovers_roots (graph : Graph) :
    Discovers graph.successors graph.nodes.names []
      (graph.nodes.names.foldl graph.visitRoot .start).discovered :=
  -- The search begins with no name met, and there is room for all nodes.
  discovers_foldl (discovers_visit graph.successors_within _) graph.nodes.names
    (fun _ listed => listed) (graph.unmet_names_le .start)

theorem numbered_roots (graph : Graph) :
    (graph.nodes.names.foldl graph.visitRoot .start).Numbered :=
  numbered_foldl (fun name _ => numbered_visit _ name) graph.nodes.names rfl

/-- Within a group the names come in falling order of their first visits. -/
theorem cycles_falling (graph : Graph) {order group : List String}
    (isOrder : Discovers graph.successors graph.nodes.names [] order)
    (found : group ∈ graph.cycles) :
    group.Pairwise fun one other => order.idxOf other < order.idxOf one := by
  obtain ⟨⟨_, grouped⟩, _, _⟩ :=
    foldl_visitRoot_resting graph graph.nodes.names .start (fun name listed => listed)
      ⟨.start, .start⟩
  have numbered := graph.numbered_roots
  rw [isOrder.unique graph.discovers_roots]
  have distinct := graph.discovers_roots.nodup List.nodup_nil
  rw [cycles_eq] at found
  generalize graph.nodes.names.foldl graph.visitRoot .start =
    search at grouped distinct numbered found ⊢
  -- The numbers of the members are their places in the order of discovery.
  have number : ∀ name ∈ group, search.number name = search.discovered.idxOf name :=
    fun name inside =>
    numbered.number_eq distinct (grouped.members group found name inside).1
  refine (grouped.falling group found).imp_of_mem fun {above below} aboveIn belowIn lower => ?_
  rwa [number above aboveIn, number below belowIn] at lower

/-- If nothing in a row is related to what comes later, related things come in the reverse order. -/
theorem idxOf_lt_of_pairwise {α : Type} [BEq α] [LawfulBEq α] {related : α → α → Prop}
    {row : List α} (never : row.Pairwise fun earlier later => ¬ related earlier later)
    {one other : α} (oneIn : one ∈ row) (otherIn : other ∈ row) (different : one ≠ other)
    (holds : related one other) :
    row.idxOf other < row.idxOf one := by
  -- Were the one not behind the other, the list would not allow them to be related.
  by_contra behind
  have apart : row.idxOf one ≠ row.idxOf other :=
    fun same => different ((List.idxOf_inj oneIn).mp same)
  have before : row.idxOf one < row.idxOf other := by omega
  have unrelated := List.pairwise_iff_getElem.mp never _ _ (List.idxOf_lt_length_of_mem oneIn)
    (List.idxOf_lt_length_of_mem otherIn) before
  rw [List.getElem_idxOf, List.getElem_idxOf] at unrelated
  exact unrelated holds

/-- The last of falling ranks is the lowest. -/
theorem exists_getLast?_of_falling {rank : String → Nat} {group : List String}
    (nonempty : group ≠ []) (falling : group.Pairwise fun one other => rank other < rank one) :
    ∃ last, group.getLast? = some last ∧ ∀ name ∈ group, rank last ≤ rank name := by
  -- The last member follows all others, and each of them has a greater rank.
  obtain ⟨front, last, rfl⟩ := (List.eq_nil_or_concat group).resolve_left nonempty
  rw [List.concat_eq_append] at falling ⊢
  refine ⟨last, List.getLast?_concat, fun name inside => ?_⟩
  rcases List.mem_append.mp inside with inFront | isLast
  · exact Nat.le_of_lt ((List.pairwise_append.mp falling).2.2 name inFront last (by simp))
  · exact Nat.le_of_eq (by rw [List.mem_singleton.mp isLast])

/-- Groups come in reverse topological order: of two groups the one that is reached from the other
comes first. Within a group the names come in falling order of their first visits by the depth-first
search that takes the nodes in order and the successors of each in the order of the edges. The last
name is therefore the one visited first. -/
theorem cycles_ordered (graph : Graph) :
    (∀ one ∈ graph.cycles, ∀ other ∈ graph.cycles, one ≠ other →
      (∃ name ∈ one, ∃ target ∈ other, graph.Reaches name target) →
      graph.cycles.idxOf other < graph.cycles.idxOf one) ∧
    ∃ order, (∀ visits, Discovers graph.successors graph.nodes.names [] visits ↔ visits = order) ∧
      order.Nodup ∧ (∀ name, name ∈ order ↔ name ∈ graph.nodes.names) ∧
      ∀ group ∈ graph.cycles, group.Pairwise
        (fun one other => order.idxOf other < order.idxOf one) ∧
        ∃ first, group.getLast? = some first ∧
          ∀ name ∈ group, order.idxOf first ≤ order.idxOf name := by
  obtain ⟨⟨_, grouped⟩, _, _⟩ :=
    foldl_visitRoot_resting graph graph.nodes.names .start (fun name listed => listed)
      ⟨.start, .start⟩
  have discovers := graph.discovers_roots
  have falls := fun group (found : group ∈ graph.cycles) => graph.cycles_falling discovers found
  rw [cycles_eq] at falls ⊢
  generalize graph.nodes.names.foldl graph.visitRoot .start = search at grouped discovers falls ⊢
  have distinct : search.discovered.Nodup := discovers.nodup List.nodup_nil
  constructor
  · intro one oneIn other otherIn different reached
    have never : search.groups.Pairwise fun earlier later =>
        ¬ ∃ name ∈ earlier, ∃ target ∈ later, graph.Reaches name target := by
      -- A group leads only to groups that were found before it.
      refine grouped.onward.imp fun {earlier later} apart reached => ?_
      obtain ⟨name, inEarlier, target, inLater, reaches⟩ := reached
      rw [← graph.leads_successors] at reaches
      exact apart name inEarlier target inLater reaches
    exact idxOf_lt_of_pairwise never oneIn otherIn different reached
  · refine ⟨search.discovered, fun visits => ⟨fun other => other.unique discovers, ?_⟩,
      distinct, ?_, ?_⟩
    · rintro rfl
      exact discovers
    · -- All nodes are taken, and edges lead to nodes only.
      have within : ∀ one, ∀ other ∈ graph.successors one, other ∈ graph.nodes.names :=
        fun one other step =>
        ((graph.mem_successors one other).mp step).2.1
      exact fun name => ⟨fun inside => discovers.subset_of_closed within (fun _ listed => listed)
        (List.nil_subset _) inside, fun listed => discovers.todo_subset listed⟩
    · intro group found
      have falling := falls group found
      have nonempty : group ≠ [] := by
        have large := (grouped.size group found).2
        rintro rfl
        cases large
      exact ⟨falling, exists_getLast?_of_falling nonempty falling⟩

end Lineage.Graph
