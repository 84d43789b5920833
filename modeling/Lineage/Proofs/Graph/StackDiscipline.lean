import Lineage.Proofs.Graph.Books

/-! The discipline of the stack: every visit leaves on it what was there and only new names above,
closing a group always finds the name it looks for, and in the end each node was visited once and
taken off once. -/

namespace Lineage.Graph

/-- What a visit on record keeps to. -/
structure Call.Disciplined (next : String → List String) (call : Call) : Prop where
  /-- The name has no number when its visit begins. -/
  fresh : call.before.index.get? call.name = none
  onStack : call.before.onStack = call.before.stack.toFinset
  distinct : call.before.stack.Nodup
  /-- What lies on the stack afterwards above what was there before are names met during the
  visit. -/
  returns : ∃ left, call.after.stack = left ++ call.before.stack ∧
    ∀ name ∈ left, call.before.index.get? name = none ∧ (call.after.index.get? name).isSome
  /-- A name that closes a group is itself the last one to be taken off, and the stack is as it
  was. -/
  closes : call.after.lowlink.get? call.name = call.after.index.get? call.name →
    call.taken.getLast? = some call.name ∧ call.after.stack = call.before.stack
  /-- A name that closes no group takes nothing off. -/
  leaves : call.after.lowlink.get? call.name ≠ call.after.index.get? call.name → call.taken = []
  /-- The visit does what a visit of the search without books does. -/
  agrees : ∃ depth search, call.before.Agrees search ∧
    call.after.Agrees (visit next depth call.name search).2

/-- The names on the stack are known, and none is there twice. -/
structure Search.Stacked (search : Search) : Prop where
  distinct : search.stack.Nodup
  met : ∀ name ∈ search.stack, search.Met name

/-- What lies between two states of a search with the visits made in the meantime. -/
structure Spans (next : String → List String) (calls : List Call) (earlier later : Search) :
    Prop where
  stacked : later.Stacked
  continues : earlier.Continues later
  left : ∃ left, later.stack = left ++ earlier.stack ∧ ∀ name ∈ left, ¬ earlier.Met name
  /-- Each visit has met one more name. -/
  visited : (earlier.discovered ++ calls.map Call.name).Perm later.discovered
  /-- What was on the stack or was met is on the stack or was taken off. -/
  popped : (earlier.stack ++ calls.map Call.name).Perm (later.stack ++ calls.flatMap Call.taken)
  disciplined : ∀ call ∈ calls, call.Disciplined next

variable {next : String → List String} {calls : List Call} {before after start explored : Books}
  {search earlier later : Search} {name successor : String} {least : Nat} {state : Nat × Search}

namespace Spans

/-- Where nothing is visited nothing changes. -/
theorem refl (stacked : search.Stacked) : Spans next [] search search where
  stacked := stacked
  continues _ _ := rfl
  left := ⟨[], rfl, fun _ inside => absurd inside List.not_mem_nil⟩
  visited := by simp
  popped := by simp
  disciplined _ inside := absurd inside List.not_mem_nil

/-- Two stretches of a search in a row make one. -/
theorem trans {further : List Call} {latest : Search} (one : Spans next calls earlier later)
    (two : Spans next further later latest) : Spans next (calls ++ further) earlier latest where
  stacked := two.stacked
  continues := one.continues.trans two.continues
  left := by
    obtain ⟨low, lowStack, lowNew⟩ := one.left
    obtain ⟨high, highStack, highNew⟩ := two.left
    refine ⟨high ++ low, by rw [highStack, lowStack, List.append_assoc], fun name inside => ?_⟩
    rcases List.mem_append.mp inside with inHigh | inLow
    · -- What was not known in the middle was not known at first.
      exact fun known => highNew name inHigh (one.continues.met known)
    · exact lowNew name inLow
  visited := by
    rw [List.map_append, ← List.append_assoc]
    exact (one.visited.append_right _).trans two.visited
  popped := by
    rw [List.perm_iff_count]
    intro member
    have first := one.popped.count_eq member
    have second := two.popped.count_eq member
    simp only [List.count_append, List.map_append, List.flatMap_append] at first second ⊢
    omega
  disciplined call inside :=
    (List.mem_append.mp inside).elim (one.disciplined call) (two.disciplined call)

end Spans

/-- How far the visit of a name has come: the books agree with the search, and they have the least
number that is known to be reachable from the name. Of the names known at first no other has a new
least number. -/
structure Advances (next : String → List String) (name : String) (calls : List Call)
    (before after : Books) (earlier : Search) (state : Nat × Search) : Prop where
  spans : Spans next calls earlier state.2
  agrees : after.Agrees state.2
  lowest : after.lowlink.get? name = some state.1
  frame : ∀ other, other ≠ name → earlier.Met other →
    after.lowlink.get? other = before.lowlink.get? other

/-- How the visit of a name can end once all successors are dealt with: it takes names off the stack
down to its own if no lesser number is reachable, and none otherwise. -/
structure Ends (name : String) (search : Search) (state : Nat × Search) (later : Search)
    (taken : List String) : Prop where
  met : later.met = state.2.met
  stack : state.2.stack = taken ++ later.stack
  left : ∃ left, later.stack = left ++ search.stack ∧ ∀ other ∈ left, ¬ search.Met other
  closes : state.1 = search.met.length → taken.getLast? = some name ∧ later.stack = search.stack
  leaves : state.1 ≠ search.met.length → taken = []

namespace Ends

variable {above : List String} (stack : state.2.stack = above ++ name :: search.stack)

include stack

/-- The name and all above it are taken off. -/
theorem close (own : state.1 = search.met.length)
    (closed : (state.2.close name).stack = search.stack) :
    Ends name search state (state.2.close name) (above ++ [name]) where
  -- The name and all above it leave the stack, which is then what it was before.
  met := rfl
  stack := by rw [closed, stack, List.append_cons]
  left := ⟨[], closed, fun _ inside => absurd inside List.not_mem_nil⟩
  closes _ := ⟨List.getLast?_concat, closed⟩
  leaves other := absurd own other

/-- All stays for a later close. -/
theorem stay (other : state.1 ≠ search.met.length) (fresh : ¬ search.Met name)
    (new : ∀ one ∈ above, ¬ search.Met one) :
    Ends name search state state.2 [] where
  -- What stays on the stack is the name and what was met behind it.
  met := rfl
  stack := rfl
  left := by
    refine ⟨above ++ [name], by rw [stack, List.append_cons], fun one inside => ?_⟩
    rcases List.mem_append.mp inside with inAbove | isName
    · exact new one inAbove
    · rw [List.mem_singleton.mp isName]
      exact fresh
  closes own := absurd own other
  leaves _ := rfl

end Ends

theorem Books.lowest_of_get? {books : Books} (known : books.lowlink.get? name = some least) :
    books.lowest name = .ok least := by
  rw [Books.lowest, known]
  rfl

/-- A number that is known can be lowered. -/
theorem Books.lower_of_get? {books : Books} (known : books.lowlink.get? name = some least)
    (number : Nat) :
    books.lower name number = .ok
      { books with lowlink := books.lowlink.put name (min least number) } := by
  rw [Books.lower, Books.lowest_of_get? known]
  rfl

variable {depth : Nat} {visitWith : String → Books → Except SearchFault (List Call × Books)}
  {vertices : List String}

namespace Advances

/-- A number that is reachable counts for the visited name and changes nothing else. -/
theorem lowered (advances : Advances next name calls start explored earlier (least, search))
    (number : Nat) :
    ∃ lowered, explored.lower name number = .ok lowered ∧
      Advances next name calls start lowered earlier (min least number, search) := by
  refine ⟨_, Books.lower_of_get? advances.lowest number, advances.spans,
    advances.agrees.setLowlink _, ?_, ?_⟩
  · -- Only the number of this name is written.
    rw [Table.get?_put, if_pos rfl]
  · intro other different known
    rw [Table.get?_put, if_neg different]
    exact advances.frame other different known

/-- The visit of a successor goes on from where the visit of the name has come to. -/
theorem deeper {inner : List Call} {reached : Nat × Search}
    (advances : Advances next name calls start explored earlier (least, search))
    (known : earlier.Met name) (fresh : ¬ search.Met successor)
    (visited : Advances next successor inner explored after search reached) :
    Advances next name (calls ++ inner) start after earlier (least, reached.2) where
  spans := advances.spans.trans visited.spans
  agrees := visited.agrees
  -- The visit of another name does not touch the numbers that were known before.
  lowest := by
    have met := advances.spans.continues.met known
    rw [visited.frame name (fun same => fresh (same ▸ met)) met]
    exact advances.lowest
  frame other different knownOther := by
    have met := advances.spans.continues.met knownOther
    rw [visited.frame other (fun same => fresh (same ▸ met)) met]
    exact advances.frame other different knownOther

/-- One successor is dealt with as the search without books deals with it. -/
theorem follow (advances : Advances next name calls start explored earlier (least, search))
    (known : earlier.Met name) (step :
      ¬ search.Met successor → ∃ inner after, visitWith successor explored = .ok (inner, after) ∧
      Advances next successor inner explored after search (visit next depth successor search)) :
    ∃ calls' explored', Books.follow visitWith name (calls, explored) successor = .ok
      (calls', explored') ∧
      Advances next name calls' start explored' earlier
        (explore next depth (least, search) successor) := by
  unfold Books.follow explore
  dsimp only
  rw [advances.agrees.index]
  cases found : search.met.lookup successor with
  | none =>
    -- A new successor is visited, and the least number that it reaches counts.
    have fresh : ¬ search.Met successor := by simp [Search.Met, found]
    obtain ⟨inner, after, visited, inside⟩ := step fresh
    obtain ⟨lowered, lowers, further⟩ :=
      (advances.deeper known fresh inside).lowered (visit next depth successor search).1
    refine ⟨calls ++ inner, lowered, ?_, further⟩
    rw [visited]
    dsimp only [bind, Except.bind]
    rw [Books.lowest_of_get? inside.lowest]
    dsimp only
    rw [lowers]
    rfl
  | some number =>
    dsimp only
    by_cases onStack : successor ∈ search.stack
    · -- A successor on the stack counts with its own number.
      have listed : successor ∈ explored.onStack := by
        rw [advances.agrees.onStack, List.mem_toFinset]
        exact onStack
      obtain ⟨lowered, lowers, further⟩ := advances.lowered number
      refine ⟨calls, lowered, ?_, ?_⟩
      · rw [if_pos listed, lowers]
        rfl
      · simpa only [List.contains_eq_mem, onStack, decide_true, if_true] using further
    · have unlisted : successor ∉ explored.onStack := by
        rw [advances.agrees.onStack, List.mem_toFinset]
        exact onStack
      refine ⟨calls, explored, ?_, ?_⟩
      · rw [if_neg unlisted]
        rfl
      · simpa only [List.contains_eq_mem, onStack, decide_false, Bool.false_eq_true, if_false]
          using advances

/-- Meeting a name that was not known leaves the stack in order. -/
theorem stacked_meet (stacked : search.Stacked) (fresh : ¬ search.Met name) :
    (search.meet name).Stacked where
  distinct := List.nodup_cons.mpr ⟨fun inside => fresh (stacked.met name inside), stacked.distinct⟩
  met other inside := by
    rw [Search.met_meet]
    exact (List.mem_cons.mp inside).imp id (stacked.met other)

/-- A visit begins with no other visits made and nothing above the name. -/
theorem enter (agrees : before.Agrees search) (stacked : search.Stacked)
    (fresh : ¬ search.Met name) :
    Advances next name [] (before.enter name) (before.enter name) (search.meet name)
      (search.met.length, search.meet name) where
  spans := .refl (stacked_meet stacked fresh)
  agrees := agrees.enter name
  lowest := by
    rw [Books.enter, Table.get?_put, if_pos rfl, agrees.counter]
  frame _ _ _ := rfl

section Finished

variable (advances : Advances next name calls (before.enter name) explored (search.meet name) state)

include advances

/-- When all successors are dealt with, the name lies where it was put, with new names above it. -/
theorem stack_explored :
    ∃ above, state.2.stack = above ++ name :: search.stack ∧ ∀ other ∈ above,
      ¬ search.Met other := by
  obtain ⟨above, stack, new⟩ := advances.spans.left
  refine ⟨above, stack, fun other inside known => new other inside ?_⟩
  rw [Search.met_meet]
  exact Or.inr known

/-- The visited name has kept its number. -/
theorem index_explored : explored.index.get? name = some search.met.length := by
  have met : (search.meet name).Met name := (search.met_meet name name).mpr (Or.inl rfl)
  rw [advances.agrees.index, advances.spans.continues name met, Search.lookup_meet, if_pos rfl]

/-- The end of a visit adds it to those made on the way. -/
theorem spans_finished (fresh : ¬ search.Met name) {call : Call} (isName : call.name = name)
    (ends : Ends name search state later call.taken) (disciplined : call.Disciplined next) :
    Spans next (calls ++ [call]) search later where
  stacked := by
    have distinct := advances.spans.stacked.distinct
    rw [ends.stack] at distinct
    refine ⟨distinct.of_append_right, fun other inside => ?_⟩
    have known :=
      advances.spans.stacked.met other (ends.stack ▸ List.mem_append_right call.taken inside)
    unfold Search.Met at known ⊢
    rwa [ends.met]
  continues other known := by
    rw [ends.met]
    exact (Search.continues_meet fresh).trans advances.spans.continues other known
  left := ends.left
  visited := by
    have discovered : later.discovered = state.2.discovered := by
      rw [Search.discovered, ends.met, Search.discovered]
    have made := advances.spans.visited
    rw [Search.discovered_meet] at made
    rw [discovered, List.perm_iff_count]
    intro member
    have counts := made.count_eq member
    simp only [List.count_append, List.map_append, List.map_singleton, isName] at counts ⊢
    omega
  popped := by
    -- The name was put on the stack when it was met, and with those above it it is still there or
    -- among those taken.
    have made : (name :: search.stack ++ calls.map Call.name).Perm
      (state.2.stack ++ calls.flatMap Call.taken) :=
      advances.spans.popped
    rw [ends.stack] at made
    rw [List.perm_iff_count]
    intro member
    have counts := made.count_eq member
    simp only [List.count_append, List.count_cons, List.map_append, List.map_singleton,
      List.flatMap_append, List.flatMap_singleton, List.count_nil, isName] at counts ⊢
    omega
  disciplined made inside := by
    rcases List.mem_append.mp inside with earlier | last
    · exact advances.spans.disciplined made earlier
    · rw [List.mem_singleton.mp last]
      exact disciplined

/-- What is known when the visit is over, if the books end as the search without books does. -/
theorem finished {taken : List String} (agrees : before.Agrees search) (stacked : search.Stacked)
    (fresh : ¬ search.Met name) (ends : Ends name search state later taken)
    (agreesAfter : after.Agrees later) (sameLowlink : after.lowlink = explored.lowlink)
    (result : visit next depth name search = (state.1, later)) :
    Advances next name (calls ++ [⟨name, before, after, taken⟩]) before after search
      (state.1, later) := by
  have number : after.index.get? name = some search.met.length := by
    rw [agreesAfter.index, ends.met, ← advances.agrees.index, advances.index_explored]
  have lowest : after.lowlink.get? name = some state.1 := by rw [sameLowlink, advances.lowest]
  have own : after.lowlink.get? name = after.index.get? name ↔ state.1 = search.met.length := by
    rw [lowest, number, Option.some_inj]
  have disciplined : Call.Disciplined next ⟨name, before, after, taken⟩ := by
    refine ⟨?_, by rw [agrees.onStack, agrees.stack], agrees.stack ▸ stacked.distinct, ?_,
      fun same => ?_, fun differs => ends.leaves fun same =>
      differs (own.mpr same), ⟨depth, search, agrees, ?_⟩⟩
    · rw [agrees.index]
      exact Option.not_isSome_iff_eq_none.mp fresh
    · -- What is left lies on the stack, and so it has a number by now.
      obtain ⟨new, stack, unknown⟩ := ends.left
      refine ⟨new, by rw [agreesAfter.stack, agrees.stack, stack], fun other inside => ⟨?_, ?_⟩⟩
      · rw [agrees.index]
        exact Option.not_isSome_iff_eq_none.mp (unknown other inside)
      · have onStack : other ∈ state.2.stack := by simp [ends.stack, stack, inside]
        rw [agreesAfter.index, ends.met]
        exact advances.spans.stacked.met other onStack
    · rw [agreesAfter.stack, agrees.stack]
      exact ends.closes (own.mp same)
    · rw [result]
      exact agreesAfter
  refine ⟨advances.spans_finished fresh rfl ends disciplined, agreesAfter, lowest, ?_⟩
  intro other different known
  rw [sameLowlink, advances.frame other different ((search.met_meet name other).mpr (Or.inr known)),
    Books.enter, Table.get?_put, if_neg different]

/-- At the end of a visit no step fails: a group that is closed has the name on the stack. -/
theorem finish (agrees : before.Agrees search) (stacked : search.Stacked)
    (fresh : ¬ search.Met name) (result : visit next (depth + 1) name search =
      (state.1, if state.1 == search.met.length then state.2.close name else state.2)) :
    ∃ taken after, explored.finish name = .ok (taken, after) ∧
      Advances next name (calls ++ [⟨name, before, after, taken⟩]) before after search
        (visit next (depth + 1) name search) := by
  obtain ⟨above, stack, new⟩ := advances.stack_explored
  have ends : explored.finish name =
      if state.1 = search.met.length then explored.close name else .ok ([], explored) := by
    rw [Books.finish, Books.lowest_of_get? advances.lowest]
    dsimp only [bind, Except.bind]
    rw [advances.index_explored]
    rfl
  by_cases own : state.1 = search.met.length
  · -- Nothing further down is reachable, and so the name closes a group.
    obtain ⟨after, closed, agreesAfter, sameLowlink, rest⟩ :=
      advances.agrees.close stack advances.spans.stacked.distinct
    rw [if_pos (beq_iff_eq.mpr own)] at result
    refine ⟨above ++ [name], after, by rw [ends, if_pos own, closed], ?_⟩
    have whole :=
      advances.finished agrees stacked fresh (.close stack own rest) agreesAfter sameLowlink result
    rwa [result]
  · -- Something further down is reachable, and so the name stays.
    rw [if_neg (by simpa using own)] at result
    refine ⟨[], explored, by rw [ends, if_neg own], ?_⟩
    have whole :=
      advances.finished agrees stacked fresh (.stay stack own fresh new) advances.agrees rfl result
    rwa [result]

end Finished

end Advances

/-- What it means for a visit to succeed with its books as the search without books does, if the
depth suffices. -/
def Succeeds (next : String → List String) (vertices : List String) (depth : Nat)
    (visitWith : String → Books → Except SearchFault (List Call × Books)) : Prop :=
  ∀ name before search, before.Agrees search → search.Stacked → name ∈ vertices →
    ¬ search.Met name →
    search.unmet vertices ≤ depth →
    ∃ calls after, visitWith name before = .ok (calls, after) ∧
      Advances next name calls before after search (visit next depth name search)

/-- The successors of a name are dealt with from left to right, and each step keeps what is known of
the visit. -/
theorem Advances.followAll (succeeds : Succeeds next vertices depth visitWith)
    (known : earlier.Met name) (room : earlier.unmet vertices ≤ depth) (todo : List String)
    (inside : todo ⊆ vertices) (advances : Advances next name calls start explored earlier state) :
    ∃ calls' explored', todo.foldlM (Books.follow visitWith name) (calls, explored) = .ok
      (calls', explored') ∧
      Advances next name calls' start explored' earlier
        (todo.foldl (explore next depth) state) := by
  induction todo generalizing calls explored state with
  | nil => exact ⟨calls, explored, rfl, advances⟩
  | cons successor todo ih =>
    obtain ⟨here, inside⟩ := List.cons_subset.mp inside
    -- No name is forgotten on the way, so the depth still suffices for a new successor.
    have stillRoom := Nat.le_trans (advances.spans.continues.unmet_le vertices) room
    obtain ⟨calls', explored', followed, further⟩ := advances.follow known fun new =>
      succeeds successor explored state.2 advances.agrees advances.spans.stacked here new stillRoom
    obtain ⟨calls'', explored'', rest, final⟩ := ih inside further
    refine ⟨calls'', explored'', ?_, final⟩
    rw [List.foldlM_cons, followed]
    exact rest

/-- A visit with enough depth for the names not yet met fails nowhere, and it does with its books
what the search without books does. -/
theorem succeeds_visit (within : ∀ one, ∀ other ∈ next one, other ∈ vertices) (depth : Nat) :
    Succeeds next vertices depth (Books.visit next depth) := by
  induction depth with
  | zero =>
    intro name before search _ _ listed fresh enough
    -- The name itself is still to be met, so some depth is left.
    have := Search.unmet_meet_lt listed fresh
    omega
  | succ depth ih =>
    intro name before search agrees stacked listed fresh enough
    have fewer := Search.unmet_meet_lt listed fresh
    have known : (search.meet name).Met name := (search.met_meet name name).mpr (Or.inl rfl)
    obtain ⟨calls, explored, explores, advances⟩ :=
      (Advances.enter agrees stacked fresh).followAll ih known (by omega) (next name) (within name)
    obtain ⟨taken, after, finishes, done⟩ := advances.finish agrees stacked fresh (visit_succ depth)
    refine ⟨_, after, ?_, done⟩
    rw [Books.visit, explores]
    dsimp only [bind, Except.bind]
    rw [finishes]
    rfl

/-- Root after root is visited, and the books go on agreeing with the search. -/
theorem spans_roots (graph : Graph) (roots : List String) (listed : roots ⊆ graph.nodes.names)
    (calls : List Call) (agrees : before.Agrees search) (stacked : search.Stacked) :
    ∃ made after, roots.foldlM (Books.visitRoot graph) (calls, before) = .ok
      (calls ++ made, after) ∧
      after.Agrees (roots.foldl graph.visitRoot search) ∧
      Spans graph.successors made search (roots.foldl graph.visitRoot search) := by
  induction roots generalizing calls before search with
  | nil => exact ⟨[], before, by rw [List.append_nil]; rfl, agrees, .refl stacked⟩
  | cons root roots ih =>
    obtain ⟨here, listed⟩ := List.cons_subset.mp listed
    rw [List.foldlM_cons, List.foldl_cons]
    by_cases met : search.Met root
    · -- A root that was met on the way from an earlier one needs no visit.
      have skipped : Books.visitRoot graph (calls, before) root = .ok (calls, before) :=
        if_pos ((agrees.isSome_index root).mpr met)
      have same : graph.visitRoot search root = search := if_pos met
      rw [skipped, same]
      exact ih listed calls agrees stacked
    · obtain ⟨inner, middle, visits, advances⟩ :=
        succeeds_visit graph.successors_within _ root before search agrees
        stacked here met (graph.unmet_names_le search)
      have visited : Books.visitRoot graph (calls, before) root = .ok (calls ++ inner, middle) := by
        rw [Books.visitRoot, if_neg fun found => met ((agrees.isSome_index root).mp found), visits]
        rfl
      have same : graph.visitRoot search root =
          (visit graph.successors graph.nodes.entries.length root search).2 := if_neg met
      obtain ⟨further, after, rest, agreesAfter, spans⟩ :=
        ih listed (calls ++ inner) advances.agrees advances.spans.stacked
      rw [visited, same]
      refine ⟨inner ++ further, after, ?_, agreesAfter, advances.spans.trans spans⟩
      rw [← List.append_assoc]
      exact rest

/-- In the end every node has been met, and nothing else. -/
theorem discovered_roots_perm (graph : Graph) :
    (graph.nodes.names.foldl graph.visitRoot .start).discovered.Perm graph.nodes.names := by
  have discovers := graph.discovers_roots
  refine (List.perm_ext_iff_of_nodup (discovers.nodup List.nodup_nil) graph.nodes.distinct).mpr
    fun name => ⟨?_, ?_⟩
  · exact fun met => discovers.subset_of_closed graph.successors_within (fun _ listed => listed)
      (List.nil_subset _) met
  · exact fun listed => discovers.todo_subset listed

/-- The discipline of the stack. The search with its books fails at no step, so it never takes a
name off an empty stack, and it finds the groups that the search without books finds. Every visit
begins with a name that has no number and with a stack on which no name is twice, of which the set
has just the names. It ends with that stack and only new names above, or with that very stack if it
closes a group. Each node is visited once and taken off once, and in the end the stack is empty. -/
theorem search_disciplined (graph : Graph) :
    ∃ calls books, Books.search graph = .ok (calls, books) ∧ books.groups = graph.cycles ∧
      (∀ call ∈ calls, call.Disciplined graph.successors) ∧
      (calls.map Call.name).Perm graph.nodes.names ∧
      (calls.flatMap Call.taken).Perm graph.nodes.names ∧ books.stack = [] ∧ books.onStack = ∅ := by
  have stacked : Search.start.Stacked :=
    ⟨List.nodup_nil, fun _ inside => absurd inside List.not_mem_nil⟩
  obtain ⟨calls, books, found, agrees, spans⟩ :=
    spans_roots graph graph.nodes.names (fun _ listed => listed) [] Books.agrees_start stacked
  -- With no visit under way nothing is left on the stack.
  obtain ⟨⟨sound, _⟩, _, _⟩ :=
    foldl_visitRoot_resting graph graph.nodes.names .start (fun _ listed => listed) ⟨.start, .start⟩
  have empty := sound.stack_nil
  have visited : (calls.map Call.name).Perm graph.nodes.names :=
    spans.visited.trans graph.discovered_roots_perm
  have popped := spans.popped
  rw [empty] at popped
  refine ⟨calls, books, found, agrees.groups, spans.disciplined, visited,
    popped.symm.trans visited, ?_, ?_⟩
  · rw [agrees.stack, empty]
  · rw [agrees.onStack, empty]
    rfl

end Lineage.Graph
