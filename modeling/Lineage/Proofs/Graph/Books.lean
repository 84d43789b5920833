import Lineage.Proofs.Graph.CycleOrder
import Mathlib.Data.Finset.Basic

/-! The search for groups with all its books: numbers, least reachable numbers, the stack, the set
of names on it and the next number are kept apart, each step can fail, and each visit is on
record. -/

namespace Lineage.Graph

/-- What all visits of a search share. The stack has its top first. -/
structure Books where
  index : Table String Nat
  lowlink : Table String Nat
  onStack : Finset String
  stack : List String
  groups : List (List String)
  counter : Nat

/-- What a step of the search can fail at. -/
inductive SearchFault where
  /-- A number is asked for that was never given. -/
  | unnumbered (name : String)
  /-- A name is to be taken off a stack on which there is none. -/
  | emptyStack
  /-- Visits lie too deep in each other. -/
  | tooDeep

/-- A visit on record: the books when it begins and when it ends, and what it takes off the stack
itself. -/
structure Call where
  name : String
  before : Books
  after : Books
  taken : List String

namespace Books

/-- Before anything is met. -/
def start : Books :=
  ⟨.empty, .empty, ∅, [], [], 0⟩

/-- A name gets the next number and goes on the stack. -/
def enter (books : Books) (name : String) : Books :=
  { books with
    index := books.index.put name books.counter
    lowlink := books.lowlink.put name books.counter
    onStack := insert name books.onStack
    stack := name :: books.stack
    counter := books.counter + 1 }

/-- The least number known to be reachable from a name. -/
def lowest (books : Books) (name : String) : Except SearchFault Nat :=
  (books.lowlink.get? name).elim (.error (.unnumbered name)) .ok

/-- A number that is reachable from a name counts if it is less than those known so far. -/
def lower (books : Books) (name : String) (number : Nat) : Except SearchFault Books := do
  let known ← books.lowest name
  return { books with lowlink := books.lowlink.put name (min known number) }

/-- Takes name after name off a stack, and out of the set of names on it, up to a given one. The
names taken come with what is left of both. -/
def popUntil (name : String) :
    List String → Finset String → Except SearchFault (List String × List String × Finset String)
  | [], _ => .error .emptyStack
  | top :: rest, onStack =>
    if top = name then .ok ([top], rest, onStack.erase top)
    else do
      let popped ← popUntil name rest (onStack.erase top)
      return (top :: popped.1, popped.2)

/-- The names from the top of the stack down to a given one are a group, which counts if it has at
least two members. -/
def close (books : Books) (name : String) : Except SearchFault (List String × Books) := do
  let popped ← popUntil name books.stack books.onStack
  return (popped.1,
    { books with
      stack := popped.2.1
      onStack := popped.2.2
      groups := if 2 ≤ popped.1.length then books.groups ++ [popped.1] else books.groups })

/-- At the end of its visit a name from which no lesser number than its own is reachable closes a
group. -/
def finish (books : Books) (name : String) : Except SearchFault (List String × Books) := do
  let least ← books.lowest name
  let number ← (books.index.get? name).elim (.error (.unnumbered name)) .ok
  if least = number then books.close name else return ([], books)

/-- A visit deals with one successor: it is visited unless it has a number, and what is reachable
from it counts unless it has left the stack. -/
def follow (visit : String → Books → Except SearchFault (List Call × Books)) (name : String)
    (state : List Call × Books) (successor : String) : Except SearchFault (List Call × Books) :=
  match state.2.index.get? successor with
  | none => do
    let visited ← visit successor state.2
    let reached ← visited.2.lowest successor
    let lowered ← visited.2.lower name reached
    return (state.1 ++ visited.1, lowered)
  | some number =>
    if successor ∈ state.2.onStack then do
      let lowered ← state.2.lower name number
      return (state.1, lowered)
    else return state

/-- Visits a name, with a bound on how deep visits may lie in each other. The record lists each
visit behind those that it made. -/
def visit (next : String → List String) :
    Nat → String → Books → Except SearchFault (List Call × Books)
  | 0, _, _ => .error .tooDeep
  | depth + 1, name, before => do
    let explored ← (next name).foldlM (follow (visit next depth) name) ([], before.enter name)
    let finished ← explored.2.finish name
    return (explored.1 ++ [⟨name, before, finished.2, finished.1⟩], finished.2)

/-- Visits a name unless it has a number. -/
def visitRoot (graph : Graph) (state : List Call × Books) (name : String) :
    Except SearchFault (List Call × Books) :=
  if (state.2.index.get? name).isSome then return state
  else do
    let visited ← visit graph.successors graph.nodes.entries.length name state.2
    return (state.1 ++ visited.1, visited.2)

/-- The whole search: the nodes of a graph are visited in order. -/
def search (graph : Graph) : Except SearchFault (List Call × Books) :=
  graph.nodes.names.foldlM (visitRoot graph) ([], start)

/-- The books agree with a search that has the same names, numbers, stack and groups. The set holds
what is on the stack. -/
structure Agrees (books : Books) (search : Search) : Prop where
  index : ∀ name, books.index.get? name = search.met.lookup name
  counter : books.counter = search.met.length
  stack : books.stack = search.stack
  onStack : books.onStack = search.stack.toFinset
  groups : books.groups = search.groups

/-- The books agree with the search before anything is met. -/
theorem agrees_start : start.Agrees .start where
  index _ := rfl
  counter := rfl
  stack := rfl
  onStack := rfl
  groups := rfl

variable {books : Books} {search : Search} {name : String}

/-- A name has a number in the books if the search has met it. -/
theorem Agrees.isSome_index (agrees : books.Agrees search) (name : String) :
    (books.index.get? name).isSome ↔ search.Met name := by
  rw [agrees.index]
  rfl

/-- The books agree with the search when both meet a name. -/
theorem Agrees.enter (agrees : books.Agrees search) (name : String) :
    (books.enter name).Agrees (search.meet name) where
  -- The number that the books count out is the number of names that the search has met.
  index other := by
    rw [Search.lookup_meet, Books.enter, Table.get?_put, agrees.counter, agrees.index]
  counter := congrArg (· + 1) agrees.counter
  stack := congrArg (name :: ·) agrees.stack
  onStack := by
    show insert name books.onStack = (name :: search.stack).toFinset
    rw [agrees.onStack, List.toFinset_cons]
  groups := agrees.groups

/-- Which number is the least does not matter for the search. -/
theorem Agrees.setLowlink (agrees : books.Agrees search) (lowlink : Table String Nat) :
    { books with lowlink }.Agrees search :=
  ⟨agrees.index, agrees.counter, agrees.stack, agrees.onStack, agrees.groups⟩

/-- From a stack on which a name lies everything down to it is taken, and the set keeps what is
left. -/
theorem popUntil_append {above below : List String} (distinct : (above ++ name :: below).Nodup) :
    popUntil name (above ++ name :: below) (above ++ name :: below).toFinset =
      .ok (above ++ [name], below, below.toFinset) := by
  have erased : ∀ {top : String} {rest : List String}, (top :: rest).Nodup →
      (top :: rest).toFinset.erase top = rest.toFinset := by
    intro top rest distinct
    rw [List.toFinset_cons, Finset.erase_insert]
    rw [List.mem_toFinset]
    exact (List.nodup_cons.mp distinct).1
  induction above with
  | nil =>
    rw [List.nil_append] at distinct ⊢
    rw [popUntil, if_pos rfl, erased distinct]
    rfl
  | cons top above ih =>
    -- The name lies further down, and no name is on the stack twice.
    rw [List.cons_append] at distinct ⊢
    have different : top ≠ name := fun same => (List.nodup_cons.mp distinct).1 (by simp [same])
    rw [popUntil, if_neg different, erased distinct, ih (List.nodup_cons.mp distinct).2]
    rfl

/-- A name that lies on the stack can be closed, with everything above it. What lies below it
stays. -/
theorem Agrees.close (agrees : books.Agrees search) {above below : List String}
    (stack : search.stack = above ++ name :: below) (distinct : search.stack.Nodup) :
    ∃ after, books.close name = .ok (above ++ [name], after) ∧ after.Agrees (search.close name) ∧
      after.lowlink = books.lowlink ∧ (search.close name).stack = below := by
  -- A name is on the stack once, so what is taken off is what lies above it.
  rw [stack] at distinct
  have apart : name ∉ above := fun inside =>
    (List.nodup_cons.mp (List.nodup_middle.mp distinct)).1 (List.mem_append_left below inside)
  have popped : popUntil name books.stack books.onStack =
      .ok (above ++ [name], below, below.toFinset) := by
    rw [agrees.onStack, agrees.stack, stack]
    exact popUntil_append distinct
  have closed : books.close name = .ok (above ++ [name],
      { books with
        stack := below
        onStack := below.toFinset
        groups := if 2 ≤ (above ++ [name]).length then
          books.groups ++ [above ++ [name]] else books.groups }) := by
    rw [Books.close, popped]
    rfl
  refine ⟨_, closed, ?_⟩
  rw [Search.close_of_stack stack apart]
  exact ⟨⟨agrees.index, agrees.counter, rfl, rfl, by rw [agrees.groups]⟩, rfl, rfl⟩

end Books

end Lineage.Graph
