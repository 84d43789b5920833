import Lineage.Graph.Cycle
import Mathlib.Data.List.Nodup
import Mathlib.Logic.Relation

/-! What a depth-first search keeps true while it numbers names and closes groups. -/

namespace Lineage.Graph

/-- One name leads to another when a chain of steps, perhaps none, goes from the first to the
second. -/
abbrev Leads (next : String → List String) : String → String → Prop :=
  Relation.ReflTransGen fun one other => other ∈ next one

/-- Two names belong together when each leads to the other. -/
def Joined (next : String → List String) (one other : String) : Prop :=
  Leads next one other ∧ Leads next other one

/-- Belonging together does not depend on the order of the two names. -/
theorem Joined.symm {next : String → List String} {one other : String}
    (joined : Joined next one other) : Joined next other one :=
  ⟨joined.2, joined.1⟩

/-- Names that belong together with a third belong together. -/
theorem Joined.trans {next : String → List String} {one middle other : String}
    (first : Joined next one middle) (second : Joined next middle other) : Joined next one other :=
  ⟨first.1.trans second.1, second.2.trans first.2⟩

variable {name : String}

namespace Search

/-- A name was met when the search gave it a number. -/
def Met (search : Search) (name : String) : Prop :=
  (search.met.lookup name).isSome

/-- The number of a name that was met. -/
def number (search : Search) (name : String) : Nat :=
  (search.met.lookup name).getD 0

/-- A name is settled when it was met and has left the stack. -/
def Settled (search : Search) (name : String) : Prop :=
  search.Met name ∧ name ∉ search.stack

/-- A later state of a search knows every name that an earlier state knew, under the same number. -/
def Continues (before after : Search) : Prop :=
  ∀ name, before.Met name → after.met.lookup name = before.met.lookup name

/-- A name that is met gets the next number, and the others keep theirs. -/
theorem lookup_meet (search : Search) (name other : String) :
    (search.meet name).met.lookup other =
      if other = name then some search.met.length else search.met.lookup other := by
  by_cases same : other = name
  · -- The new entry stands in front, so it is the one found.
    simp [meet, same]
  · simp [meet, List.lookup_cons, beq_false_of_ne same, same]

/-- After a name is met, the names met are those from before and this one. -/
theorem met_meet (search : Search) (name other : String) :
    (search.meet name).Met other ↔ other = name ∨ search.Met other := by
  unfold Met
  rw [lookup_meet]
  split <;> simp_all

theorem number_meet_self (search : Search) (name : String) :
    (search.meet name).number name = search.met.length := by
  simp [number, lookup_meet]

variable {before after search : Search}

/-- A search that goes on forgets no name. -/
theorem Continues.met (continues : Continues before after) (known : before.Met name) :
    after.Met name := by
  unfold Met
  rw [continues name known]
  exact known

theorem Continues.number (continues : Continues before after) (known : before.Met name) :
    after.number name = before.number name := by
  unfold Search.number
  rw [continues name known]

theorem Continues.trans {first second third : Search} (one : Continues first second)
    (two : Continues second third) : Continues first third := by
  intro name known
  rw [two name (one.met known), one name known]

/-- Meeting a new name leaves all that is known as it is. -/
theorem continues_meet (fresh : ¬ search.Met name) : Continues search (search.meet name) := by
  intro other known
  have different : other ≠ name := fun same => fresh (same ▸ known)
  simp [lookup_meet, different]

/-- Closing the group of a name takes off the stack what lies from its first place upwards. -/
theorem close_of_stack {above below : List String} (stack : search.stack = above ++ name :: below)
    (apart : name ∉ above) :
    search.close name =
      { search with
        stack := below
        groups := if 2 ≤ (above ++ [name]).length then search.groups ++
          [above ++ [name]] else search.groups } := by
  -- All that lies above the name differs from it, so the name is where the group ends.
  have passed : ∀ member ∈ above, (member != name) = true := fun member inside =>
    bne_iff_ne.mpr fun same => apart (same ▸ inside)
  simp only [close, stack, List.takeWhile_append_of_pos passed, List.dropWhile_append_of_pos passed]
  simp

/-- How many of the given names the search has not met. -/
def unmet (vertices : List String) (search : Search) : Nat :=
  vertices.countP fun name => (search.met.lookup name).isNone

/-- The names still to be met become no more when those that were met stay met. -/
theorem unmet_le_of_met (stay : ∀ name, before.Met name → after.Met name) (vertices : List String) :
    after.unmet vertices ≤ before.unmet vertices := by
  -- A name that is not met afterwards was not met before.
  refine List.countP_mono_left fun name _ unknown => ?_
  by_contra known
  have met : before.Met name := by simpa [Met, Option.isSome_iff_ne_none] using known
  have later := stay name met
  rw [Met, Option.isSome_iff_ne_none] at later
  exact later (by simpa using unknown)

/-- The names still to be met become no more as the search goes on. -/
theorem Continues.unmet_le (continues : Continues before after) (vertices : List String) :
    after.unmet vertices ≤ before.unmet vertices :=
  unmet_le_of_met (fun _ => continues.met) vertices

/-- Meeting one of the names leaves fewer of them. -/
theorem unmet_meet_lt {vertices : List String} (listed : name ∈ vertices)
    (fresh : ¬ search.Met name) : (search.meet name).unmet vertices < search.unmet vertices := by
  -- Cutting the list at the name shows one place that counts before and not afterwards.
  obtain ⟨left, right, rfl⟩ := List.append_of_mem listed
  have leftLess := (continues_meet fresh).unmet_le left
  have rightLess := (continues_meet fresh).unmet_le right
  have counted : (search.met.lookup name).isNone = true := by
    simpa only [Met, Bool.not_eq_true, Option.isSome_eq_false_iff] using fresh
  have gone : ((search.meet name).met.lookup name).isNone = false := by simp [lookup_meet]
  -- The two sides of the cut count no more than before, and the name itself one less.
  simp only [unmet, List.countP_append, List.countP_cons, counted, gone] at *
  simp only [if_true, Bool.false_eq_true, if_false]
  omega

end Search

/-- What holds of a search between two steps. The names in `opened` are those whose visit is under
way.

The stack carries the argument: from its bottom to its top each name leads to all above it, and each
leads down to a name whose visit is under way. A group can therefore be cut off exactly where no
name above the cut leads below it. -/
structure Sound (next : String → List String) (opened : List String) (search : Search) : Prop where
  /-- Numbers are given in order. -/
  number_lt : ∀ name, search.Met name → search.number name < search.met.length
  stack_met : ∀ name ∈ search.stack, search.Met name
  /-- From the top of the stack down the numbers fall. -/
  falling : search.stack.Pairwise fun above below => search.number below < search.number above
  opened_stack : ∀ name ∈ opened, name ∈ search.stack
  /-- Once the visit of a name is over, all that it steps to was met. -/
  forward : ∀ name, search.Met name → name ∉ opened → ∀ successor ∈ next name, search.Met successor
  up : ∀ low ∈ search.stack, ∀ high ∈ search.stack, search.number low ≤ search.number high →
    Leads next low high
  down : ∀ name ∈ search.stack, ∃ ancestor ∈ opened,
    search.number ancestor ≤ search.number name ∧ Leads next name ancestor
  /-- A settled name steps to settled names only. -/
  settled : ∀ name, search.Settled name → ∀ successor ∈ next name, search.Settled successor

/-- What holds of the groups that a search has found. -/
structure Grouped (next : String → List String) (search : Search) : Prop where
  members : ∀ group ∈ search.groups, ∀ name ∈ group, search.Settled name
  /-- A group holds all that belongs together with any of its members, and nothing else. -/
  whole : ∀ group ∈ search.groups, ∀ name ∈ group, ∀ other, other ∈ group ↔ Joined next name other
  size : ∀ group ∈ search.groups, group.Nodup ∧ 2 ≤ group.length
  apart : search.groups.Pairwise List.Disjoint
  /-- A settled name that belongs together with another one is in a group. -/
  complete : ∀ name other, search.Settled name → other ≠ name → Joined next name other →
    ∃ group ∈ search.groups, name ∈ group
  /-- Within a group the numbers fall, as they do on the stack. -/
  falling : ∀ group ∈ search.groups, group.Pairwise fun above below =>
    search.number below < search.number above
  /-- No group leads to one that was found after it. -/
  onward : search.groups.Pairwise fun earlier later =>
    ∀ one ∈ earlier, ∀ other ∈ later, ¬ Leads next one other

namespace Sound

variable {next : String → List String} {opened : List String} {search : Search}

/-- All that a settled name leads to is settled. -/
theorem settled_leads (sound : Sound next opened search) {target : String}
    (settled : search.Settled name) (leads : Leads next name target) : search.Settled target := by
  -- Along a chain of steps, each name is settled because the one before it is.
  induction leads with
  | refl => exact settled
  | tail _ step ih => exact sound.settled _ ih _ step

/-- A search that has not begun satisfies every condition. -/
theorem start : Sound next [] Search.start where
  number_lt name met := by simp [Search.Met, Search.start] at met
  stack_met name member := by simp [Search.start] at member
  falling := List.Pairwise.nil
  opened_stack name member := by simp at member
  forward name met := by simp [Search.Met, Search.start] at met
  up name member := by simp [Search.start] at member
  down name member := by simp [Search.start] at member
  settled name settled := by simp [Search.Settled, Search.Met, Search.start] at settled

/-- A new name may be met once every name whose visit is under way leads to it. -/
theorem meet (sound : Sound next opened search) (fresh : ¬ search.Met name)
    (reaching : ∀ ancestor ∈ opened, Leads next ancestor name) :
    Sound next (name :: opened) (search.meet name) := by
  have continues := Search.continues_meet fresh
  have newest := search.number_meet_self name
  -- The new name gets the highest number of all.
  have older : ∀ other ∈ search.stack, (search.meet name).number other < search.met.length := by
    intro other member
    rw [continues.number (sound.stack_met other member)]
    exact sound.number_lt other (sound.stack_met other member)
  have stack : (search.meet name).stack = name :: search.stack := rfl
  refine ⟨?_, ?_, ?_, ?_, ?_, ?_, ?_, ?_⟩
  · -- Numbers stay below the count, which has grown by one.
    intro other met
    have longer : (search.meet name).met.length = search.met.length + 1 := rfl
    rcases (search.met_meet name other).mp met with same | known
    · subst same; omega
    · have := sound.number_lt other known
      rw [continues.number known]; omega
  · intro other member
    rw [search.met_meet]
    rcases List.mem_cons.mp (stack ▸ member) with same | member
    · exact Or.inl same
    · exact Or.inr (sound.stack_met other member)
  · -- The new name lies on top, and below it the order is as it was.
    rw [stack, List.pairwise_cons]
    refine ⟨fun other member => by rw [newest]; exact older other member, ?_⟩
    refine sound.falling.imp_of_mem fun {above below} aboveIn belowIn falls => ?_
    rwa [continues.number (sound.stack_met above aboveIn),
      continues.number (sound.stack_met below belowIn)]
  · intro other member
    rw [stack]
    rcases List.mem_cons.mp member with same | member
    · simp [same]
    · exact List.mem_cons_of_mem _ (sound.opened_stack other member)
  · -- The visit of the new name is under way, so only the old names are concerned.
    intro other met outside successor step
    simp only [List.mem_cons, not_or] at outside
    have known := ((search.met_meet name other).mp met).resolve_left outside.1
    exact continues.met (sound.forward other known outside.2 successor step)
  · -- A name on the stack leads down to an open visit, and from there to the new name.
    intro low lowIn high highIn ordered
    rw [stack] at lowIn highIn
    rcases List.mem_cons.mp lowIn with lowNew | lowOld <;>
      rcases List.mem_cons.mp highIn with highNew | highOld
    · subst lowNew highNew; exact .refl
    · subst lowNew; have := older high highOld; omega
    · subst highNew
      obtain ⟨ancestor, isOpen, _, leads⟩ := sound.down low lowOld
      exact leads.trans (reaching ancestor isOpen)
    · rw [continues.number (sound.stack_met low lowOld),
        continues.number (sound.stack_met high highOld)] at ordered
      exact sound.up low lowOld high highOld ordered
  · -- The new name leads down to itself, and the others to the names they led to before.
    intro other member
    rcases List.mem_cons.mp (stack ▸ member) with same | member
    · subst same
      exact ⟨other, by simp, Nat.le_refl _, .refl⟩
    · obtain ⟨ancestor, isOpen, lower, leads⟩ := sound.down other member
      refine ⟨ancestor, List.mem_cons_of_mem _ isOpen, ?_, leads⟩
      rwa [continues.number (sound.stack_met other member),
        continues.number (sound.stack_met ancestor (sound.opened_stack ancestor isOpen))]
  · -- A settled name is an old one, and its successors were met, so none of them is the new name.
    intro other settled successor step
    have outside : other ≠ name ∧ other ∉ search.stack := by
      simpa [stack, not_or] using settled.2
    have known := ((search.met_meet name other).mp settled.1).resolve_left outside.1
    obtain ⟨met, off⟩ := sound.settled other ⟨known, outside.2⟩ successor step
    refine ⟨continues.met met, ?_⟩
    simp only [stack, List.mem_cons, not_or]
    exact ⟨fun same => fresh (same ▸ met), off⟩

end Sound

end Lineage.Graph
