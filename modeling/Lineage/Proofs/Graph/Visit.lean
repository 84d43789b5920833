import Lineage.Proofs.Graph.Search

/-! A visit settles every group that it reaches without going back to a name met before. -/

namespace Lineage.Graph

variable {next : String → List String} {opened : List String} {before after search : Search}
  {name : String} {seen left : List String} {least : Nat}

/-- What a finished visit of a name has done. The names in `left` are those that it leaves on the
stack. -/
structure Visited (next : String → List String) (opened : List String) (before : Search)
    (name : String) (left : List String) (least : Nat) (after : Search) : Prop where
  sound : Sound next opened after
  grouped : Grouped next after
  continues : before.Continues after
  met : after.Met name
  stack : after.stack = left ++ before.stack
  /-- No name that is left steps further down the stack than the number returned. -/
  bound : ∀ member ∈ left, ∀ successor ∈ next member, successor ∈ before.stack →
    least ≤ after.number successor
  least_le : least ≤ before.met.length
  /-- The number returned is that of the visited name or of one further down that it leads to. -/
  reached : least = before.met.length ∨
    ∃ target ∈ before.stack, after.number target = least ∧ Leads next name target

/-- How far the visit of a name has come once the successors in `seen` are dealt with. The names in
`left` lie above it on the stack. -/
structure Exploring (next : String → List String) (opened : List String) (before : Search)
    (name : String) (seen left : List String) (least : Nat) (search : Search) : Prop where
  sound : Sound next (name :: opened) search
  grouped : Grouped next search
  continues : before.Continues search
  numbered : search.number name = before.met.length
  stack : search.stack = left ++ name :: before.stack
  opened_below : ∀ ancestor ∈ opened, ancestor ∈ before.stack
  seen_met : ∀ successor ∈ seen, search.Met successor
  seen_bound : ∀ successor ∈ seen, successor ∈ before.stack → least ≤ search.number successor
  left_bound : ∀ member ∈ left, ∀ successor ∈ next member, successor ∈ before.stack →
    least ≤ search.number successor
  least_le : least ≤ before.met.length
  reached : least = before.met.length ∨
    ∃ target ∈ before.stack, search.number target = least ∧ Leads next name target

/-- Meeting a name settles nothing and unsettles nothing. -/
theorem settled_meet (fresh : ¬ search.Met name) (other : String) :
    (search.meet name).Settled other ↔ search.Settled other := by
  have stack : (search.meet name).stack = name :: search.stack := rfl
  unfold Search.Settled
  rw [search.met_meet, stack, List.mem_cons, not_or]
  -- The new name itself is on the stack, so it is not settled.
  constructor
  · rintro ⟨same | known, different, off⟩
    · exact absurd same different
    · exact ⟨known, off⟩
  · rintro ⟨known, off⟩
    exact ⟨Or.inr known, fun same => fresh (same ▸ known), off⟩

/-- Groups stay as they are while a name is met. -/
theorem Grouped.meet (grouped : Grouped next search) (fresh : ¬ search.Met name) :
    Grouped next (search.meet name) where
  members group found member inside :=
    (settled_meet fresh member).mpr (grouped.members group found member inside)
  whole := grouped.whole
  size := grouped.size
  apart := grouped.apart
  complete member other settled :=
    grouped.complete member other ((settled_meet fresh member).mp settled)
  falling group found := by
    -- The members were met before, and they keep their numbers.
    have same : ∀ member ∈ group, (search.meet name).number member = search.number member :=
      fun member inside =>
      (Search.continues_meet fresh).number (grouped.members group found member inside).1
    refine (grouped.falling group found).imp_of_mem fun {above below} aboveIn belowIn falls => ?_
    rwa [same above aboveIn, same below belowIn]
  onward := grouped.onward

/-- A visit begins with nothing above the name and no number below its own. -/
theorem Exploring.start (sound : Sound next opened before) (grouped : Grouped next before)
    (fresh : ¬ before.Met name) (reaching : ∀ ancestor ∈ opened, Leads next ancestor name) :
    Exploring next opened before name [] [] before.met.length (before.meet name) where
  sound := sound.meet fresh reaching
  grouped := grouped.meet fresh
  continues := Search.continues_meet fresh
  numbered := before.number_meet_self name
  stack := rfl
  opened_below := sound.opened_stack
  seen_met := by simp
  seen_bound := by simp
  left_bound := by simp
  least_le := Nat.le_refl _
  reached := Or.inl rfl

namespace Exploring

variable (exploring : Exploring next opened before name seen left least search)

include exploring

/-- The visited name is on the stack. -/
theorem name_stack : name ∈ search.stack := by
  simp [exploring.stack]

variable {member successor : String}

/-- What was on the stack before the visit is still there. -/
theorem below_stack (below : member ∈ before.stack) : member ∈ search.stack := by
  simp [exploring.stack, below]

/-- Names above the visited one have greater numbers. -/
theorem number_left (above : member ∈ left) : before.met.length < search.number member := by
  -- On the stack the numbers fall from the top down, and the visited name has the first new one.
  have falling := exploring.sound.falling
  rw [exploring.stack, List.pairwise_append] at falling
  have lower := falling.2.2 member above name (by simp)
  rwa [exploring.numbered] at lower

/-- Names that were on the stack before have smaller numbers. -/
theorem number_below (below : member ∈ before.stack) :
    search.number member < before.met.length := by
  -- On the stack the visited name lies directly above all that was there before.
  have falling := exploring.sound.falling
  rw [exploring.stack, List.pairwise_append, List.pairwise_cons] at falling
  have lower := falling.2.1.1 member below
  rwa [exploring.numbered] at lower

/-- The visited name and those above it are on the stack. -/
theorem inside_stack (inside : member ∈ left ++ [name]) : member ∈ search.stack := by
  rw [exploring.stack, List.append_cons]
  exact List.mem_append_left _ inside

/-- What is on the stack and was not there before is the visited name or above it. -/
theorem inside_of_stack (onStack : member ∈ search.stack) (above : member ∉ before.stack) :
    member ∈ left ++ [name] := by
  rw [exploring.stack, List.append_cons] at onStack
  exact (List.mem_append.mp onStack).resolve_right above

/-- The visited name and those above it have numbers that were not given before. -/
theorem number_inside (inside : member ∈ left ++ [name]) :
    before.met.length ≤ search.number member := by
  rcases List.mem_append.mp inside with above | same
  · exact Nat.le_of_lt (exploring.number_left above)
  · exact Nat.le_of_eq (by rw [List.mem_singleton.mp same, exploring.numbered])

/-- The visited name and those above it were not on the stack before. -/
theorem inside_not_below (inside : member ∈ left ++ [name]) : member ∉ before.stack := by
  intro below
  have higher := exploring.number_inside inside
  have lower := exploring.number_below below
  omega

/-- A successor that is on the stack lowers the least number to its own. -/
theorem onStack (step : successor ∈ next name) (inside : successor ∈ search.stack) :
    Exploring next opened before name (seen ++ [successor]) left
      (min least (search.number successor)) search where
  sound := exploring.sound
  grouped := exploring.grouped
  continues := exploring.continues
  numbered := exploring.numbered
  stack := exploring.stack
  opened_below := exploring.opened_below
  seen_met other member := by
    rcases List.mem_append.mp member with old | new
    · exact exploring.seen_met other old
    · rw [List.mem_singleton.mp new]
      exact exploring.sound.stack_met successor inside
  seen_bound other member below := by
    -- The bound has only become lower for the old ones, and the new one is counted in it.
    rcases List.mem_append.mp member with old | new
    · have := exploring.seen_bound other old below
      omega
    · rw [List.mem_singleton.mp new]
      exact Nat.min_le_right _ _
  left_bound member above other goes below := by
    have := exploring.left_bound member above other goes below
    omega
  least_le := Nat.le_trans (Nat.min_le_left _ _) exploring.least_le
  reached := by
    by_cases below : successor ∈ before.stack
    · -- The step itself leads to the successor, in case its number is the least.
      rcases Nat.le_total least (search.number successor) with keeps | lowers
      · rw [Nat.min_eq_left keeps]
        exact exploring.reached
      · rw [Nat.min_eq_right lowers]
        exact Or.inr ⟨successor, below, rfl, .single step⟩
    · -- A step to the name itself or to one above it does not go further down.
      have higher := exploring.number_inside (exploring.inside_of_stack inside below)
      have bound := exploring.least_le
      rw [Nat.min_eq_left (by omega)]
      exact exploring.reached

/-- A successor that is settled changes nothing. -/
theorem offStack (known : search.Met successor) (outside : successor ∉ search.stack) :
    Exploring next opened before name (seen ++ [successor]) left least search where
  sound := exploring.sound
  grouped := exploring.grouped
  continues := exploring.continues
  numbered := exploring.numbered
  stack := exploring.stack
  opened_below := exploring.opened_below
  seen_met other member := by
    rcases List.mem_append.mp member with old | new
    · exact exploring.seen_met other old
    · rw [List.mem_singleton.mp new]
      exact known
  seen_bound other member below := by
    rcases List.mem_append.mp member with old | new
    · exact exploring.seen_bound other old below
    · -- The successor has left the stack, so it is not below the visited name.
      rw [List.mem_singleton.mp new] at below
      exact absurd (exploring.below_stack below) outside
  left_bound := exploring.left_bound
  least_le := exploring.least_le
  reached := exploring.reached

/-- After the visit of a successor the names it leaves lie on top, and its least number counts. -/
theorem deeper {further : List String} {reached : Nat} (step : successor ∈ next name)
    (fresh : ¬ search.Met successor)
    (visited : Visited next (name :: opened) search successor further reached after) :
    Exploring next opened before name (seen ++ [successor]) (further ++ left)
      (min least reached) after := by
  -- The visit of the successor gives no new numbers to what was on the stack.
  have sameNumber : ∀ member ∈ search.stack, after.number member = search.number member :=
    fun member inside => visited.continues.number (exploring.sound.stack_met member inside)
  refine ⟨visited.sound, visited.grouped, exploring.continues.trans visited.continues, ?_, ?_,
    exploring.opened_below, ?_, ?_, ?_, ?_, ?_⟩
  · rw [sameNumber name exploring.name_stack, exploring.numbered]
  · rw [visited.stack, exploring.stack, List.append_assoc]
  · intro other member
    rcases List.mem_append.mp member with old | new
    · exact visited.continues.met (exploring.seen_met other old)
    · rw [List.mem_singleton.mp new]
      exact visited.met
  · -- The successor was not met before its visit, so it is none of the names below.
    intro other member below
    have inside := exploring.below_stack below
    rcases List.mem_append.mp member with old | new
    · have := exploring.seen_bound other old below
      rw [sameNumber other inside]
      omega
    · rw [List.mem_singleton.mp new] at inside
      exact absurd (exploring.sound.stack_met successor inside) fresh
  · -- For the names that the successor left, its visit gives the bound.
    intro member above other goes below
    have inside := exploring.below_stack below
    rcases List.mem_append.mp above with new | old
    · have := visited.bound member new other goes inside
      omega
    · have := exploring.left_bound member old other goes below
      rw [sameNumber other inside]
      omega
  · exact Nat.le_trans (Nat.min_le_left _ _) exploring.least_le
  · -- Only a number from below the visited name can be smaller than those known so far.
    have keep : least ≤ reached → min least reached = before.met.length ∨
        ∃ target ∈ before.stack, after.number target = min least reached ∧
          Leads next name target := by
      intro higher
      rw [Nat.min_eq_left higher]
      rcases exploring.reached with own | ⟨target, below, found, leads⟩
      · exact Or.inl own
      · exact Or.inr ⟨target, below, by rw [sameNumber target (exploring.below_stack below), found],
          leads⟩
    rcases visited.reached with fromHere | ⟨target, inside, found, leads⟩
    · -- The number of the successor is greater than that of the visited name.
      apply keep
      have above :=
        exploring.sound.number_lt name (exploring.sound.stack_met name exploring.name_stack)
      have := exploring.least_le
      rw [exploring.numbered] at above
      omega
    · rw [sameNumber target inside] at found
      by_cases below : target ∈ before.stack
      · -- The successor leads below, and the visited name leads there through it.
        rcases Nat.le_total least reached with keeps | lowers
        · exact keep keeps
        · refine Or.inr ⟨target, below, ?_, .head step leads⟩
          rw [sameNumber target inside, found, Nat.min_eq_right lowers]
      · -- The successor leads back to the visited name or to one above it, which changes nothing.
        have higher := exploring.number_inside (exploring.inside_of_stack inside below)
        have bound := exploring.least_le
        exact keep (by omega)

section Finished

variable (finished : ∀ successor ∈ next name, successor ∈ seen)

include finished

/-- Once all successors are seen, the visited name too steps to names that were met. -/
theorem forward (known : search.Met member) (outside : member ∉ opened)
    (step : successor ∈ next member) : search.Met successor := by
  by_cases same : member = name
  · -- All successors of the visited name are among those seen.
    rw [same] at step
    exact exploring.seen_met successor (finished successor step)
  · exact exploring.sound.forward member known (by simp [same, outside]) successor step

/-- If the least number is its own, the visited name and what lies above it lead nowhere below on
the stack. -/
theorem leads_inside (own : least = before.met.length) {target : String}
    (inside : member ∈ left ++ [name]) (leads : Leads next member target) :
    target ∈ left ++ [name] ∨ search.Settled target := by
  -- Step by step along the chain, the name reached is inside or was settled before.
  induction leads with
  | refl => exact Or.inl inside
  | @tail middle target _ step ih =>
    rcases ih with within | settled
    · -- The open visits lie further down, so the name in the middle is done with its successors.
      have outside : middle ∉ opened := fun isOpen =>
        exploring.inside_not_below within (exploring.opened_below middle isOpen)
      have known := exploring.forward finished
        (exploring.sound.stack_met middle (exploring.inside_stack within)) outside step
      by_cases onStack : target ∈ search.stack
      · refine Or.inl (exploring.inside_of_stack onStack fun below => ?_)
        -- A step below the visited name would have lowered the least number.
        have lower := exploring.number_below below
        have bound : least ≤ search.number target := by
          rcases List.mem_append.mp within with above | same
          · exact exploring.left_bound middle above target step below
          · rw [List.mem_singleton.mp same] at step
            exact exploring.seen_bound target (finished target step) below
        omega
      · exact Or.inr ⟨known, onStack⟩
    · exact Or.inr (exploring.sound.settled middle settled target step)

/-- If the least number is its own, the visited name belongs together with all that lies above
it. -/
theorem joined_inside (own : least = before.met.length) (inside : member ∈ left ++ [name]) :
    Joined next name member := by
  have onStack := exploring.inside_stack inside
  have higher : search.number name ≤ search.number member := by
    rw [exploring.numbered]
    exact exploring.number_inside inside
  refine ⟨exploring.sound.up name exploring.name_stack member onStack higher, ?_⟩
  -- For the way back, the member leads down to an open visit.
  obtain ⟨ancestor, isOpen, _, leads⟩ := exploring.sound.down member onStack
  rcases List.mem_cons.mp isOpen with same | further
  · rw [same] at leads
    exact leads
  · -- An open visit further down cannot be reached any more.
    have below := exploring.opened_below ancestor further
    rcases exploring.leads_inside finished own inside leads with within | settled
    · exact absurd below (exploring.inside_not_below within)
    · exact absurd (exploring.below_stack below) settled.2

/-- If the least number is its own, what lies from the visited name upwards is all that belongs
together with any name there. -/
theorem inside_iff (own : least = before.met.length) (inside : member ∈ left ++ [name])
    (other : String) : other ∈ left ++ [name] ↔ Joined next member other := by
  constructor
  · -- Both belong together with the visited name.
    intro within
    exact (exploring.joined_inside finished own inside).symm.trans
      (exploring.joined_inside finished own within)
  · intro joined
    rcases exploring.leads_inside finished own inside joined.1 with within | settled
    · exact within
    · -- A settled name leads to settled names only, and the member is still on the stack.
      have := exploring.sound.settled_leads settled joined.2
      exact absurd (exploring.inside_stack inside) this.2

omit finished in
/-- The visited name occurs on the stack only once, so closing its group takes off exactly what lies
from it upwards. -/
theorem close_eq : search.close name =
    { search with
      stack := before.stack
      groups := if 2 ≤ (left ++ [name]).length then search.groups ++
        [left ++ [name]] else search.groups } := by
  -- The numbers tell the names above from the visited one.
  refine Search.close_of_stack exploring.stack fun above => ?_
  have higher := exploring.number_left above
  rw [exploring.numbered] at higher
  omega

omit finished in
/-- Closing a group settles its members and no other name. -/
theorem settled_close (member : String) :
    (search.close name).Settled member ↔ search.Settled member ∨ member ∈ left ++ [name] := by
  rw [exploring.close_eq]
  constructor
  · -- What is off the stack now was off it before or has just been taken off.
    rintro ⟨known, off⟩
    by_cases onStack : member ∈ search.stack
    · exact Or.inr (exploring.inside_of_stack onStack off)
    · exact Or.inl ⟨known, onStack⟩
  · rintro (⟨known, off⟩ | inside)
    · exact ⟨known, fun below => off (exploring.below_stack below)⟩
    · exact ⟨exploring.sound.stack_met member (exploring.inside_stack inside),
        exploring.inside_not_below inside⟩

/-- Closing the group of the visited name leaves a search in order. -/
theorem sound_close (own : least = before.met.length) : Sound next opened (search.close name) := by
  have stack : (search.close name).stack = before.stack := by rw [exploring.close_eq]
  have sublist : (search.close name).stack.Sublist search.stack := by
    rw [stack, exploring.stack, List.append_cons]
    exact List.sublist_append_right _ _
  refine ⟨exploring.sound.number_lt, fun member inside =>
    exploring.sound.stack_met member (sublist.subset inside), exploring.sound.falling.sublist
    sublist, fun member isOpen => stack ▸ exploring.opened_below member isOpen,
    fun member known outside successor step => exploring.forward finished known outside step,
    fun low lowIn high highIn =>
      exploring.sound.up low (sublist.subset lowIn) high (sublist.subset highIn),
    ?_, ?_⟩
  · -- The ancestor of a name below the visited one is not the visited one, which has a greater
    -- number.
    intro member inside
    obtain ⟨ancestor, isOpen, lower, leads⟩ := exploring.sound.down member (sublist.subset inside)
    rcases List.mem_cons.mp isOpen with same | further
    · have := exploring.number_below (stack ▸ inside)
      rw [same, exploring.numbered] at lower
      omega
    · exact ⟨ancestor, further, lower, leads⟩
  · -- The members of the new group step into the group or to what was settled before.
    intro member settled successor step
    rw [exploring.settled_close] at settled ⊢
    rcases settled with settled | inside
    · exact Or.inl (exploring.sound.settled member settled successor step)
    · exact (exploring.leads_inside finished own inside (.single step)).symm

/-- The group of the visited name may be recorded with those found before. -/
theorem grouped_close (own : least = before.met.length) : Grouped next (search.close name) := by
  have whole :=
    fun member (inside : member ∈ left ++ [name]) => exploring.inside_iff finished own inside
  -- A group on record is an earlier one or, if it is large enough, the new one.
  have recorded : ∀ group, group ∈ (search.close name).groups ↔
      group ∈ search.groups ∨ 2 ≤ (left ++ [name]).length ∧ group = left ++ [name] := by
    intro group
    rw [exploring.close_eq]
    by_cases large : 2 ≤ (left ++ [name]).length
    · simp only [large, if_true, List.mem_append, List.mem_singleton, true_and]
    · simp only [large, if_false, false_and, or_false]
  -- Numbers fall along the stack, so no name is there twice.
  have falls : (left ++ [name]).Pairwise fun above below =>
      search.number below < search.number above := by
    have falling := exploring.sound.falling
    rw [exploring.stack, List.append_cons] at falling
    exact (List.pairwise_append.mp falling).1
  have distinct : (left ++ [name]).Nodup := falls.imp fun {above below} lower same => by
    rw [same] at lower
    omega
  -- Members of earlier groups are settled, and those of the new one are still on the stack.
  have unsettled : ∀ member ∈ left ++ [name], ¬ search.Settled member :=
    fun member inside settled =>
    settled.2 (exploring.inside_stack inside)
  -- What holds of each earlier group and the new one holds of the groups on record.
  have recordedPairs : ∀ {related : List String → List String → Prop},
      search.groups.Pairwise related →
        (∀ group ∈ search.groups, related group (left ++ [name])) →
        (search.close name).groups.Pairwise related := by
    intro related earlier withNew
    rw [exploring.close_eq]
    by_cases large : 2 ≤ (left ++ [name]).length
    · simp only [if_pos large, List.pairwise_append]
      refine ⟨earlier, List.pairwise_singleton _ _, fun group old new isNew => ?_⟩
      rw [List.mem_singleton.mp isNew]
      exact withNew group old
    · simp only [if_neg large]
      exact earlier
  refine ⟨?_, ?_, ?_, ?_, ?_, ?_, ?_⟩
  · intro group found member inside
    rw [exploring.settled_close]
    rcases (recorded group).mp found with old | ⟨_, rfl⟩
    · exact Or.inl (exploring.grouped.members group old member inside)
    · exact Or.inr inside
  · intro group found member inside
    rcases (recorded group).mp found with old | ⟨_, rfl⟩
    · exact exploring.grouped.whole group old member inside
    · exact whole member inside
  · intro group found
    rcases (recorded group).mp found with old | ⟨large, rfl⟩
    · exact exploring.grouped.size group old
    · exact ⟨distinct, large⟩
  · refine recordedPairs exploring.grouped.apart fun group old member inOld inNew => ?_
    exact unsettled member inNew (exploring.grouped.members group old member inOld)
  · -- A name that is settled now was settled before or is a member of the new group.
    intro member other settled different joined
    rw [exploring.settled_close] at settled
    rcases settled with old | inside
    · obtain ⟨group, found, within⟩ := exploring.grouped.complete member other old different joined
      exact ⟨group, (recorded group).mpr (Or.inl found), within⟩
    · -- Two different members make the group large enough to be recorded.
      have large : 2 ≤ (left ++ [name]).length := by
        have within : other ∈ left ++ [name] := (whole member inside other).mpr joined
        by_contra small
        obtain ⟨only, single⟩ :=
          List.length_eq_one_iff.mp (by simp at small ⊢; omega : (left ++ [name]).length = 1)
        rw [single, List.mem_singleton] at inside within
        exact different (within.trans inside.symm)
      exact ⟨left ++ [name], (recorded _).mpr (Or.inr ⟨large, rfl⟩), inside⟩
  · intro group found
    rcases (recorded group).mp found with old | ⟨_, rfl⟩
    · exact exploring.grouped.falling group old
    · exact falls
  · -- A settled name leads to settled names only.
    refine recordedPairs exploring.grouped.onward fun group old one inOld other inNew leads => ?_
    exact unsettled other inNew
      (exploring.sound.settled_leads (exploring.grouped.members group old one inOld) leads)

/-- The visit of a name that leads further down may end with the name still on the stack. -/
theorem sound_leave (lower : least ≠ before.met.length) : Sound next opened search := by
  refine ⟨exploring.sound.number_lt, exploring.sound.stack_met, exploring.sound.falling,
    fun member isOpen => exploring.below_stack (exploring.opened_below member isOpen),
    fun member known outside successor step => exploring.forward finished known outside step,
    exploring.sound.up, ?_, exploring.sound.settled⟩
  -- Only one thing changes: the visited name is no open visit any more, so another one must be
  -- found.
  intro member inside
  obtain ⟨ancestor, isOpen, under, leads⟩ := exploring.sound.down member inside
  rcases List.mem_cons.mp isOpen with same | further
  · -- The visited name leads to a name below it, and that one to an open visit below it.
    rw [same] at under leads
    rw [exploring.numbered] at under
    obtain ⟨target, below, found, onwards⟩ := exploring.reached.resolve_left lower
    obtain ⟨deeper, isOpen, under', leads'⟩ :=
      exploring.sound.down target (exploring.below_stack below)
    have targetLow := exploring.number_below below
    rcases List.mem_cons.mp isOpen with same | further
    · -- The visited name itself has too great a number.
      rw [same, exploring.numbered] at under'
      omega
    · exact ⟨deeper, further, by omega, leads.trans (onwards.trans leads')⟩
  · exact ⟨ancestor, further, under, leads⟩

/-- However the visit of a name ends, it has done what a visit does. -/
theorem visited : ∃ remaining, Visited next opened before name remaining least
    (if least == before.met.length then search.close name else search) := by
  by_cases own : least = before.met.length
  · -- Nothing leads further down: the group is closed, and nothing is left on the stack.
    refine ⟨[], ?_⟩
    simp only [own, beq_self_eq_true, if_true]
    exact {
      sound := exploring.sound_close finished own
      grouped := exploring.grouped_close finished own
      continues := exploring.continues
      met := exploring.sound.stack_met name exploring.name_stack
      stack := by rw [exploring.close_eq]; rfl
      bound := by simp
      least_le := Nat.le_refl _
      reached := Or.inl rfl }
  · -- Something leads further down: the name and all above it are left for a later close.
    refine ⟨left ++ [name], ?_⟩
    simp only [beq_iff_eq, own, if_false]
    exact {
      sound := exploring.sound_leave finished own
      grouped := exploring.grouped
      continues := exploring.continues
      met := exploring.sound.stack_met name exploring.name_stack
      stack := by rw [exploring.stack, List.append_cons]
      bound := fun member inside successor step below => by
        rcases List.mem_append.mp inside with above | same
        · exact exploring.left_bound member above successor step below
        · rw [List.mem_singleton.mp same] at step
          exact exploring.seen_bound successor (finished successor step) below
      least_le := exploring.least_le
      reached := exploring.reached }

end Finished

end Exploring

/-- What a visit does with one successor, given the least number so far. -/
def explore (next : String → List String) (depth : Nat) (state : Nat × Search)
    (successor : String) :
    Nat × Search :=
  match state.2.met.lookup successor with
  | none =>
    let result := visit next depth successor state.2
    (min state.1 result.1, result.2)
  | some met => (if state.2.stack.contains successor then min state.1 met else state.1, state.2)

/-- A visit meets the name, deals with its successors in order, and closes a group if none leads
further down. -/
theorem visit_succ (depth : Nat) :
    visit next (depth + 1) name before =
      let state := (next name).foldl (explore next depth) (before.met.length, before.meet name)
      (state.1, if state.1 == before.met.length then state.2.close name else state.2) :=
  rfl

/-- A visit with enough depth for the names not yet met does what a visit does. -/
theorem visit_visited {vertices : List String}
    (within : ∀ one, ∀ other ∈ next one, other ∈ vertices) :
    ∀ depth opened before name, Sound next opened before → Grouped next before → name ∈ vertices →
      ¬ before.Met name → (∀ ancestor ∈ opened, Leads next ancestor name) →
        before.unmet vertices ≤ depth →
      ∃ left, Visited next opened before name left (visit next depth name before).1
        (visit next depth name before).2 := by
  intro depth
  induction depth with
  | zero =>
    intro opened before name _ _ listed fresh _ enough
    -- The name itself is still to be met, so some depth is left.
    have := Search.unmet_meet_lt listed fresh
    omega
  | succ depth ih =>
    intro opened before name sound grouped listed fresh reaching enough
    have fewer := Search.unmet_meet_lt listed fresh
    -- The successors are dealt with from left to right, and each step keeps what is known of the
    -- visit.
    have steps : ∀ todo seen left least search, next name = seen ++ todo →
        Exploring next opened before name seen left least search → search.unmet vertices ≤ depth →
        ∃ left, Exploring next opened before name (seen ++ todo) left
          (todo.foldl (explore next depth) (least, search)).1
          (todo.foldl (explore next depth) (least, search)).2 := by
      intro todo
      induction todo with
      | nil =>
        intro seen left least search _ exploring _
        exact ⟨left, by simpa using exploring⟩
      | cons successor todo more =>
        intro seen left least search split exploring room
        have step : successor ∈ next name := by simp [split]
        rw [List.append_cons, List.foldl_cons]
        have rest : next name = (seen ++ [successor]) ++ todo := by simp [split]
        cases known : search.met.lookup successor with
        | none =>
          -- A new successor is visited in turn, with one more visit under way.
          have new : ¬ search.Met successor := by simp [Search.Met, known]
          have reachingNew : ∀ ancestor ∈ name :: opened, Leads next ancestor successor := by
            intro ancestor isOpen
            rcases List.mem_cons.mp isOpen with same | further
            · rw [same]
              exact .single step
            · exact (reaching ancestor further).tail step
          obtain ⟨further, visited⟩ := ih (name :: opened) search successor exploring.sound
            exploring.grouped (within name successor step) new reachingNew room
          have deeper := exploring.deeper step new visited
          -- The visit has met names and forgotten none, so the depth still suffices.
          have stillRoom := Nat.le_trans (visited.continues.unmet_le vertices) room
          simpa only [explore, known] using more _ _ _ _ rest deeper stillRoom
        | some number =>
          -- A known successor counts only while it is on the stack.
          have met : search.Met successor := by simp [Search.Met, known]
          have numbered : search.number successor = number := by simp [Search.number, known]
          by_cases onStack : successor ∈ search.stack
          · have lowered := exploring.onStack step onStack
            rw [numbered] at lowered
            simpa only [explore, known, List.contains_eq_mem, onStack, decide_true, if_true] using
              more _ _ _ _ rest lowered room
          · have same := exploring.offStack met onStack
            simpa only [explore, known, List.contains_eq_mem, onStack, decide_false,
              Bool.false_eq_true, if_false] using more _ _ _ _ rest same room
    -- Once all successors are dealt with, the visit is over.
    obtain ⟨left, exploring⟩ := steps (next name) [] [] before.met.length (before.meet name) rfl
      (.start sound grouped fresh reaching) (by omega)
    rw [visit_succ]
    exact exploring.visited fun successor step => step

end Lineage.Graph
