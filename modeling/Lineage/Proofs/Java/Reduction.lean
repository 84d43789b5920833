import Lineage.Java.TypeName
import Mathlib.Data.List.TakeWhile

/-! Matched angle brackets: removing the innermost pairs until nothing changes comes to the same as
one pass with a stack, whether the brackets are balanced or not. -/

namespace Lineage.Java

/-- A pass over a text with a stack of what is kept, the latest first. A closing bracket takes off
all down to the nearest opening one that is still there, and that one as well; where there is none
it is kept like everything else. -/
def deleteMatched (kept : List Char) : List Char → List Char
  | [] => kept.reverse
  | c :: rest =>
    if c == '>' && kept.contains '<' then deleteMatched (kept.dropWhile (· != '<')).tail rest
    else deleteMatched (c :: kept) rest

/-- The places of brackets that belong together, from a place on. The places in `unmatched` are
those of the opening brackets that no closing one belongs to yet, the nearest first, and each
closing bracket belongs to the nearest. -/
def pairsFrom (unmatched : List Nat) (place : Nat) : List Char → List (Nat × Nat)
  | [] => []
  | c :: rest =>
    if c == '<' then pairsFrom (place :: unmatched) (place + 1) rest
    else if c == '>' then
      match unmatched with
      | [] => pairsFrom [] (place + 1) rest
      | nearest :: others => (nearest, place) :: pairsFrom others (place + 1) rest
    else pairsFrom unmatched (place + 1) rest

/-- Of characters with their places, those that are neither a bracket of one of the pairs nor
between two. -/
def outside (pairs : List (Nat × Nat)) (items : List (Char × Nat)) : List (Char × Nat) :=
  items.filter fun item => pairs.all fun pair =>
    decide (item.2 < pair.1) || decide (pair.2 < item.2)

/-- What is left of a text without the brackets that belong together and all that stands between
them. -/
def outsidePairs (text : List Char) : List Char :=
  (outside (pairsFrom [] 0 text) text.zipIdx).map Prod.fst

/-- Innermost pairs are removed until nothing changes: `rounds` removals change the text, and the
next would not. -/
inductive Settles : Nat → List Char → List Char → Prop where
  | done {text : List Char} : dropInnermost text = text → Settles 0 text text
  | again {rounds : Nat} {text result : List Char} : dropInnermost text ≠ text →
    Settles rounds (dropInnermost text) result → Settles (rounds + 1) text result

section Round

/-- Before the first bracket of a text there is none. -/
theorem exists_fromBracket (text : List Char) :
    ∃ plain, text = plain ++ fromBracket text ∧ ∀ c ∈ plain, c ≠ '<' ∧ c ≠ '>' := by
  refine ⟨text.takeWhile fun c => !(c == '<' || c == '>'), List.takeWhile_append_dropWhile.symm,
    fun c inside => ?_⟩
  simpa using List.mem_takeWhile_imp inside

/-- The first bracket of a text opens or closes. -/
theorem fromBracket_cons {text more : List Char} {c : Char} (found : fromBracket text = c :: more) :
    c = '<' ∨ c = '>' := by
  have stop := List.head?_dropWhile_not (fun c => !(c == '<' || c == '>')) text
  rw [show text.dropWhile (fun c => !(c == '<' || c == '>')) = c :: more from found] at stop
  simpa [or_iff_not_imp_left] using stop

/-- An innermost pair has no bracket inside, and what follows it is what a removal goes on with. -/
theorem exists_of_pair {c : Char} {rest : List Char}
    (pair : (c == '<' && (fromBracket rest).head? == some '>') = true) :
    c = '<' ∧ ∃ plain, rest = plain ++ '>' ::
      (fromBracket rest).tail ∧ ∀ d ∈ plain, d ≠ '<' ∧ d ≠ '>' := by
  -- The next bracket behind the opening one is a closing one.
  obtain ⟨opens, closes⟩ := Bool.and_eq_true_iff.mp pair
  obtain ⟨more, found⟩ := List.head?_eq_some_iff.mp (beq_iff_eq.mp closes)
  obtain ⟨plain, split, noBracket⟩ := exists_fromBracket rest
  refine ⟨beq_iff_eq.mp opens, plain, ?_, noBracket⟩
  rw [found] at split ⊢
  exact split

/-- A removal that changes a text takes at least the two brackets of a pair away. -/
theorem dropInnermost_eq_or_shorter (text : List Char) :
    dropInnermost text = text ∨ (dropInnermost text).length + 2 ≤ text.length := by
  -- A pair that is dropped has two characters at least.
  fun_induction dropInnermost text with
  | case1 => exact Or.inl rfl
  | case2 c rest pair ih =>
    obtain ⟨_, plain, split, _⟩ := exists_of_pair pair
    have behind := congrArg List.length split
    have left : (dropInnermost (fromBracket rest).tail).length ≤
        (fromBracket rest).tail.length := by
      rcases ih with same | shorter
      · rw [same]
      · omega
    simp only [List.length_append, List.length_cons] at behind ⊢
    exact Or.inr (by omega)
  | case3 c rest _ ih =>
    rcases ih with same | shorter
    · exact Or.inl (by rw [same])
    · exact Or.inr (by rw [List.length_cons, List.length_cons]; omega)

/-- Where no pair is innermost, no closing bracket follows an opening one at all. -/
theorem not_sublist_of_unchanged {text : List Char} (unchanged : dropInnermost text = text) :
    ¬ ['<', '>'].Sublist text := by
  fun_induction dropInnermost text with
  | case1 => simp
  | case2 c rest pair ih =>
    -- The pair at the front would have gone, and nothing grows in its place.
    obtain ⟨_, plain, split, _⟩ := exists_of_pair pair
    have behind := congrArg List.length split
    have left := congrArg List.length unchanged
    simp only [List.length_append, List.length_cons] at behind left
    rcases dropInnermost_eq_or_shorter (fromBracket rest).tail with same | shorter
    · rw [same] at left
      omega
    · omega
  | case3 c rest noPair ih =>
    have later := ih (List.cons.inj unchanged).2
    intro follows
    cases follows with
    | cons _ further => exact later further
    | cons_cons _ closes =>
      -- Between an opening bracket at the front and the closing one another bracket would have to
      -- open.
      obtain ⟨plain, split, noBracket⟩ := exists_fromBracket rest
      have inside : '>' ∈ plain ++ fromBracket rest := split ▸ List.singleton_sublist.mp closes
      have behind : '>' ∈ fromBracket rest :=
        (List.mem_append.mp inside).resolve_left fun early => (noBracket _ early).2 rfl
      cases found : fromBracket rest with
      | nil => simp [found] at behind
      | cons d more =>
        rcases fromBracket_cons found with rfl | rfl
        · have within : '>' ∈ more := by simpa [found] using behind
          apply later
          rw [split, found]
          exact (List.cons_sublist_cons.mpr (List.singleton_sublist.mpr within)).trans
            (List.sublist_append_right _ _)
        · exact noPair (by simp [found])

end Round

section Pass

/-- A closing bracket where nothing is open is kept, and so is all that is no bracket. -/
theorem deleteMatched_cons_of_kept {kept : List Char} {c : Char} (stays : c = '>' → '<' ∉ kept)
    (rest : List Char) :
    deleteMatched kept (c :: rest) = deleteMatched (c :: kept) rest := by
  rw [deleteMatched, if_neg]
  simpa using stays

/-- A text comes to what a pass keeps of it, whatever comes before and behind. -/
def ComesTo (text bare : List Char) : Prop :=
  ∀ kept rest, deleteMatched kept (text ++ rest) = deleteMatched (bare.reverse ++ kept) rest

/-- Of two texts in a row a pass keeps what it keeps of each. -/
theorem ComesTo.append {text bare other bareOther : List Char} (comes : ComesTo text bare)
    (comesOther : ComesTo other bareOther) : ComesTo (text ++ other) (bare ++ bareOther) := by
  intro kept rest
  rw [List.append_assoc, comes, comesOther, List.reverse_append, List.append_assoc]

/-- Text without brackets is kept. -/
theorem ComesTo.of_plain {plain : List Char} (noBracket : ∀ c ∈ plain, c ≠ '<' ∧ c ≠ '>') :
    ComesTo plain plain := by
  intro kept rest
  induction plain generalizing kept with
  | nil => rfl
  | cons c plain ih =>
    have here := noBracket c List.mem_cons_self
    rw [List.cons_append, deleteMatched_cons_of_kept (fun closes => absurd closes here.2),
      ih fun d inside => noBracket d (List.mem_cons_of_mem c inside), List.reverse_cons,
        List.append_assoc]
    rfl

/-- A closing bracket takes off what was kept since the nearest opening one. -/
theorem deleteMatched_cons_of_matched {above : List Char} (noOpen : '<' ∉ above)
    (below rest : List Char) :
    deleteMatched (above ++ '<' :: below) ('>' :: rest) = deleteMatched below rest := by
  -- What lies above the opening bracket is dropped, and then the bracket itself.
  have passed : ∀ c ∈ above, (c != '<') = true := by
    intro c inside
    rw [bne_iff_ne]
    rintro rfl
    exact noOpen inside
  rw [deleteMatched, if_pos (by simp), List.dropWhile_append_of_pos passed,
    List.dropWhile_cons_of_neg (by simp), List.tail_cons]

/-- Removing the innermost pairs changes nothing for the pass. -/
theorem deleteMatched_dropInnermost (kept text : List Char) :
    deleteMatched kept (dropInnermost text) = deleteMatched kept text := by
  fun_induction dropInnermost text generalizing kept with
  | case1 => rfl
  | case2 c rest pair ih =>
    -- The pass comes to the closing bracket with the opening one and plain text on the stack, and
    -- takes both off.
    obtain ⟨rfl, plain, split, noBracket⟩ := exists_of_pair pair
    have noOpen : '<' ∉ plain.reverse :=
      fun inside => (noBracket _ (List.mem_reverse.mp inside)).1 rfl
    rw [ih kept]
    generalize (fromBracket rest).tail = more at split
    rw [split, deleteMatched_cons_of_kept (by simp), ComesTo.of_plain noBracket,
      deleteMatched_cons_of_matched noOpen]
  | case3 c rest _ ih =>
    rw [deleteMatched, deleteMatched]
    split
    · exact ih _
    · exact ih _

/-- Where no closing bracket follows an opening one, all is kept. -/
theorem deleteMatched_of_not_sublist {kept text : List Char}
    (apart : ¬ ['<', '>'].Sublist (kept.reverse ++ text)) :
    deleteMatched kept text = kept.reverse ++ text := by
  -- A closing bracket finds no opening one before it, and so it is kept.
  induction text generalizing kept with
  | nil => rw [List.append_nil]; rfl
  | cons c rest ih =>
    have stays : c = '>' → '<' ∉ kept := by
      rintro rfl isOpen
      apply apart
      have before : ['<'].Sublist kept.reverse :=
        List.singleton_sublist.mpr (List.mem_reverse.mpr isOpen)
      exact before.append (List.singleton_sublist.mpr List.mem_cons_self)
    have regroup : kept.reverse ++ c :: rest = (c :: kept).reverse ++ rest := by simp
    rw [regroup] at apart ⊢
    rw [deleteMatched_cons_of_kept stays, ih apart]

end Pass

section Loop

/-- Whatever the text, removals come to an end, and each takes at least two characters. -/
theorem exists_settles (text : List Char) :
    ∃ rounds result, 2 * rounds ≤ text.length ∧ Settles rounds text result := by
  -- Each round that changes something takes two characters away.
  induction size : text.length using Nat.strong_induction_on generalizing text with
  | _ length ih =>
    by_cases unchanged : dropInnermost text = text
    · exact ⟨0, text, by omega, .done unchanged⟩
    · have shorter := (dropInnermost_eq_or_shorter text).resolve_left unchanged
      obtain ⟨rounds, result, bound, settles⟩ := ih _ (by omega) (dropInnermost text) rfl
      exact ⟨rounds + 1, result, by omega, .again unchanged settles⟩

namespace Settles

variable {rounds : Nat} {text result : List Char}

/-- There is one way for the removals to go. -/
theorem unique (settles : Settles rounds text result) {rounds' : Nat} {result' : List Char}
    (other : Settles rounds' text result') : rounds' = rounds ∧ result' = result := by
  -- A text is changed by a round or it is not, so both go the same number of rounds.
  induction settles generalizing rounds' with
  | done unchanged =>
    cases other with
    | done _ => exact ⟨rfl, rfl⟩
    | again changed _ => exact absurd unchanged changed
  | again changed _ ih =>
    cases other with
    | done unchanged => exact absurd unchanged changed
    | again _ further =>
      obtain ⟨rfl, same⟩ := ih further
      exact ⟨rfl, same⟩

/-- What is left is what the pass leaves. -/
theorem result_eq (settles : Settles rounds text result) : result = deleteMatched [] text := by
  -- A round that changes something does not change what a single pass leaves.
  induction settles with
  | @done text unchanged =>
    have apart : ¬ ['<', '>'].Sublist ([].reverse ++ text) := not_sublist_of_unchanged unchanged
    exact (deleteMatched_of_not_sublist apart).symm
  | again _ _ ih => rw [ih, deleteMatched_dropInnermost]

/-- What is left has no closing bracket behind an opening one. -/
theorem not_sublist (settles : Settles rounds text result) : ¬ ['<', '>'].Sublist result := by
  induction settles with
  | done unchanged => exact not_sublist_of_unchanged unchanged
  | again _ _ ih => exact ih

/-- As many rounds as are needed leave what is left in the end, and so do more. -/
theorem dropArguments_eq (settles : Settles rounds text result) {enough : Nat}
    (covered : rounds ≤ enough) :
    dropArguments enough text = result := by
  -- Rounds beyond those that are needed change nothing.
  induction settles generalizing enough with
  | done unchanged =>
    cases enough with
    | zero => rfl
    | succ enough => simp [dropArguments, unchanged]
  | again changed _ ih =>
    obtain ⟨enough, rfl⟩ : ∃ fewer, enough = fewer + 1 := ⟨enough - 1, by omega⟩
    rw [dropArguments]
    simp only [beq_iff_eq, if_neg changed]
    exact ih (by omega)

end Settles

/-- Without its type arguments a text is what it comes to. -/
theorem ComesTo.dropArguments_eq {text bare : List Char} (comes : ComesTo text bare) :
    dropArguments text.length text = bare := by
  obtain ⟨rounds, result, bound, settles⟩ := exists_settles text
  -- Alone in a pass, nothing is on the stack before the text and nothing is read behind it.
  have whole := comes [] []
  rw [List.append_nil, List.append_nil] at whole
  rw [settles.dropArguments_eq (by omega), settles.result_eq, whole, deleteMatched,
    List.reverse_reverse]

end Loop

section Pairs

/-- The places of the opening brackets among the characters that are kept. -/
def openPlaces (kept : List (Char × Nat)) : List Nat :=
  (kept.filter (·.1 == '<')).map Prod.snd

theorem openPlaces_cons_of_ne {item : Char × Nat} (other : item.1 ≠ '<')
    (kept : List (Char × Nat)) :
    openPlaces (item :: kept) = openPlaces kept := by
  rw [openPlaces, List.filter_cons_of_neg (by simpa using other), openPlaces]

/-- Where no place is open no opening bracket is kept. -/
theorem notMem_of_openPlaces {kept : List (Char × Nat)} (noneOpen : openPlaces kept = []) :
    '<' ∉ kept.map Prod.fst := by
  -- A bracket that is kept has a place.
  intro inside
  obtain ⟨item, itemIn, isBracket⟩ := List.mem_map.mp inside
  have listed : item.2 ∈ openPlaces kept :=
    List.mem_map_of_mem (List.mem_filter.mpr ⟨itemIn, by simp [isBracket]⟩)
  rw [noneOpen] at listed
  exact List.not_mem_nil listed

/-- Down to the nearest opening bracket there is no other. -/
theorem exists_of_openPlaces {kept : List (Char × Nat)} {nearest : Nat} {others : List Nat}
    (isOpen : openPlaces kept = nearest :: others) :
    ∃ above below, kept = above ++
      ('<', nearest) :: below ∧ '<' ∉ above.map Prod.fst ∧ openPlaces below = others := by
  -- The first place that is listed is that of the first opening bracket.
  obtain ⟨item, items, found, rfl, rfl⟩ := List.map_eq_cons_iff.mp isOpen
  obtain ⟨above, below, rfl, noOpen, opens, rfl⟩ := List.filter_eq_cons_iff.mp found
  have bracket : item = ('<', item.2) := Prod.ext (beq_iff_eq.mp opens) rfl
  refine ⟨above, below, by rw [← bracket], fun inside => ?_, rfl⟩
  obtain ⟨early, earlyIn, isBracket⟩ := List.mem_map.mp inside
  exact noOpen early earlyIn (by simp [isBracket])

/-- One more pair takes its brackets and what is between them, and nothing before or behind. -/
theorem outside_cons {pair : Nat × Nat} {front middle back : List (Char × Nat)}
    (before : ∀ item ∈ front, item.2 < pair.1)
    (between : ∀ item ∈ middle, pair.1 ≤ item.2 ∧ item.2 ≤ pair.2)
    (behind : ∀ item ∈ back, pair.2 < item.2) (pairs : List (Nat × Nat)) :
    outside (pair :: pairs) (front ++ (middle ++ back)) = outside pairs (front ++ back) := by
  -- The pair takes away what lies between its places and nothing else.
  have stays : ∀ {items : List (Char × Nat)}, (∀ item ∈ items, item.2 < pair.1 ∨ pair.2 < item.2) →
      outside (pair :: pairs) items = outside pairs items := by
    intro items apart
    refine List.filter_congr fun item inside => ?_
    have here : (decide (item.2 < pair.1) || decide (pair.2 < item.2)) = true := by
      simpa using apart item inside
    rw [List.all_cons, here, Bool.true_and]
  have goes : outside (pair :: pairs) middle = [] := by
    refine List.filter_eq_nil_iff.mpr fun item inside => ?_
    have here := between item inside
    rw [List.all_cons, Bool.and_eq_true, Bool.or_eq_true, decide_eq_true_eq, decide_eq_true_eq]
    omega
  have front' := stays fun item inside => Or.inl (before item inside)
  have back' := stays fun item inside => Or.inr (behind item inside)
  unfold outside at front' goes back' ⊢
  rw [List.filter_append, List.filter_append, front', goes, back', List.nil_append,
    List.filter_append]

/-- A character that is kept adds a place exactly where a bracket opens. -/
theorem pairsFrom_of_kept {kept : List (Char × Nat)} {c : Char}
    (stays : c = '>' → openPlaces kept = []) (place : Nat) (rest : List Char) :
    pairsFrom (openPlaces kept) place (c :: rest) =
      pairsFrom (openPlaces ((c, place) :: kept)) (place + 1) rest := by
  -- It opens a place, or it changes nothing about the open ones.
  by_cases opens : c = '<'
  · subst opens
    simp [pairsFrom, openPlaces]
  · rw [openPlaces_cons_of_ne opens]
    by_cases closes : c = '>'
    · simp [pairsFrom, closes, stays closes]
    · simp [pairsFrom, opens, closes]

/-- A closing bracket belongs to the nearest opening one. -/
theorem pairsFrom_of_matched (nearest : Nat) (others : List Nat) (place : Nat) (rest : List Char) :
    pairsFrom (nearest :: others) place ('>' :: rest) =
      (nearest, place) :: pairsFrom others (place + 1) rest := by
  simp [pairsFrom]

/-- What is kept comes from places before the present one, the latest first. -/
structure LatestFirst (kept : List (Char × Nat)) (place : Nat) : Prop where
  falling : kept.Pairwise fun above below => below.2 < above.2
  before : ∀ item ∈ kept, item.2 < place

namespace LatestFirst

variable {kept above below : List (Char × Nat)} {item : Char × Nat} {place : Nat}

/-- A character at the present place comes first. -/
theorem cons (latest : LatestFirst kept place) (c : Char) :
    LatestFirst ((c, place) :: kept) (place + 1) where
  falling := List.pairwise_cons.mpr ⟨latest.before, latest.falling⟩
  before one inside := by
    rcases List.mem_cons.mp inside with rfl | inside
    · exact Nat.lt_succ_self place
    · exact Nat.lt_succ_of_lt (latest.before one inside)

theorem below_lt (latest : LatestFirst (above ++ item :: below) place) :
    ∀ one ∈ below, one.2 < item.2 :=
  (List.pairwise_cons.mp (List.pairwise_append.mp latest.falling).2.1).1

/-- With all down to an item taken off, the next place is still behind the rest. -/
theorem of_append_cons (latest : LatestFirst (above ++ item :: below) place) :
    LatestFirst below (place + 1) where
  falling := (List.pairwise_cons.mp (List.pairwise_append.mp latest.falling).2.1).2
  before one inside := Nat.lt_succ_of_lt (latest.before one (by simp [inside]))

/-- What was kept since an item, and what is at the present place, lies between the two. -/
theorem between (latest : LatestFirst (above ++ item :: below) place) (c : Char) :
    ∀ one ∈ item :: (above.reverse ++ [(c, place)]), item.2 ≤ one.2 ∧ one.2 ≤ place := by
  -- It is the item itself, was kept behind it, or stands at the present place.
  have here : item.2 < place := latest.before item (by simp)
  intro one inside
  rcases List.mem_cons.mp inside with rfl | inside
  · omega
  · rcases List.mem_append.mp inside with inAbove | last
    · have listed := List.mem_reverse.mp inAbove
      have early := latest.before one (List.mem_append_left _ listed)
      have late := (List.pairwise_append.mp latest.falling).2.2 one listed item List.mem_cons_self
      omega
    · rw [List.mem_singleton.mp last]
      show item.2 ≤ place ∧ place ≤ place
      omega

/-- A pair that is closed at the present place takes all that was kept since its opening bracket. -/
theorem outside_close (latest : LatestFirst (above ++ item :: below) place) (c : Char)
    (pairs : List (Nat × Nat)) (rest : List Char) :
    outside ((item.2, place) :: pairs)
      ((above ++ item :: below).reverse ++ (c :: rest).zipIdx place) =
      outside pairs (below.reverse ++ rest.zipIdx (place + 1)) := by
  -- What is kept is taken apart at the opening bracket of the pair.
  have regroup : (above ++ item :: below).reverse ++ (c :: rest).zipIdx place =
      below.reverse ++ (item :: (above.reverse ++ [(c, place)]) ++ rest.zipIdx (place + 1)) := by
    simp [List.zipIdx_cons]
  rw [regroup]
  exact outside_cons (fun one inside => latest.below_lt one (List.mem_reverse.mp inside))
    (latest.between c) (fun one inside => List.le_snd_of_mem_zipIdx inside) pairs

end LatestFirst

/-- What the pass keeps are the characters outside of the pairs that are still to be closed. -/
theorem deleteMatched_eq_outside (text : List Char) :
    ∀ (kept : List (Char × Nat)) (place : Nat), LatestFirst kept place →
      deleteMatched (kept.map Prod.fst) text =
        (outside (pairsFrom (openPlaces kept) place text) (kept.reverse ++ text.zipIdx place)).map
          Prod.fst := by
  induction text with
  | nil =>
    -- Nothing is closed any more, and so all that is kept stays.
    intro kept place _
    have all : outside (pairsFrom (openPlaces kept) place []) (kept.reverse ++ [].zipIdx place) =
        kept.reverse := by
      rw [List.zipIdx_nil, List.append_nil]
      exact List.filter_eq_self.mpr fun _ _ => rfl
    rw [all, List.map_reverse]
    rfl
  | cons c rest ih =>
    intro kept place latest
    by_cases matched : c = '>' ∧ openPlaces kept ≠ []
    · -- The bracket and all back to the nearest opening one make a new pair.
      obtain ⟨rfl, isOpen⟩ := matched
      obtain ⟨nearest, others, unmatched⟩ := List.exists_cons_of_ne_nil isOpen
      obtain ⟨above, below, rfl, noOpen, rfl⟩ := exists_of_openPlaces unmatched
      rw [unmatched, pairsFrom_of_matched, latest.outside_close,
        ← ih below (place + 1) latest.of_append_cons, List.map_append, List.map_cons,
        deleteMatched_cons_of_matched noOpen]
    · -- The character is put on the stack, where it lies with its place until something closes.
      have stays : c = '>' → openPlaces kept = [] := by simpa using matched
      have later := ih ((c, place) :: kept) (place + 1) (latest.cons c)
      rw [deleteMatched_cons_of_kept fun closes =>
        notMem_of_openPlaces (stays closes), pairsFrom_of_kept stays, List.zipIdx_cons]
      simpa only [List.map_cons, List.reverse_cons, List.append_assoc, List.singleton_append]
        using later

end Pairs

/-- Removing innermost pairs of angle brackets comes to an end for every text, balanced or not,
after at most half as many rounds as there are characters. What is left then is what one pass with a
stack keeps, which is the text without all brackets that belong together and without what stands
between them. No closing bracket is left behind an opening one. -/
theorem dropArguments_settles (text : List Char) :
    (∃ rounds, 2 * rounds ≤ text.length ∧
      ∀ count result, Settles count text result ↔ count = rounds ∧
        result = dropArguments text.length text) ∧
    dropArguments text.length text = deleteMatched [] text ∧
    dropArguments text.length text = outsidePairs text ∧
    ¬ ['<', '>'].Sublist (dropArguments text.length text) := by
  -- The number of rounds and the result are those of the rounds that settle the text.
  obtain ⟨rounds, result, bound, settles⟩ := exists_settles text
  have left : dropArguments text.length text = result := settles.dropArguments_eq (by omega)
  have pass : deleteMatched [] text = outsidePairs text :=
    deleteMatched_eq_outside text [] 0
      ⟨List.Pairwise.nil, fun _ inside => absurd inside List.not_mem_nil⟩
  rw [left]
  refine ⟨⟨rounds, bound, fun count other => ⟨settles.unique, ?_⟩⟩, settles.result_eq, ?_,
    settles.not_sublist⟩
  · rintro ⟨rfl, rfl⟩
    exact settles
  · rw [settles.result_eq, pass]

example : outsidePairs "a>b<c<d<e>>f".toList = "a>b<cf".toList := by decide +kernel

end Lineage.Java
