import Lineage.Proofs.Text.Parallel

/-! Searches that cannot tell texts apart that differ in their blanks only. -/

namespace Lineage.Text

/-- Related options are both empty or hold related values. -/
theorem rel_cases {α β : Type} {related : α → β → Prop} {one : Option α} {other : Option β}
    (rel : Option.Rel related one other) :
    one = none ∧ other = none ∨ ∃ value value', one = some value ∧ other = some value' ∧
      related value value' := by
  cases rel with
  | none => exact Or.inl ⟨rfl, rfl⟩
  | some both => exact Or.inr ⟨_, _, rfl, rfl, both⟩

namespace Reader

variable {α α' β β' : Type} {R : List Char → List Char → Prop}

/-- The preferred readings at level places are alike, or there is none at either. -/
def HeadAlike (R : List Char → List Char → Prop) (P : α → List Char → α' → List Char → Prop)
    (reader : Reader α) (reader' : Reader α') : Prop :=
  ∀ place place', Abreast R place place' →
    Option.Rel (ReadAlike R P place place') (reader place).head? (reader' place').head?

/-- Parallel readers that end whole have first readings that are alike. -/
theorem Parallel.headAlike {P : α → List Char → α' → List Char → Prop} {reader : Reader α}
    {reader' : Reader α'} (parallel : Parallel R P reader reader') (endsWhole : EndsWhole reader)
    (endsWhole' : EndsWhole reader') :
    HeadAlike R P reader reader' := by
  -- All their readings are settled, so the first of them are compared.
  intro place place' level
  have alike := parallel place place' level
  rw [endsWhole.settled_eq level.whole, endsWhole'.settled_eq level.whole'] at alike
  generalize reader place = reads at alike ⊢
  generalize reader' place' = reads' at alike ⊢
  cases alike with
  | nil => exact .none
  | cons first _ => exact .some first

/-- First readings that are alike take the same text with its blanks squeezed. -/
theorem HeadAlike.squeezed (relayout : Relayout R) {P : α → List Char → α' → List Char → Prop}
    {reader : Reader α} {reader' : Reader α'} (alike : HeadAlike R P reader reader') :
    HeadAlike R (fun value taken value' taken' => P value taken value' taken' ∧
      Text.squeezed taken = Text.squeezed taken') reader reader' := by
  intro place place' level
  have heads := alike place place' level
  generalize (reader place).head? = head at heads ⊢
  generalize (reader' place').head? = head' at heads ⊢
  cases heads with
  | none => exact .none
  | some found => exact .some (found.squeezed relayout level)

/-- First readings that are alike stay so when their values are changed. -/
theorem HeadAlike.map {P : α → List Char → α' → List Char → Prop}
    {Q : β → List Char → β' → List Char → Prop}
    {reader : Reader α} {reader' : Reader α'} {f : α → β} {f' : α' → β'}
    (alike : HeadAlike R P reader reader')
    (related : ∀ value taken value' taken', P value taken value' taken' →
      Q (f value) taken (f' value') taken') :
    HeadAlike R Q (reader >>= fun value => pure (f value))
      (reader' >>= fun value => pure (f' value)) := by
  intro place place' level
  have heads := alike place place' level
  rw [head?_bind_pure, head?_bind_pure]
  generalize (reader place).head? = head at heads ⊢
  generalize (reader' place').head? = head' at heads ⊢
  cases heads with
  | none => exact .none
  | some found =>
    obtain ⟨taken, taken', took, took', ends, relatedValues⟩ := found
    exact .some ⟨taken, taken', took, took', ends, related _ _ _ _ relatedValues⟩

/-- If every way to read the first part is matched in the other text, and the preferred way to read
what comes next is, so is the preferred way to read both. -/
theorem HeadAlike.bind {P : α → List Char → α' → List Char → Prop}
    {Q : β → List Char → β' → List Char → Prop}
    {first : Reader α} {first' : Reader α'} {next : α → Reader β} {next' : α' → Reader β'}
    (parallel : Parallel R P first first') (endsWhole : EndsWhole first)
    (endsWhole' : EndsWhole first')
    (onward : ∀ value taken value' taken', P value taken value' taken' →
      HeadAlike R (fun result more result' more' =>
        Q result (taken ++ more) result' (taken' ++ more'))
        (next value) (next' value')) :
    HeadAlike R Q (first >>= next) (first' >>= next') := by
  intro place place' level
  have alike := parallel place place' level
  rw [endsWhole.settled_eq level.whole, endsWhole'.settled_eq level.whole'] at alike
  have unfolded : (first >>= next) place = (first place).flatMap fun read => next read.1 read.2 :=
    rfl
  have unfolded' : (first' >>= next') place' = (first' place').flatMap fun read =>
    next' read.1 read.2 := rfl
  rw [unfolded, unfolded']
  -- The first reading behind which there is a way on decides.
  generalize first place = reads at alike ⊢
  generalize first' place' = reads' at alike ⊢
  induction alike with
  | nil => exact .none
  | cons here _ ih =>
    obtain ⟨taken, taken', took, took', ends, related⟩ := here
    have heads := onward _ _ _ _ related _ _ ends
    rw [List.flatMap_cons, List.flatMap_cons, List.head?_append, List.head?_append]
    generalize (next _ _).head? = head at heads ⊢
    generalize (next' _ _).head? = head' at heads ⊢
    cases heads with
    | none => exact ih
    | some found =>
      obtain ⟨more, more', tookMore, tookMore', endsMore, relatedMore⟩ := found
      exact .some ⟨taken ++ more, taken' ++ more', took.trans tookMore, took'.trans tookMore',
        endsMore, relatedMore⟩

end Reader

/-- How many characters of a text are no blanks. -/
def solids (text : List Char) : Nat :=
  text.countP (!isBlank ·)

theorem solids_append (one other : List Char) : solids (one ++ other) = solids one + solids other :=
  List.countP_append

/-- Squeezing a text keeps its characters other than blanks. -/
theorem solids_squeezed (text : List Char) : solids (squeezed text) = solids text := by
  -- Squeezing drops blanks and replaces them, and none of them is counted.
  induction text with
  | nil => rfl
  | cons c rest ih =>
    unfold solids at ih ⊢
    by_cases blank : isBlank c = true
    · have space : isBlank ' ' = true := by decide
      by_cases next : rest.head?.any isBlank = true
      · simp [squeezed, blank, next, ih]
      · simp [squeezed, blank, next, space, ih]
    · simp [squeezed, blank, ih]

/-- A position in a text that holds no blank, with the number of such positions before it. -/
def Ranked (text : List Char) (position rank : Nat) : Prop :=
  ∃ front c back, text = front ++ c :: back ∧ front.length = position ∧ isBlank c = false ∧
    solids front = rank

/-- A later position has a higher rank. -/
theorem Ranked.lt {text : List Char} {one other rank rank' : Nat} (ranked : Ranked text one rank)
    (ranked' : Ranked text other rank') (earlier : one < other) : rank < rank' := by
  obtain ⟨front, c, back, rfl, rfl, solid, rfl⟩ := ranked
  obtain ⟨front', d, back', split, rfl, _, rfl⟩ := ranked'
  -- The longer front holds the shorter one and the character behind it.
  rcases append_cons_cases split with ⟨more, rfl, _⟩ | ⟨rfl, _⟩ | ⟨more, rfl, _⟩
  · simp only [solids, List.countP_append, List.countP_cons, solid, Bool.not_false, if_true]
    omega
  · omega
  · simp only [List.length_append] at earlier
    omega

/-- Positions come in the order of their ranks. -/
theorem Ranked.le_iff {text : List Char} {one other rank rank' : Nat}
    (ranked : Ranked text one rank) (ranked' : Ranked text other rank') :
    one ≤ other ↔ rank ≤ rank' := by
  have upward := ranked.lt ranked'
  have downward := ranked'.lt ranked
  constructor
  · intro earlier
    rcases Nat.lt_or_eq_of_le earlier with less | rfl
    · exact Nat.le_of_lt (upward less)
    · -- The same position has one rank.
      obtain ⟨front, c, back, rfl, sized, _, rfl⟩ := ranked
      obtain ⟨front', d, back', split, sized', _, rfl⟩ := ranked'
      rw [(List.append_inj split (by omega)).1]
  · intro lower
    by_contra later
    have := downward (by omega)
    omega

namespace Reader

variable {α α' : Type} {R : List Char → List Char → Prop}

/-- Two findings that begin at positions of one rank and have related values. -/
def FoundAlike (Q : α → α' → Prop) (text text' : List Char) (found : Found α) (found' : Found α') :
    Prop :=
  ∃ rank, Ranked text found.start rank ∧ Ranked text' found'.start rank ∧ Q found.value found'.value

/-- Searches that have come to places of two texts find alike from there on. What they have passed
counts for the ranks. -/
def SearchAlike (Q : α → α' → Prop) (reader : Reader α) (reader' : Reader α')
    (seen seen' : List Char) (before before' : Option Char) (text text' : List Char) : Prop :=
  List.Forall₂ (FoundAlike Q (seen ++ text) (seen' ++ text'))
    (reader.allFrom seen.length before 0 text) (reader'.allFrom seen'.length before' 0 text')

section SearchAlike

variable {Q : α → α' → Prop} {reader : Reader α} {reader' : Reader α'}
  {seen seen' taken taken' rest rest' : List Char}
  {before before' : Option Char}

/-- Where both searches pass over something, they find alike if they do so behind it. -/
theorem SearchAlike.passed
    (skipped : reader.allFrom seen.length before 0 (taken ++ rest) =
      reader.allFrom (seen.length + taken.length) (taken.getLast?.or before) 0 rest)
    (skipped' : reader'.allFrom seen'.length before' 0 (taken' ++ rest') =
      reader'.allFrom (seen'.length + taken'.length) (taken'.getLast?.or before') 0 rest')
    (later :
      SearchAlike Q reader reader' (seen ++ taken) (seen' ++ taken') (taken.getLast?.or before)
      (taken'.getLast?.or before') rest rest') :
    SearchAlike Q reader reader' seen seen' before before' (taken ++ rest) (taken' ++ rest') := by
  unfold SearchAlike at later ⊢
  rw [List.append_assoc, List.append_assoc, List.length_append, List.length_append] at later
  rw [skipped, skipped']
  exact later

/-- Where both searches find something, they find alike if these findings are alike and what comes
behind them is. -/
theorem SearchAlike.found {value : α} {value' : α'} (nonempty : taken ≠ [])
    (nonempty' : taken' ≠ []) (prefers : Prefers reader seen.length before taken rest value)
    (prefers' : Prefers reader' seen'.length before' taken' rest' value')
    (here : ∃ rank, Ranked (seen ++ (taken ++ rest)) seen.length rank ∧
      Ranked (seen' ++ (taken' ++ rest')) seen'.length rank ∧ Q value value')
    (later :
      SearchAlike Q reader reader' (seen ++ taken) (seen' ++ taken') (taken.getLast?.or before)
      (taken'.getLast?.or before') rest rest') :
    SearchAlike Q reader reader' seen seen' before before' (taken ++ rest) (taken' ++ rest') := by
  unfold SearchAlike at later ⊢
  rw [List.append_assoc, List.append_assoc, List.length_append, List.length_append] at later
  rw [allFrom_prefers nonempty prefers, allFrom_prefers nonempty' prefers']
  exact .cons here later

/-- A search passes over a character at which nothing is found. -/
theorem allFrom_of_head? {offset : Nat} {c : Char}
    (nothing : (reader ⟨offset, before, c :: rest⟩).head? = none) :
    reader.allFrom offset before 0 ([c] ++ rest) =
      reader.allFrom (offset + [c].length) ([c].getLast?.or before) 0 rest := by
  refine allFrom_append fun front d back split => ?_
  -- The only place in the stretch is its front.
  cases front with
  | nil =>
    obtain ⟨rfl, rfl⟩ := List.cons.inj split
    exact List.head?_eq_none_iff.mp nothing
  | cons e front => simp at split

end SearchAlike

/-- No character of blanks is counted. -/
theorem solids_of_isBlank {run : List Char} (allBlank : ∀ c ∈ run, isBlank c = true) :
    solids run = 0 := by
  rw [solids, List.countP_eq_zero]
  intro c inside
  simp [allBlank c inside]

/-- A search finds alike in texts that look alike. -/
theorem HeadAlike.searchAlike (relayout : Relayout R) {P : α → List Char → α' → List Char → Prop}
    {reader : Reader α} {reader' : Reader α'} (alike : HeadAlike R P reader reader')
    (related : ∀ value taken value' taken', P value taken value' taken' →
      taken ≠ [] ∧ taken' ≠ [] ∧ Text.squeezed taken = Text.squeezed taken')
    {p : Char → Bool} (solid : Solid p) (begins : Begins reader p) (begins' : Begins reader' p)
    {text text' seen seen' : List Char} {before before' : Option Char}
    (level : Abreast R ⟨seen.length, before, text⟩ ⟨seen'.length, before', text'⟩)
    (sameSeen : solids seen = solids seen') :
    SearchAlike (fun value value' => ∃ taken taken', P value taken value' taken') reader reader'
      seen seen' before before' text text' := by
  -- A step passes over one character, over a run of blanks or over what was found.
  induction sized : text.length using Nat.strongRecOn
    generalizing text text' seen seen' before before' with
  | ind length ih =>
    subst sized
    cases text with
    | nil =>
      obtain rfl : text' = [] := relayout.nil level.rest
      exact .nil
    | cons c rest =>
      by_cases blank : isBlank c = true
      · obtain ⟨d, rest', rfl, blank', alikeRest⟩ := relayout.blank blank level.rest
        obtain ⟨run, split, all, last, _⟩ := Parallel.took_blanks blank seen.length before rest
        obtain ⟨run', split', all', last', _⟩ :=
          Parallel.took_blanks blank' seen'.length before' rest'
        have whole : c :: rest = c :: run ++ trimStart rest := by rw [List.cons_append, ← split]
        have whole' : d :: rest' = d :: run' ++ trimStart rest' := by
          rw [List.cons_append, ← split']
        have shorter : (trimStart rest).length < (c :: rest).length :=
          Nat.lt_succ_of_le (length_trimStart_le rest)
        rw [whole, whole']
        -- Nothing begins with a blank, and the runs of blanks count nothing.
        refine .passed (begins.allFrom_append (fun e inside => solid e (all e inside)) _ _ _)
          (begins'.allFrom_append (fun e inside => solid e (all' e inside)) _ _ _)
            (ih _ shorter ?_ ?_ rfl)
        · rw [getLast?_or_cons before] at last
          rw [getLast?_or_cons before'] at last'
          exact abreast_of_trimStart alikeRest last last'
        · rw [solids_append, solids_append, solids_of_isBlank all, solids_of_isBlank all', sameSeen]
      · have notBlank : isBlank c = false := by simpa using blank
        obtain ⟨rest', rfl, alikeRest⟩ := relayout.solid notBlank level.rest
        rcases rel_cases (alike _ _ level) with ⟨first, first'⟩ |
          ⟨⟨value, after⟩, ⟨value', after'⟩, first, first', taken, taken', took, took', ends,
            relatedValues⟩
        · -- Nothing is found at the same character of both texts.
          refine SearchAlike.passed (allFrom_of_head? first) (allFrom_of_head? first') ?_
          exact ih _ (Nat.lt_succ_self _) (abreast_of_solid notBlank alikeRest)
            (by rw [solids_append, solids_append, sameSeen]) rfl
        · obtain ⟨nonempty, nonempty', sameTaken⟩ := related _ _ _ _ relatedValues
          have split : c :: rest = taken ++ after.rest := took.rest
          have split' : c :: rest' = taken' ++ after'.rest := took'.rest
          have shorter : after.rest.length < (c :: rest).length := by
            have positive := List.length_pos_iff.mpr nonempty
            rw [split, List.length_append]
            omega
          -- The findings begin at the same character, before which as many stand in both texts.
          have ranked : Ranked (seen ++ (c :: rest)) seen.length (solids seen) :=
            ⟨seen, c, rest, rfl, rfl, notBlank, rfl⟩
          have ranked' : Ranked (seen' ++ (c :: rest')) seen'.length (solids seen) :=
            ⟨seen', c, rest', rfl, rfl, notBlank, sameSeen.symm⟩
          rw [split] at first ranked ⊢
          rw [split'] at first' ranked' ⊢
          refine .found nonempty nonempty' (by rw [Prefers, first, ← took.after])
            (by rw [Prefers, first', ← took'.after])
              ⟨solids seen, ranked, ranked', _, _, relatedValues⟩
            (ih _ shorter ?_ ?_ rfl)
          · rw [took.after, took'.after] at ends
            rw [List.length_append, List.length_append]
            exact ends
          · rw [solids_append, solids_append, sameSeen, ← solids_squeezed taken, sameTaken,
              solids_squeezed]

/-- All that is found in texts that look alike is alike. -/
theorem HeadAlike.all (relayout : Relayout R) {P : α → List Char → α' → List Char → Prop}
    {reader : Reader α} {reader' : Reader α'} (alike : HeadAlike R P reader reader')
    (related : ∀ value taken value' taken', P value taken value' taken' →
      taken ≠ [] ∧ taken' ≠ [] ∧ Text.squeezed taken = Text.squeezed taken')
    {p : Char → Bool} (solid : Solid p) (begins : Begins reader p) (begins' : Begins reader' p)
    {text text' : List Char} (same : R text text') :
    List.Forall₂
      (FoundAlike (fun value value' => ∃ taken taken', P value taken value' taken') text text')
      (reader.all text) (reader'.all text') := by
  have level : Abreast R ⟨([] : List Char).length, none, text⟩
    ⟨([] : List Char).length, none, text'⟩ :=
    ⟨same, Or.inl rfl, rfl, rfl⟩
  exact alike.searchAlike relayout related solid begins begins' level rfl

end Reader

end Lineage.Text
