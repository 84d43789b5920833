import Lineage.Proofs.Text.Blank

/-! Layout: texts that differ in the lengths and the kinds of their blanks only. -/

namespace Lineage.Text

/-- The text with one space in place of each run of blanks. The last blank of a run stands for all
of it. -/
def squeezed : List Char → List Char
  | [] => []
  | c :: rest =>
    if isBlank c then
      if rest.head?.any isBlank then squeezed rest else ' ' :: squeezed rest
    else c :: squeezed rest

theorem squeezed_solid {c : Char} (solid : isBlank c = false) (rest : List Char) :
    squeezed (c :: rest) = c :: squeezed rest := by
  simp [squeezed, solid]

/-- The blanks at the front of a text are squeezed to one space. -/
theorem squeezed_blank {c : Char} (blank : isBlank c = true) (rest : List Char) :
    squeezed (c :: rest) = ' ' :: squeezed (trimStart rest) := by
  induction rest generalizing c with
  | nil => simp [squeezed, blank, trimStart]
  | cons d rest ih =>
    by_cases next : isBlank d = true
    · -- The blank is dropped in favour of the next one.
      have dropped : squeezed (c :: d :: rest) = squeezed (d :: rest) := by
        simp [squeezed, blank, next]
      rw [dropped, ih next, trimStart, trimStart, List.dropWhile_cons_of_pos next]
    · have kept : trimStart (d :: rest) = d :: rest := List.dropWhile_cons_of_neg next
      rw [kept]
      simp [squeezed, blank, next]

/-- Texts are squeezed one by one unless a run of blanks reaches from one into the other. -/
theorem squeezed_append {left right : List Char}
    (apart : left.getLast?.any isBlank = false ∨ right.head?.any isBlank = false) :
    squeezed (left ++ right) = squeezed left ++ squeezed right := by
  induction left with
  | nil => rfl
  | cons c left ih =>
    cases left with
    | nil =>
      -- The only character meets the other text.
      by_cases blank : isBlank c = true
      · have outside : right.head?.any isBlank = false := by simpa [blank] using apart
        simp [squeezed, blank, outside]
      · simp [squeezed, blank]
    | cons d left =>
      have later := ih (by simpa using apart)
      rw [List.cons_append] at later
      rw [List.cons_append, List.cons_append]
      by_cases blank : isBlank c = true
      · by_cases next : isBlank d = true
        · have dropped : ∀ more, squeezed (c :: d :: more) = squeezed (d :: more) := by
            intro more
            simp [squeezed, blank, next]
          rw [dropped, dropped, later]
        · have kept : ∀ more, squeezed (c :: d :: more) = ' ' :: squeezed (d :: more) := by
            intro more
            simp [squeezed, blank, next]
          rw [kept, kept, later, List.cons_append]
      · have solid : isBlank c = false := by simpa using blank
        rw [squeezed_solid solid, squeezed_solid solid, later, List.cons_append]

/-- A space before a blank is squeezed away. -/
theorem squeezed_space {c : Char} (blank : isBlank c = true) (left right : List Char) :
    squeezed (left ++ ' ' :: c :: right) = squeezed (left ++ c :: right) := by
  have space : isBlank ' ' = true := by decide
  induction left with
  | nil => simp [squeezed, space, blank]
  | cons d left ih =>
    -- What stands behind the first character is a blank in both texts or in neither.
    have next : (left ++ ' ' :: c :: right).head?.any isBlank =
        (left ++ c :: right).head?.any isBlank := by
      cases left with
      | nil => simp [space, blank]
      | cons e left => rfl
    rw [List.cons_append, List.cons_append, squeezed, squeezed, next, ih]

/-- Two texts look alike when one becomes the other by changing the lengths and the kinds of its
blanks. What is asked of a relation for that is that both texts go on with the same character, or
both with blanks and alike behind these. -/
structure Relayout (R : List Char → List Char → Prop) : Prop where
  nil : ∀ {text}, R [] text → text = []
  solid : ∀ {c rest text}, isBlank c = false → R (c :: rest) text →
    ∃ rest', text = c :: rest' ∧ R rest rest'
  blank : ∀ {c rest text}, isBlank c = true → R (c :: rest) text →
    ∃ d rest', text = d :: rest' ∧ isBlank d = true ∧ R (trimStart rest) (trimStart rest')

section Relayout

variable {R : List Char → List Char → Prop}

/-- Texts that look alike are squeezed to the same text. -/
theorem Relayout.squeezed_eq (relayout : Relayout R) {text text' : List Char}
    (alike : R text text') :
    squeezed text = squeezed text' := by
  -- Each step leaves a shorter text, but a run of blanks is passed in one step.
  induction sized : text.length using Nat.strongRecOn generalizing text text' with
  | ind length ih =>
    subst sized
    cases text with
    | nil => rw [relayout.nil alike]
    | cons c rest =>
      by_cases blank : isBlank c = true
      · obtain ⟨d, rest', rfl, blank', alikeRest⟩ := relayout.blank blank alike
        have shorter := length_trimStart_le rest
        rw [squeezed_blank blank, squeezed_blank blank', ih _ (by simp; omega) alikeRest rfl]
      · have solid : isBlank c = false := by simpa using blank
        obtain ⟨rest', rfl, alikeRest⟩ := relayout.solid solid alike
        rw [squeezed_solid solid, squeezed_solid solid, ih _ (by simp) alikeRest rfl]

/-- To be squeezed to the same text is such a relation. -/
theorem relayout_squeezed : Relayout fun text text' => squeezed text = squeezed text' where
  nil := by
    intro text same
    cases text with
    | nil => rfl
    | cons c rest =>
      -- Something is left of a text with a character in it.
      by_cases blank : isBlank c = true
      · rw [squeezed_blank blank] at same
        cases same
      · rw [squeezed_solid (by simpa using blank)] at same
        cases same
  solid := by
    intro c rest text solid same
    rw [squeezed_solid solid] at same
    cases text with
    | nil => cases same
    | cons d rest' =>
      by_cases blank : isBlank d = true
      · -- A space is never left as a character of its own.
        rw [squeezed_blank blank] at same
        obtain ⟨rfl, _⟩ := List.cons.inj same
        cases solid
      · rw [squeezed_solid (by simpa using blank)] at same
        obtain ⟨rfl, sameRest⟩ := List.cons.inj same
        exact ⟨rest', rfl, sameRest⟩
  blank := by
    intro c rest text blank same
    rw [squeezed_blank blank] at same
    cases text with
    | nil => cases same
    | cons d rest' =>
      by_cases blank' : isBlank d = true
      · rw [squeezed_blank blank'] at same
        exact ⟨d, rest', rfl, blank', (List.cons.inj same).2⟩
      · -- The space stands for a blank, so no other character is in its place.
        rw [squeezed_solid (by simpa using blank')] at same
        obtain ⟨rfl, _⟩ := List.cons.inj same
        exact absurd rfl blank'

/-- Texts that look alike both begin with a character of a class without blanks, or neither does. -/
theorem Relayout.any_head? (relayout : Relayout R) {p : Char → Bool}
    (solid : ∀ c, isBlank c = true → p c = false) {text text' : List Char} (alike : R text text') :
    text.head?.any p = text'.head?.any p := by
  -- Both texts begin with the same character, or with blanks, or not at all.
  cases text with
  | nil => rw [relayout.nil alike]
  | cons c rest =>
    by_cases blank : isBlank c = true
    · obtain ⟨d, rest', rfl, blank', _⟩ := relayout.blank blank alike
      simp [solid c blank, solid d blank']
    · obtain ⟨rest', rfl, _⟩ := relayout.solid (by simpa using blank) alike
      rfl

/-- To look alike goes both ways. -/
theorem Relayout.symm (relayout : Relayout R) : Relayout fun text text' => R text' text where
  nil := by
    intro text alike
    cases text with
    | nil => rfl
    | cons c rest =>
      by_cases blank : isBlank c = true
      · obtain ⟨_, _, same, _⟩ := relayout.blank blank alike
        cases same
      · obtain ⟨_, same, _⟩ := relayout.solid (by simpa using blank) alike
        cases same
  solid := by
    intro c rest text solid alike
    cases text with
    | nil => cases relayout.nil alike
    | cons d rest' =>
      by_cases blank : isBlank d = true
      · -- A blank has a blank as its counterpart.
        obtain ⟨_, _, same, blank', _⟩ := relayout.blank blank alike
        cases same
        rw [solid] at blank'
        cases blank'
      · obtain ⟨_, same, alikeRest⟩ := relayout.solid (by simpa using blank) alike
        cases same
        exact ⟨rest', rfl, alikeRest⟩
  blank := by
    intro c rest text blank alike
    cases text with
    | nil => cases relayout.nil alike
    | cons d rest' =>
      by_cases blank' : isBlank d = true
      · obtain ⟨_, _, same, _, alikeRest⟩ := relayout.blank blank' alike
        cases same
        exact ⟨d, rest', rfl, blank', alikeRest⟩
      · obtain ⟨_, same, _⟩ := relayout.solid (by simpa using blank') alike
        cases same
        exact absurd blank blank'

/-- A word without blanks is the same in both texts. -/
theorem Relayout.word (relayout : Relayout R) {word rest text' : List Char}
    (solid : ∀ c ∈ word, isBlank c = false) (alike : R (word ++ rest) text') :
    ∃ rest', text' = word ++ rest' ∧ R rest rest' := by
  induction word generalizing text' with
  | nil => exact ⟨text', rfl, alike⟩
  | cons c word ih =>
    obtain ⟨more, rfl, alikeMore⟩ := relayout.solid (solid c List.mem_cons_self) alike
    obtain ⟨rest', rfl, alikeRest⟩ :=
      ih (fun d inside => solid d (List.mem_cons_of_mem c inside)) alikeMore
    exact ⟨rest', rfl, alikeRest⟩

/-- What of a class with all the blanks in it stands before a mark stands before the same mark in
the other text. -/
theorem Relayout.upTo (relayout : Relayout R) {p : Char → Bool}
    (blanksFit : ∀ c, isBlank c = true → p c = true) {taken rest text' : List Char} {mark : Char}
    (all : ∀ c ∈ taken, p c = true) (solid : isBlank mark = false)
    (alike : R (taken ++ mark :: rest) text') :
    ∃ taken' rest', text' = taken' ++ mark :: rest' ∧
      (∀ c ∈ taken', p c = true) ∧ R (mark :: rest) (mark :: rest') ∧
      taken.head?.any isBlank = taken'.head?.any isBlank := by
  -- A run of blanks is passed in one step.
  induction sized : taken.length using Nat.strongRecOn generalizing taken text' with
  | ind length ih =>
    subst sized
    cases taken with
    | nil =>
      obtain ⟨rest', rfl, _⟩ := relayout.solid solid alike
      exact ⟨[], rest', rfl, by simp, alike, rfl⟩
    | cons c taken =>
      have further : ∀ d ∈ taken, p d = true :=
        fun d inside => all d (List.mem_cons_of_mem c inside)
      rw [List.cons_append] at alike
      by_cases blank : isBlank c = true
      · obtain ⟨d, more, rfl, blank', alikeMore⟩ := relayout.blank blank alike
        obtain ⟨run, split, allBlank⟩ := exists_trimStart taken
        obtain ⟨run', split', allBlank'⟩ := exists_trimStart more
        -- The mark is no blank, so trimming stops before it.
        have trimmed : trimStart (taken ++ mark :: rest) = trimStart taken ++ mark :: rest := by
          unfold trimStart
          rw [List.dropWhile_append]
          split
          · rename_i gone
            rw [List.isEmpty_iff.mp gone, List.nil_append,
              List.dropWhile_cons_of_neg (by simp [solid])]
          · rfl
        rw [trimmed] at alikeMore
        obtain ⟨taken', rest', isMore, all', alikeRest, _⟩ :=
          ih _ (Nat.lt_succ_of_le (length_trimStart_le taken))
          (fun e inside => further e (by rw [split]; exact List.mem_append_right run inside))
            alikeMore rfl
        -- The blanks of the other text come before what is taken behind them.
        refine ⟨d :: (run' ++ taken'), rest', ?_, ?_, alikeRest, ?_⟩
        · rw [split', isMore]
          simp
        · have passed : ∀ e ∈ run', p e = true := fun e inside => blanksFit e (allBlank' e inside)
          simpa [blanksFit d blank'] using List.forall_mem_append.mpr ⟨passed, all'⟩
        · simp [blank, blank']
      · obtain ⟨more, rfl, alikeMore⟩ := relayout.solid (by simpa using blank) alike
        obtain ⟨taken', rest', rfl, all', alikeRest, _⟩ := ih _ (by simp) further alikeMore rfl
        exact ⟨c :: taken', rest', rfl, by simpa [all c List.mem_cons_self] using all', alikeRest,
          rfl⟩

end Relayout

end Lineage.Text
