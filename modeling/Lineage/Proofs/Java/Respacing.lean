import Lineage.Proofs.Java.Grammar
import Lineage.Proofs.Java.Layout

/-! A text may be laid out anew: any blanks in place of its runs of blanks leave its declarations as
they are. -/

namespace Lineage.Java

open Lineage.Text

/-- The text with other blanks in place of its runs of blanks: the first run gives way to `runs 0`,
the next one to `runs 1`, and so on. -/
def respaced (runs : Nat → Spacing) : List Char → List Char
  | [] => []
  | c :: rest =>
    if isBlank c then (runs 0).text ++ respaced (fun number => runs (number + 1)) (trimStart rest)
    else c :: respaced runs rest
termination_by text => text.length
decreasing_by
  · exact Nat.lt_succ_of_le (length_trimStart_le rest)
  · exact Nat.lt_succ_self rest.length

/-- Blanks and nothing else are squeezed to one space. -/
theorem Spacing.squeezed_text (space : Spacing) : squeezed space.text = [' '] := by
  -- The first blank becomes the space, and those behind it are dropped.
  obtain ⟨c, rest, isText⟩ := List.exists_cons_of_ne_nil space.nonempty
  have blank : ∀ d ∈ c :: rest, isBlank d = true := isText ▸ space.blank
  have trimmed : trimStart (rest ++ []) = [] :=
    trimStart_append (fun d inside => blank d (List.mem_cons_of_mem c inside)) rfl
  rw [List.append_nil] at trimmed
  rw [isText, squeezed_blank (blank c List.mem_cons_self), trimmed]
  rfl

/-- A text that begins with no blank still does so when it is laid out anew. -/
theorem head?_respaced (runs : Nat → Spacing) {text : List Char}
    (begins : text.head?.any isBlank = false) :
    (respaced runs text).head?.any isBlank = false := by
  fun_cases respaced runs text with
  | case1 => rfl
  | case2 c rest blank =>
    -- The text would begin with a blank.
    rw [List.head?_cons, Option.any_some, blank] at begins
    cases begins
  | case3 c rest solid => exact begins

/-- A text that is laid out anew looks like the one that it was. -/
theorem squeezed_respaced (runs : Nat → Spacing) (text : List Char) :
    squeezed (respaced runs text) = squeezed text := by
  fun_induction respaced runs text with
  | case1 => rfl
  | case2 runs c rest blank ih =>
    -- The new blanks end where the old ones did, since none stands behind these.
    have apart := head?_respaced (fun number => runs (number + 1)) (head?_trimStart rest)
    rw [squeezed_append (Or.inr apart), (runs 0).squeezed_text, ih, squeezed_blank blank]
    rfl
  | case3 runs c rest solid ih =>
    have notBlank : isBlank c = false := by simpa using solid
    rw [squeezed_solid notBlank, squeezed_solid notBlank, ih]

/-- The layout of a text does not matter: with any other blanks in place of each of its runs of
blanks it has the same declarations. -/
theorem declarationsIn_respaced (runs : Nat → Spacing) (text : List Char) :
    declarationsIn (respaced runs text) = declarationsIn text :=
  declarationsIn_of_relayout relayout_squeezed (squeezed_respaced runs text)

end Lineage.Java
