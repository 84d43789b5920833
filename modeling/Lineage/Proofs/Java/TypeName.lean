import Lineage.Java.TypeName
import Mathlib.Data.List.TakeWhile

/-! Simple names: what stands behind the last dot. -/

namespace Lineage.Java

open Lineage.Text

/-- A text without dots is all behind the last one. -/
theorem afterLastDot_of_noDot {text : List Char} (noDot : '.' ∉ text) :
    afterLastDot text = text := by
  have passed : text.reverse.takeWhile (· != '.') = text.reverse := by
    rw [List.takeWhile_eq_self_iff]
    intro c inside
    have different : c ≠ '.' := fun same => noDot (same ▸ List.mem_reverse.mp inside)
    simp [different]
  rw [afterLastDot, passed, List.reverse_reverse]

/-- What stands before a dot does not matter for what stands behind the last one. -/
theorem afterLastDot_append_dot (front text : List Char) :
    afterLastDot (front ++ '.' :: text) = afterLastDot text := by
  -- Read backwards, the text ends at its own first dot, or else at the one before it.
  rw [afterLastDot, afterLastDot, List.reverse_append, List.reverse_cons, List.append_assoc,
    List.singleton_append, List.takeWhile_append]
  split
  · rename_i noDot
    rw [List.takeWhile_cons_of_neg (by simp), List.append_nil,
      (List.takeWhile_prefix _).eq_of_length noDot]
  · rfl

/-- Behind a dot that no other one follows, all of the text is left. -/
theorem afterLastDot_append_cons (front : List Char) {text : List Char} (noDot : '.' ∉ text) :
    afterLastDot (front ++ '.' :: text) = text := by
  rw [afterLastDot_append_dot, afterLastDot_of_noDot noDot]

end Lineage.Java
