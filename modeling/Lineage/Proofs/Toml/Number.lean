import Lineage.Proofs.Text.Preferred
import Lineage.Toml.Document

/-! A whole number with too many digits is no fault of form, and it ends the reading of a
document. -/

namespace Lineage.Toml

open Lineage.Text Lineage.Text.Reader

namespace Step

variable {α β : Type} {one : Step α} {next : α → Step β} {text rest : List Char} {found : α}
  {fault : Fault}

/-- What follows a step that is done goes on with the rest. -/
theorem run_bind_of_ok (read : one.run text = .ok (found, rest)) :
    (one >>= next).run text = (next found).run rest := by
  rw [StateT.run_bind, read]
  rfl

theorem run_bind_of_error (failed : one.run text = .error fault) :
    (one >>= next).run text = .error fault := by
  rw [StateT.run_bind, failed]
  rfl

/-- A choice by a mark that is not there. -/
theorem run_sees_of_not {mark : List Char} {seen unseen : Step β}
    (missing : mark.isPrefixOf text = false) :
    (do if ← sees mark then seen else unseen).run text = unseen.run text := by
  have look : (sees mark).run text = .ok (false, text) := by
    rw [← missing]
    rfl
  rw [run_bind_of_ok look, if_neg Bool.false_ne_true]

end Step

section

variable {digits : List Char} (all : ∀ c ∈ digits, c.isDigit = true)
include all

/-- Digits are read one by one as long as there are any. -/
theorem prefers_moreDigits (offset : Nat) (before : Option Char) :
    ∃ values, Prefers (many do
        let _ ← optional (char (· == '_'))
        char Char.isDigit) offset before digits [] values := by
  induction digits generalizing offset before with
  | nil => exact ⟨[], .many_none rfl⟩
  | cons c digits ih =>
    have isDigit := all c List.mem_cons_self
    have others : ∀ d ∈ digits, d.isDigit = true :=
      fun d inside => all d (List.mem_cons_of_mem c inside)
    obtain ⟨values, onward⟩ := ih others (offset + 1) (some c)
    -- A digit is no low line.
    have other : (c == '_') = false := by
      cases same : c == '_' with
      | false => rfl
      | true =>
        rw [beq_iff_eq.1 same] at isDigit
        cases isDigit
    have unmarked :
        Prefers (optional (char (· == '_'))) offset before [] ([c] ++ (digits ++ [])) none :=
      .optional_none (by simp [Reader.char, other])
    have here : Prefers (do let _ ← optional (char (· == '_')); char Char.isDigit) offset before
      ([] ++ [c]) (digits ++ []) () := unmarked.bind (.char isDigit)
    exact ⟨() :: values, .many_cons (by simp) here onward⟩

/-- A row of digits is read as one number. -/
theorem prefers_wholeText :
    Prefers wholeText 0 none ('1' :: digits) [] ⟨'1' :: digits, digits.length + 1⟩ := by
  obtain ⟨values, more⟩ := prefers_moreDigits all 1 (some '1')
  have first : Prefers (char fun c => '1' ≤ c && c ≤ '9') 0 none ['1'] (digits ++ []) () :=
    .char rfl
  have inner : Prefers (do
      char fun c => '1' ≤ c && c ≤ '9'
      let _ ← many do
        let _ ← optional (char (· == '_'))
        char Char.isDigit) 0 none (['1'] ++ digits) [] () := first.bind (more.map fun _ => ())
  have stretched := inner.stretch
  simp only [List.singleton_append, List.append_nil, List.length_cons] at stretched
  exact stretched

/-- Digits alone are the whole part of a number without a sign, a point and an exponent. -/
theorem prefers_numberText :
    Prefers numberText 0 none ('1' :: digits) []
      (.decimal false ⟨'1' :: digits, digits.length + 1⟩ none none) := by
  have unsigned : Prefers signText 0 none [] ('1' :: digits) false := by
    have absent : Prefers (optional (stretch (char fun c => c == '+' || c == '-'))) 0 none []
      ('1' :: digits) none :=
      .optional_none rfl
    exact absent.map fun sign => sign.any fun sign => sign.text == ['-']
  have pointless (offset : Nat) (before : Option Char) : Prefers (optional do
      char (· == '.')
      digitRun Char.isDigit) offset before [] [] none := .optional_none rfl
  have unscaled (offset : Nat) (before : Option Char) : Prefers (optional do
      char fun c => c == 'e' || c == 'E'
      let negative ← signText
      let digits ← digitRun Char.isDigit
      return (negative, digits)) offset before [] [] none := .optional_none rfl
  have read : Prefers (do
      let negative ← signText
      let whole ← wholeText
      let fraction ← optional do
        char (· == '.')
        digitRun Char.isDigit
      let exponent ← optional do
        char fun c => c == 'e' || c == 'E'
        let negative ← signText
        let digits ← digitRun Char.isDigit
        return (negative, digits)
      return NumberText.decimal negative whole fraction exponent) 0 none
        ([] ++ ('1' :: digits ++ ([] ++ []))) []
      (.decimal false ⟨'1' :: digits, digits.length + 1⟩ none none) := by
    refine .bind ?_ (.bind (prefers_wholeText all) (.bind (pointless _ _) ((unscaled _ _).map _)))
    simpa only [List.append_nil] using unsigned
  simp only [List.nil_append, List.append_nil] at read
  unfold Prefers at read ⊢
  rw [← read]
  -- The other bases begin with a zero.
  exact congrArg List.head? (List.append_nil _)

end

section

open Step

variable {count : Nat} (long : digitLimit < count + 5)
include long

/-- So many ones are a number, but have no value. -/
theorem run_plainValue_ones :
    plainValue.run (List.replicate (count + 5) '1') = .error (.tooManyDigits (count + 5)) := by
  have ones : ∀ c ∈ List.replicate (count + 4) '1', c.isDigit = true := by
    intro c inside
    rw [List.eq_of_mem_replicate inside]
    rfl
  have number := prefers_numberText ones
  unfold Prefers at number
  rw [List.append_nil, List.length_replicate, ← List.replicate_succ] at number
  have bare : bareDigits ⟨List.replicate (count + 5) '1', count + 5⟩ =
      List.replicate (count + 5) '1' := by
    unfold bareDigits Excerpt.text
    dsimp only
    rw [List.take_of_length_le (by simp)]
    exact List.filter_replicate_of_pos rfl
  have unvalued : NumberText.value
      (.decimal false ⟨List.replicate (count + 5) '1', count + 5⟩ none none) =
        .error (count + 5) := by
    simp only [NumberText.value, bare, List.length_replicate]
    rw [if_pos long]
  -- Five digits in a row begin neither a day nor a time.
  have noMoment : momentText (.start (List.replicate (count + 5) '1')) = [] := rfl
  have noClock : clockText (.start (List.replicate (count + 5) '1')) = [] := rfl
  have start : numberText (.start (List.replicate (count + 5) '1')) =
      numberText ⟨0, none, List.replicate (count + 4 + 1) '1'⟩ := rfl
  unfold plainValue
  simp only [StateT.run_bind, StateT.run_get, pure_bind, noMoment, noClock, start, number,
    List.head?_nil]
  simp only [StateT.run_set, pure_bind, unvalued]
  rfl

/-- A value with too many digits fails. -/
theorem run_value_ones (budget : Nat) :
    (value (budget + 1)).run (List.replicate (count + 5) '1') = .error
      (.tooManyDigits (count + 5)) := by
  rw [value, run_sees_of_not rfl, run_sees_of_not rfl, run_sees_of_not rfl, run_sees_of_not rfl,
    run_sees_of_not rfl, run_sees_of_not rfl, run_sees_of_not rfl, run_sees_of_not rfl]
  exact run_plainValue_ones long

/-- So does an entry with such a value. -/
theorem run_addEntry_ones :
    (addEntry ⟨[], [], [], []⟩ []).run ('x' :: '=' :: List.replicate (count + 5) '1') =
      .error (.tooManyDigits (count + 5)) := by
  have sign : keyAndSign.run ('x' :: '=' :: List.replicate (count + 5) '1') =
      .ok (["x"], List.replicate (count + 5) '1') := rfl
  unfold addEntry
  rw [run_bind_of_ok sign, run_bind_of_ok (StateT.run_get _)]
  exact run_bind_of_error (run_value_ones long _)

/-- A document with so long a number is not read. -/
theorem parse_ones :
    parse ('x' :: '=' :: List.replicate (count + 5) '1') = .error (.tooManyDigits (count + 5)) := by
  -- No line ends are joined, and the first statement fails.
  have joined (digits : Nat) : joinLineEnds (List.replicate digits '1') =
      List.replicate digits '1' := by
    induction digits with
    | zero => rfl
    | succ digits ih => exact congrArg ('1' :: ·) ih
  have source : joinLineEnds ('x' :: '=' :: List.replicate (count + 5) '1') =
      'x' :: '=' :: List.replicate (count + 5) '1' :=
    congrArg (fun rest => 'x' :: '=' :: rest) (joined _)
  have failed (budget : Nat) :
      (statements (budget + 1) ⟨[], [], [], []⟩ []).run
      ('x' :: '=' :: List.replicate (count + 5) '1') =
        .error (.tooManyDigits (count + 5)) := by
    have skipped : (skipAll isTomlBlank).run ('x' :: '=' :: List.replicate (count + 5) '1') =
        .ok ((), 'x' :: '=' :: List.replicate (count + 5) '1') := rfl
    have first : peek.run ('x' :: '=' :: List.replicate (count + 5) '1') =
        .ok (some 'x', 'x' :: '=' :: List.replicate (count + 5) '1') := rfl
    unfold statements
    rw [run_bind_of_ok skipped, run_bind_of_ok first]
    apply run_bind_of_error
    apply run_bind_of_error
    exact run_addEntry_ones long
  unfold parse
  dsimp only
  rw [source, failed]

end

end Lineage.Toml
