import Lineage.Page.Template

/-! What becomes of a template: text without a dollar sign stays as it is, and a place becomes its
value. So a page has the fixed parts of the template, and between them the values of its places. -/

namespace Lineage.Page

section Filling

variable {values : List (String × List Char)}

/-- Characters that belong to a place are passed over. -/
theorem filledFrom_eq_filled_drop (skip : Nat) (text : List Char) :
    filledFrom values skip text = filled values (text.drop skip) := by
  -- Each character that is passed over is one that is dropped.
  induction text generalizing skip with
  | nil =>
    rw [List.drop_nil]
    cases skip <;> rfl
  | cons c rest ih =>
    cases skip with
    | zero => rfl
    | succ skip => exact ih skip

/-- Text without a dollar sign stays as it is. -/
theorem filled_append_of_plain {text : List Char} (plain : '$' ∉ text) (rest : List Char) :
    filled values (text ++ rest) = text ++ filled values rest := by
  induction text with
  | nil => rfl
  | cons c text ih =>
    obtain ⟨other, plain⟩ := not_or.mp (mt List.mem_cons.mpr plain)
    have passed : filled values (c :: (text ++ rest)) = c :: filled values (text ++ rest) := by
      rw [filled, filledFrom, if_neg (by simpa using Ne.symm other)]
      rfl
    rw [List.cons_append, passed, ih plain]
    rfl

/-- Whether a text is a name that a place can have. -/
def isName : List Char → Bool
  | [] => false
  | c :: rest => isNameStart c && rest.all isNameChar

/-- A place in a template: a dollar sign and a name in braces. -/
def place (name : String) : List Char :=
  '$' :: '\x7b' :: (name.toList ++ ['\x7d'])

/-- A name in front of a brace is read as a whole. -/
theorem frontName_append_brace {name : List Char} (named : isName name = true) (rest : List Char) :
    frontName (name ++ '\x7d' :: rest) = name := by
  cases name with
  | nil => cases named
  | cons c more =>
    obtain ⟨start, others⟩ := (Bool.and_eq_true _ _).mp named
    -- The brace is no character of a name, so the name ends in front of it.
    have whole : (more ++ '\x7d' :: rest).takeWhile isNameChar = more := by
      rw [List.takeWhile_append_of_pos (List.all_eq_true.mp others)]
      exact List.append_nil more
    rw [List.cons_append, frontName, if_pos start, whole]

/-- A place that has a value becomes it. -/
theorem filled_place {name : String} {value : List Char} (named : isName name.toList = true)
    (given : values.lookup name = some value) (rest : List Char) :
    filled values (place name ++ rest) = value ++ filled values rest := by
  have front := frontName_append_brace named rest
  have nonempty : name.toList.isEmpty = false := by
    cases chars : name.toList with
    | nil =>
      rw [chars] at named
      cases named
    | cons c more => rfl
  have mark : markBefore ('\x7b' :: (name.toList ++ '\x7d' :: rest)) =
      (.place name.toList, name.toList.length + 2) := by
    show bracedMark (name.toList ++ '\x7d' :: rest) = _
    rw [bracedMark, front, nonempty, List.drop_left]
    rfl
  have written : place name ++ rest = '$' :: '\x7b' :: (name.toList ++ '\x7d' :: rest) := by
    simp [place]
  -- What is left behind the mark is what follows the closing brace.
  have behind : ('\x7b' :: (name.toList ++ '\x7d' :: rest)).drop (name.toList.length + 2) =
      rest := by
    rw [List.drop_succ_cons, ← List.drop_drop, List.drop_left]
    rfl
  rw [written, filled, filledFrom, if_pos (beq_self_eq_true '$'), mark]
  dsimp only
  rw [filledFrom_eq_filled_drop, behind, Mark.filled, String.ofList_toList, given]
  rfl

/-- A template that consists of fixed parts, each with the name of the place behind it, and a last
part. -/
def layout (parts : List (List Char × String)) (last : List Char) : List Char :=
  parts.flatMap (fun part => part.1 ++ place part.2) ++ last

/-- In such a template each place becomes its value, and no value is looked at again: it may hold
dollar signs, and places as well. -/
theorem filled_layout {parts : List (List Char × String)} {last : List Char}
    {value : String → List Char} (plain : ∀ part ∈ parts, '$' ∉ part.1) (plainLast : '$' ∉ last)
    (named : ∀ part ∈ parts, isName part.2.toList = true)
    (given : ∀ part ∈ parts, values.lookup part.2 = some (value part.2)) :
    filled values (layout parts last) =
      parts.flatMap (fun part => part.1 ++ value part.2) ++ last := by
  -- The parts are filled one by one from the left.
  induction parts with
  | nil =>
    have whole : filled values (last ++ []) = last ++ filled values [] :=
      filled_append_of_plain plainLast []
    rw [List.append_nil] at whole
    exact whole.trans (List.append_nil last)
  | cons part parts ih =>
    have rest := ih (fun other among => plain other (.tail part among))
      (fun other among => named other (.tail part among))
      (fun other among => given other (.tail part among))
    have first : layout (part :: parts) last = part.1 ++ (place part.2 ++ layout parts last) := by
      simp [layout]
    rw [first, filled_append_of_plain (plain part List.mem_cons_self),
      filled_place (named part List.mem_cons_self) (given part List.mem_cons_self), rest]
    simp

end Filling

section Parts

/-- The text before the first place of a template. -/
def beforePlace (text : List Char) : List Char :=
  text.takeWhile (· != '$')

/-- The text behind the first place of a template. -/
def behindPlace (text : List Char) : List Char :=
  ((text.dropWhile (· != '$')).dropWhile (· != '\x7d')).tail

/-- The page up to its title. -/
def beforeTitle : List Char :=
  beforePlace template.toList

/-- The page from its title to its heading. -/
def beforeHeading : List Char :=
  beforePlace (behindPlace template.toList)

/-- The page from its heading to the data of its script. -/
def beforeData : List Char :=
  beforePlace (behindPlace (behindPlace template.toList))

/-- The page from the data of its script to its end. -/
def afterData : List Char :=
  behindPlace (behindPlace (behindPlace template.toList))

/-- A text has two places for a title and one for data, and no dollar sign besides. -/
def HasPlaces (text : List Char) : Prop :=
  text = layout [(beforePlace text, "TITLE"), (beforePlace (behindPlace text), "TITLE"),
      (beforePlace (behindPlace (behindPlace text)), "DATA_JSON")]
    (behindPlace (behindPlace (behindPlace text))) ∧
  '$' ∉ behindPlace (behindPlace (behindPlace text))

instance decidableHasPlaces (text : List Char) : Decidable (HasPlaces text) :=
  inferInstanceAs (Decidable (_ ∧ _))

/-- The template has these places. -/
theorem hasPlaces_template : HasPlaces template.toList := by
  -- The lines are opened one by one, since the joined text is too long to be evaluated as one
  -- literal.
  rw [template, String.toList_intercalate]
  simp only [List.map_cons, List.map_nil, String.toList_append]
  repeat rw [String.toList_ofList]
  decide +kernel

/-- The template consists of four fixed parts around its three places. -/
theorem template_eq_layout : template.toList =
    layout [(beforeTitle, "TITLE"), (beforeHeading, "TITLE"), (beforeData, "DATA_JSON")]
      afterData :=
  hasPlaces_template.1

/-- What lies before the first place of a template has no dollar sign. -/
theorem plain_beforePlace (text : List Char) : '$' ∉ beforePlace text := by
  intro inside
  cases List.all_eq_true.mp List.all_takeWhile '$' inside

/-- The template filled with data and a title has both between its fixed parts, whatever they
are. -/
theorem filled_template (script heading : List Char) :
    filled [("DATA_JSON", script), ("TITLE", heading)] template.toList =
      beforeTitle ++ heading ++ beforeHeading ++ heading ++ beforeData ++ script ++ afterData := by
  -- The template is laid out by its three places, and each has a value.
  have filling := @filled_layout [("DATA_JSON", script), ("TITLE", heading)]
    [(beforeTitle, "TITLE"), (beforeHeading, "TITLE"), (beforeData, "DATA_JSON")] afterData
    (fun name => if name = "TITLE" then heading else script)
    ?plain hasPlaces_template.2 ?named ?given
  case plain =>
    simp only [List.forall_mem_cons]
    exact ⟨plain_beforePlace _, plain_beforePlace _, plain_beforePlace _, by simp⟩
  case named =>
    simp only [List.forall_mem_cons]
    exact ⟨by decide +kernel, by decide +kernel, by decide +kernel, by simp⟩
  case given =>
    simp only [List.forall_mem_cons]
    exact ⟨rfl, rfl, rfl, by simp⟩
  rw [template_eq_layout, filling]
  simp

end Parts

end Lineage.Page
