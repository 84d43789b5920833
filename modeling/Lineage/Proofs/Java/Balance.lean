import Lineage.Proofs.Java.Grammar
import Mathlib.Data.List.Infix

/-! Balanced angle brackets of any depth: a list of references is cut at the commas outside of all
brackets, and a path with type arguments behind its names comes down to the last of them. -/

namespace Lineage.Java

open Lineage.Text

/-- The angle brackets of a text are balanced: from its front on no more of them have closed than
have opened, and in the end as many. -/
structure AngleBalanced (text : List Char) : Prop where
  opened : ∀ front, front <+: text → front.count '>' ≤ front.count '<'
  closed : text.count '<' = text.count '>'

instance decidableAngleBalanced (text : List Char) : Decidable (AngleBalanced text) :=
  decidable_of_iff ((∀ front ∈ text.inits, front.count '>' ≤ front.count '<') ∧
    text.count '<' = text.count '>')
    ⟨fun counts => ⟨fun front begins => counts.1 front ((List.mem_inits _ _).mpr begins), counts.2⟩,
      fun balanced =>
        ⟨fun front listed => balanced.opened front ((List.mem_inits _ _).mp listed),
        balanced.closed⟩⟩

/-- A character stands outside of all brackets where as many of them have closed as have opened
before it. -/
def Outermost (text : List Char) (c : Char) : Prop :=
  ∃ front, front ++ [c] <+: text ∧ front.count '<' = front.count '>'

instance decidableOutermost (text : List Char) (c : Char) : Decidable (Outermost text c) :=
  decidable_of_iff (∃ front ∈ text.inits, front ++ [c] <+: text ∧ front.count '<' = front.count '>')
    ⟨fun found => found.imp fun _ here => here.2, fun found => found.imp fun _ here =>
      ⟨(List.mem_inits _ _).mpr ((List.prefix_append _ _).trans here.1), here⟩⟩

/-- What stands outside of all brackets is in the text. -/
theorem Outermost.mem {text : List Char} {c : Char} (outermost : Outermost text c) : c ∈ text := by
  obtain ⟨front, begins, _⟩ := outermost
  exact begins.subset (by simp)

section Stretches

/-- A text that closes so many brackets more than it opens: between these there are stretches in
which the brackets are balanced. -/
inductive Closes : Nat → List Char → Prop where
  | stretch {depth : Nat} {text bare : List Char} : Angled depth text bare → Closes 0 text
  | more {level depth : Nat} {text bare rest : List Char} : Angled depth text bare →
    Closes level rest →
    Closes (level + 1) (text ++ '>' :: rest)

/-- A character that is no bracket can come before a text that closes brackets. -/
theorem Closes.plain {level : Nat} {text : List Char} {c : Char} (notOpen : c ≠ '<')
    (notClose : c ≠ '>') (closes : Closes level text) : Closes level (c :: text) := by
  cases closes with
  | stretch angled => exact .stretch (.plain notOpen notClose angled)
  | more angled rest => exact .more (.plain notOpen notClose angled) rest

/-- A bracket that opens takes the first of those that close, and makes one stretch of the two
beside that one. -/
theorem Closes.opening {level : Nat} {text : List Char} (closes : Closes (level + 1) text) :
    Closes level ('<' :: text) := by
  -- The first closing bracket is the partner of the new one, and what follows joins the stretch.
  have nested : ∀ {depth deep : Nat} {inner lost behind bare : List Char}, Angled depth inner lost →
      Angled deep behind bare → Angled (max depth deep + 1) ('<' :: (inner ++ '>' :: behind))
        bare := by
    intro depth deep inner lost behind bare inside outside
    exact .nest (inside.mono (by omega)) (outside.mono (by omega))
  cases closes with
  | more inside rest =>
    cases rest with
    | stretch outside => exact .stretch (nested inside outside)
    | @more level deep behind bare rest outside further =>
      have step := Closes.more (nested inside outside) further
      rwa [List.cons_append, List.append_assoc, List.cons_append] at step

/-- An opening bracket counts among those that open and not among those that close. -/
theorem count_open (text : List Char) :
    ('<' :: text).count '<' = text.count '<' + 1 ∧ ('<' :: text).count '>' = text.count '>' :=
  ⟨List.count_cons_self, List.count_cons_of_ne (by decide)⟩

theorem count_close (text : List Char) :
    ('>' :: text).count '<' = text.count '<' ∧ ('>' :: text).count '>' = text.count '>' + 1 :=
  ⟨List.count_cons_of_ne (by decide), List.count_cons_self⟩

theorem count_plain {c : Char} (notOpen : c ≠ '<') (notClose : c ≠ '>') (text : List Char) :
    (c :: text).count '<' = text.count '<' ∧ (c :: text).count '>' = text.count '>' :=
  ⟨List.count_cons_of_ne notOpen, List.count_cons_of_ne notClose⟩

/-- Counting brackets from the front tells how many a text closes beyond those that it opens. -/
theorem closes_of_count (text : List Char) :
    ∀ level, (∀ front, front <+: text → front.count '>' ≤ front.count '<' + level) →
      text.count '<' + level = text.count '>' → Closes level text := by
  induction text with
  | nil =>
    intro level _ total
    obtain rfl : level = 0 := by simpa using total
    exact .stretch (.nil : Angled 0 [] [])
  | cons c rest ih =>
    intro level opened total
    -- What holds from the front of the whole holds from the front of the rest, with the first
    -- character counted in.
    have behind : ∀ front, front <+: rest →
      (c :: front).count '>' ≤ (c :: front).count '<' + level :=
      fun front begins => opened (c :: front) (List.cons_prefix_cons.mpr ⟨rfl, begins⟩)
    by_cases opens : c = '<'
    · -- One more bracket is to be closed by the rest.
      subst opens
      have further := ih (level + 1) (fun front begins => by
        have counts := behind front begins
        rw [(count_open front).1, (count_open front).2] at counts
        omega) (by
        rw [(count_open rest).1, (count_open rest).2] at total
        omega)
      exact further.opening
    · by_cases closes : c = '>'
      · -- The bracket is one of those to be closed, since nothing has opened before it.
        subst closes
        have atLeast := behind [] List.nil_prefix
        obtain ⟨less, rfl⟩ : ∃ less, level = less + 1 := ⟨level - 1, by
          rw [(count_close []).1, (count_close []).2] at atLeast
          simp only [List.count_nil] at atLeast
          omega⟩
        have further := ih less (fun front begins => by
          have counts := behind front begins
          rw [(count_close front).1, (count_close front).2] at counts
          omega) (by
          rw [(count_close rest).1, (count_close rest).2] at total
          omega)
        exact .more (.nil : Angled 0 [] []) further
      · have further := ih level (fun front begins => by
          have counts := behind front begins
          rwa [(count_plain opens closes front).1, (count_plain opens closes front).2] at counts)
            (by
          rwa [(count_plain opens closes rest).1, (count_plain opens closes rest).2] at total)
        exact further.plain opens closes

/-- Balanced brackets nest in each other to some depth. -/
theorem AngleBalanced.angled {text : List Char} (balanced : AngleBalanced text) :
    ∃ depth bare, Angled depth text bare := by
  -- With no bracket open, a text that closes all that it opens is one stretch.
  have closes :=
    closes_of_count text 0 (fun front begins => balanced.opened front begins) balanced.closed
  cases closes with
  | stretch angled => exact ⟨_, _, angled⟩

/-- Where brackets nest, as many of them close as open. -/
theorem Angled.count_eq {depth : Nat} {text bare : List Char} (angled : Angled depth text bare) :
    text.count '<' = text.count '>' := by
  induction angled with
  | nil => rfl
  | plain notOpen notClose _ ih =>
    rw [(count_plain notOpen notClose _).1, (count_plain notOpen notClose _).2, ih]
  | nest _ _ ihInner ih =>
    rw [(count_open _).1, (count_open _).2, List.count_append, List.count_append, (count_close _).1,
      (count_close _).2, ihInner, ih]
    omega

/-- A character that stands outside of all brackets does so behind others that are balanced. -/
theorem Outermost.append {depth : Nat} {text bare rest : List Char} {c : Char}
    (angled : Angled depth text bare) (outermost : Outermost rest c) :
    Outermost (text ++ rest) c := by
  obtain ⟨front, begins, counts⟩ := outermost
  refine ⟨text ++ front, ?_, ?_⟩
  · rw [List.append_assoc]
    exact (List.prefix_append_right_inj text).mpr begins
  · rw [List.count_append, List.count_append, angled.count_eq, counts]

/-- What stands outside of brackets that nest stands where as many have closed as have opened. -/
theorem Angled.outermost {depth : Nat} {text bare : List Char} (angled : Angled depth text bare)
    {c : Char} (inside : c ∈ bare) : Outermost text c := by
  induction angled with
  | nil => exact absurd inside List.not_mem_nil
  | @plain depth d text bare notOpen notClose _ ih =>
    rcases List.mem_cons.mp inside with rfl | further
    · exact ⟨[], by simp, rfl⟩
    · exact (ih further).append (.plain notOpen notClose .nil : Angled depth [d] [d])
  | @nest depth inner lost text bare inner' _ _ ih =>
    -- The brackets at the front are a balanced text of their own.
    have pair : Angled (depth + 1) ('<' :: (inner ++ '>' :: [])) [] := .nest inner' .nil
    have behind := (ih inside).append pair
    rwa [List.cons_append, List.append_assoc, List.cons_append, List.nil_append] at behind

end Stretches

section Commas

/-- A text with balanced brackets and no comma outside of them reaches up to the comma behind it, or
to the end. -/
theorem AngleBalanced.cutAtCommas_append {text : List Char} (balanced : AngleBalanced text)
    (noComma : ¬ Outermost text ',') {rest part : List Char} {more : List (List Char)}
    (cut : cutAtCommas 0 rest = part :: more) :
    cutAtCommas 0 (text ++ rest) = (text ++ part) :: more := by
  obtain ⟨depth, bare, angled⟩ := balanced.angled
  exact angled.cutAtCommas_append (fun _ inside => noComma (angled.outermost inside)) cut

/-- Texts with balanced brackets and no comma outside of them come back when the list of them is cut
at its commas. -/
theorem cutAtCommas_intercalate {first : List Char} {more : List (List Char)}
    (separate : ∀ text ∈ first :: more, AngleBalanced text ∧ ¬ Outermost text ',') :
    cutAtCommas 0 ([','].intercalate (first :: more)) = first :: more := by
  induction more generalizing first with
  | nil =>
    obtain ⟨balanced, noComma⟩ := separate first List.mem_cons_self
    have whole := balanced.cutAtCommas_append noComma (show cutAtCommas 0 [] = [] :: [] from rfl)
    rw [List.append_nil] at whole
    rw [List.intercalate_singleton, whole]
  | cons second more ih =>
    obtain ⟨balanced, noComma⟩ := separate first List.mem_cons_self
    have later := ih fun text listed => separate text (List.mem_cons_of_mem first listed)
    -- The comma ends the first text, and behind it the others are cut.
    have comma : cutAtCommas 0 (',' :: [','].intercalate (second :: more)) = [] :: second ::
        more := by
      rw [cutAtCommas, if_pos (by rfl), later]
    have whole := balanced.cutAtCommas_append noComma comma
    rwa [List.append_nil] at whole

end Commas

section Paths

/-- A name in a path with what stands behind it: type arguments in balanced brackets, perhaps with
blanks before or behind them, or nothing. -/
structure Segment where
  name : Word
  arguments : List Char
  balanced : AngleBalanced arguments
  enclosed : ∀ c ∈ arguments, Outermost arguments c → c = '<' ∨ isBlank c = true

/-- The text of a segment: its name and the arguments behind it. -/
def Segment.text (segment : Segment) : List Char :=
  segment.name.text ++ segment.arguments

/-- A path of names joined by dots, each with type arguments of its own or without, and blanks
around the whole. -/
structure SegmentedPath where
  before : Blanks
  first : Segment
  more : List Segment
  behind : Blanks

/-- The text of a path: its segments, joined by dots, with blanks around them. -/
def SegmentedPath.text (path : SegmentedPath) : List Char :=
  path.before.text ++ (['.'].intercalate ((path.first :: path.more).map Segment.text) ++
    path.behind.text)

/-- The last name of a path. -/
def SegmentedPath.last (path : SegmentedPath) : Word :=
  ((path.first :: path.more).getLast (List.cons_ne_nil _ _)).name

/-- A name with type arguments comes to the name and perhaps blanks. -/
theorem Segment.comesTo (segment : Segment) :
    ∃ blanks, (∀ c ∈ blanks, isBlank c = true) ∧ ComesTo segment.text
      (segment.name.text ++ blanks) := by
  obtain ⟨depth, bare, angled⟩ := segment.balanced.angled
  have named := segment.name.isName.2
  have plain : ComesTo segment.name.text segment.name.text := .of_plain fun c inside =>
    ⟨ne_of_class (named c inside) (by decide), ne_of_class (named c inside) (by decide)⟩
  refine ⟨bare, fun c inside => ?_, plain.append angled.comesTo⟩
  -- Outside of the brackets only blanks are left, for no bracket is outside of itself.
  have outermost := angled.outermost inside
  apply (segment.enclosed c outermost.mem outermost).resolve_left
  intro isOpen
  exact angled.notMem_bare (isOpen ▸ inside)

/-- What a path comes to: names and dots that end with its last name, and perhaps blanks. -/
theorem exists_comesTo_path (first : Segment) (more : List Segment) :
    ∃ path blanks, ComesTo (['.'].intercalate ((first :: more).map Segment.text)) (path ++ blanks) ∧
      (∀ c ∈ blanks, isBlank c = true) ∧ path.head?.any isBlank = false ∧
        path.getLast?.any isBlank = false ∧
      afterLastDot path = ((first :: more).getLast (List.cons_ne_nil _ _)).name.text := by
  have noBlank : ∀ segment : Segment, ∀ c ∈ segment.name.text, isBlank c = false :=
    fun segment c inside =>
    isBlank_of_isNameChar (segment.name.isName.2 c inside)
  induction more generalizing first with
  | nil =>
    obtain ⟨blanks, allBlank, comes⟩ := first.comesTo
    obtain ⟨begins, ends⟩ := ends_of_noBlank (noBlank first)
    have noDot : '.' ∉ first.name.text := notMem_of_class first.name.isName.2 (by decide)
    refine ⟨first.name.text, blanks, ?_, allBlank, begins, ends, afterLastDot_of_noDot noDot⟩
    rwa [List.map_singleton, List.intercalate_singleton]
  | cons second more ih =>
    obtain ⟨blanks, allBlank, comes⟩ := first.comesTo
    obtain ⟨path, rear, comesPath, rearBlank, _, ends, last⟩ := ih second
    have dot : ComesTo ['.'] ['.'] := .of_plain (by decide)
    refine ⟨first.name.text ++ (blanks ++ '.' :: path), rear, ?_, rearBlank, ?_, ?_, ?_⟩
    · have whole := comes.append (dot.append comesPath)
      simpa using whole
    · -- The first name is not empty, and so the path begins as it does.
      rw [List.head?_append_of_ne_nil _ first.name.isName.1]
      exact (ends_of_noBlank (noBlank first)).1
    · -- The path ends as the further names do, or with the dot.
      rw [List.getLast?_append, List.getLast?_append, List.getLast?_cons]
      cases isLast : path.getLast? with
      | none =>
        show isBlank '.' = false
        decide
      | some c => simpa [isLast] using ends
    · rw [← List.append_assoc, afterLastDot_append_dot, last, List.getLast_cons_cons]

/-- A path with type arguments comes down to its last name. -/
theorem simpleName_segmentedPath (path : SegmentedPath) :
    simpleName path.text = path.last.text := by
  -- Without its arguments the path is a row of names, and the last name is what is left of it.
  obtain ⟨core, rear, comes, rearBlank, begins, ends, last⟩ :=
    exists_comesTo_path path.first path.more
  have ofBlanks : ∀ blanks : Blanks, ComesTo blanks.text blanks.text :=
    fun blanks => .of_plain fun c inside =>
    ⟨ne_of_class (blanks.blank c inside) (by decide),
      ne_of_class (blanks.blank c inside) (by decide)⟩
  have whole : ComesTo path.text (path.before.text ++ ((core ++ rear) ++ path.behind.text)) :=
    (ofBlanks path.before).append (comes.append (ofBlanks path.behind))
  have around : ∀ c ∈ rear ++ path.behind.text, isBlank c = true :=
    List.forall_mem_append.mpr ⟨rearBlank, path.behind.blank⟩
  rw [simpleName, whole.dropArguments_eq, List.append_assoc core,
    trim_append path.before.blank around begins ends, last]
  rfl

end Paths

/-- A list of references is cut exactly at the commas outside of all brackets, whatever the depth to
which brackets nest: texts with balanced brackets and without such commas, joined by commas, give
the simple name of each, less the empty ones. The simple name of a path with type arguments behind
any of its names is the last of the names. -/
theorem simpleNames_intercalate :
    (∀ texts : List (List Char), (∀ text ∈ texts, AngleBalanced text ∧ ¬ Outermost text ',') →
      simpleNames ([','].intercalate texts) = (texts.map simpleName).filter (!·.isEmpty)) ∧
    ∀ path : SegmentedPath, simpleName path.text = path.last.text := by
  refine ⟨fun texts separate => ?_, simpleName_segmentedPath⟩
  cases texts with
  | nil =>
    -- An empty list is read as one empty reference, which has no name.
    decide
  | cons first more => rw [simpleNames, cutAtCommas_intercalate separate]

/-- References with brackets three deep, one that is empty and one that comes twice. -/
def nestedReferences : List (List Char) :=
  ["java.util.Map<K, List<Set<V>>>".toList, " B ".toList, [], "a.C<X,Y>.D".toList, "B".toList]

/-- A path with type arguments behind two of its names. -/
def nestedPath : SegmentedPath where
  before := Spacing.single.toBlanks
  first := ⟨⟨"a".toList, by decide, by decide⟩, [], by decide, by decide⟩
  more :=
    [⟨⟨"Outer".toList, by decide, by decide⟩, "<X, Y<Z.W>>".toList, by decide, by decide⟩,
      ⟨⟨"Inner".toList, by decide, by decide⟩, " <V>".toList, by decide, by decide⟩]
  behind := Spacing.single.toBlanks

/-- References whose commas all stand inside of brackets, and a path whose segments have
arguments. -/
theorem simpleNames_intercalate_nested :
    (∀ text ∈ nestedReferences, AngleBalanced text ∧ ¬ Outermost text ',') ∧
      simpleNames ([','].intercalate nestedReferences) =
        ["Map".toList, "B".toList, "D".toList, "B".toList] ∧
      nestedPath.text = " a.Outer<X, Y<Z.W>>.Inner <V> ".toList ∧
        simpleName nestedPath.text = "Inner".toList := by
  have separate : ∀ text ∈ nestedReferences, AngleBalanced text ∧ ¬ Outermost text ',' := by decide
  refine ⟨separate, ?_, by decide, simpleNames_intercalate.2 nestedPath⟩
  rw [simpleNames_intercalate.1 nestedReferences separate]
  decide +kernel

end Lineage.Java
