import Lineage.Project.Run
import Lineage.Proofs.Graph.Assembly
import Lineage.Proofs.Json.Notation
import Lineage.Proofs.Page.Template
import Lineage.Proofs.Text.Blank

/-! The page of a graph: what its script is read as, and that nothing in a graph can end the script
early. -/

namespace Lineage.Page

open Lineage.Json Lineage.Text

/-- The characters of ASCII that stand on a line. -/
def Printable (c : Char) : Prop :=
  32 ≤ c.toNat ∧ c.toNat < 127

instance decidablePrintable (c : Char) : Decidable (Printable c) :=
  inferInstanceAs (Decidable (_ ∧ _))

/-- Data without numbers. -/
inductive Numberless : Data → Prop where
  | null : Numberless .null
  | boolean (value : Bool) : Numberless (.boolean value)
  | text (value : String) : Numberless (.text value)
  | list {items : List Data} : (∀ item ∈ items, Numberless item) → Numberless (.list items)
  | record {fields : List (String × Data)} : (∀ entry ∈ fields, Numberless entry.2) →
    Numberless (.record fields)

attribute [simp] Numberless.null Numberless.boolean Numberless.text

/-- A list is without numbers exactly if its items are. -/
@[simp] theorem numberless_list_iff {items : List Data} :
    Numberless (.list items) ↔ ∀ item ∈ items, Numberless item := by
  constructor
  · rintro ⟨each⟩
    assumption
  · exact .list

/-- A record is without numbers exactly if its fields are. -/
@[simp] theorem numberless_record_iff {fields : List (String × Data)} :
    Numberless (.record fields) ↔ ∀ entry ∈ fields, Numberless entry.2 := by
  constructor
  · rintro ⟨each⟩
    assumption
  · exact .record

section Guard

/-- Only a `<` before a `/` is guarded. -/
theorem guardTags_cons {c : Char} {rest : List Char} (apart : c = '<' → rest.head? ≠ some '/') :
    guardTags (c :: rest) = c :: guardTags rest := by
  rw [guardTags]
  rintro more rfl rfl
  exact apart rfl rfl

/-- Guarding a text keeps its first character. -/
theorem head?_guardTags (text : List Char) : (guardTags text).head? = text.head? := by
  fun_cases guardTags text <;> rfl

/-- No end tag begins in a guarded text. -/
theorem noEndTag_guardTags (text : List Char) : ¬ ['<', '/'] <:+: guardTags text := by
  fun_induction guardTags text with
  | case1 rest ih => simp [List.infix_cons_iff, ih]
  | case2 c rest notTag ih =>
    rw [List.infix_cons_iff]
    rintro (front | later)
    · -- The tag would begin here, so the text itself goes on with a slash.
      obtain ⟨isOpen, front⟩ := List.cons_prefix_cons.1 front
      obtain ⟨more, guarded⟩ := front
      have head : rest.head? = some '/' := by rw [← head?_guardTags, ← guarded]; rfl
      obtain ⟨after, rfl⟩ := List.head?_eq_some_iff.1 head
      exact notTag after isOpen.symm rfl
    · exact ih later
  | case3 => simp

/-- How a text is guarded, whatever follows it. -/
structure Guards (plain written : List Char) : Prop where
  guarded : ∀ rest, guardTags (plain ++ rest) = written ++ guardTags rest
  printable : ∀ c ∈ written, Printable c

/-- Texts are guarded one after the other. -/
theorem Guards.append {plain written plain' written' : List Char} (first : Guards plain written)
    (second : Guards plain' written') : Guards (plain ++ plain') (written ++ written') where
  guarded rest := by rw [List.append_assoc, first.guarded, second.guarded, List.append_assoc]
  printable := List.forall_mem_append.2 ⟨first.printable, second.printable⟩

/-- A text without `<` stays as it is. -/
theorem Guards.self {text : List Char} (printable : ∀ c ∈ text, Printable c) (plain : '<' ∉ text) :
    Guards text text := by
  refine ⟨fun rest => ?_, printable⟩
  induction text with
  | nil => rfl
  | cons c text ih =>
    have other : c ≠ '<' := fun same => plain (same ▸ List.mem_cons_self)
    rw [List.cons_append, guardTags_cons fun same => absurd same other,
      ih (fun d mem => printable d (List.mem_cons_of_mem c mem)) fun mem =>
        plain (List.mem_cons_of_mem c mem)]
    rfl

/-- A `<` stays as it is before a text that does not begin with a slash. -/
theorem Guards.cons_open {plain written : List Char} (guards : Guards plain written)
    (nonempty : plain ≠ []) (apart : plain.head? ≠ some '/') :
    Guards ('<' :: plain) ('<' :: written) where
  guarded rest := by
    rw [List.cons_append, guardTags_cons, guards.guarded, List.cons_append]
    intro _
    rwa [List.head?_append_of_ne_nil plain nonempty]
  printable := List.forall_mem_cons.2 ⟨by decide, guards.printable⟩

end Guard

section Quotation

/-- The four digits of a unit are letters and figures. -/
theorem printable_unit16 {unit : Nat} : ∀ c ∈ unit16 unit, Printable c ∧ c ≠ '<' := by
  have digit : ∀ value < 16, Printable (hexDigit .lower value) ∧ hexDigit .lower value ≠ '<' := by
    decide
  intro c mem
  simp only [unit16, hexDigits, List.nil_append, List.cons_append, List.mem_cons, List.not_mem_nil,
    or_false] at mem
  rcases mem with rfl | rfl | rfl | rfl | rfl | rfl
  · decide
  · decide
  all_goals exact digit _ (Nat.mod_lt _ (by decide))

/-- What is written for a character is printable, and is no `<` unless the character is one. -/
theorem printable_character {c : Char} (other : c ≠ '<') :
    ∀ d ∈ character c, Printable d ∧ d ≠ '<' := by
  -- However the character is written, the parts are printable.
  rcases character_cases c with
    ⟨letter, known, -, written⟩ | ⟨above, below, -, -, written⟩ | ⟨-, written⟩ | ⟨-, written⟩
  · have each : ∀ letter ∈ ['"', '\\', 'n', 'r', 't', 'f', 'b'], Printable letter ∧
      letter ≠ '<' := by decide
    rw [written]
    exact List.forall_mem_cons.2 ⟨by decide, List.forall_mem_singleton.2 (each letter known)⟩
  · rw [written]
    exact List.forall_mem_singleton.2 ⟨⟨above, below⟩, other⟩
  · rw [written]
    exact printable_unit16
  · rw [written]
    exact List.forall_mem_append.2 ⟨printable_unit16, printable_unit16⟩

/-- What is written for a text begins with a slash only if the text does. -/
theorem head?_flatMap_character {text : List Char}
    (slash : (text.flatMap character ++ ['"']).head? = some '/') : text.head? = some '/' := by
  -- Only a slash is written as a slash.
  cases text with
  | nil => simp at slash
  | cons c text =>
    rcases character_cases c with
      ⟨letter, known, -, written⟩ | ⟨above, below, -, -, written⟩ | ⟨-, written⟩ | ⟨-, written⟩
    · simp [written] at slash
    · simpa [written] using slash
    · simp [written, unit16] at slash
    · simp [written, unit16] at slash

/-- What is written for a text up to its closing quote spells the text after it has been guarded. -/
theorem exists_guards_characters (text : List Char) :
    ∃ inside, Spells text inside ∧ Guards (text.flatMap character ++ ['"']) (inside ++ ['"']) := by
  -- The text is gone through as it is guarded: a `<` and the slash behind it are taken together.
  fun_induction guardTags text with
  | case1 rest ih =>
    obtain ⟨inside, spells, guards⟩ := ih
    have tag : Guards ['<', '/'] ['<', '\\', '/'] := ⟨fun rest => by simp [guardTags], by decide⟩
    exact ⟨'<' :: '\\' :: '/' :: inside,
      .plain (by decide) (by decide) (by decide) (.letter rfl spells), tag.append guards⟩
  | case2 c rest notTag ih =>
    obtain ⟨inside, spells, guards⟩ := ih
    refine ⟨character c ++ inside, spells.character c, ?_⟩
    rw [List.flatMap_cons, List.append_assoc, List.append_assoc]
    by_cases isOpen : c = '<'
    · subst isOpen
      refine guards.cons_open (by simp) fun slash => ?_
      obtain ⟨after, rfl⟩ := List.head?_eq_some_iff.1 (head?_flatMap_character slash)
      exact notTag after rfl rfl
    · have each := printable_character isOpen
      exact (Guards.self (fun d mem => (each d mem).1)
        fun mem => (each '<' mem).2 rfl).append guards
  | case3 => exact ⟨[], .nothing, .self (by decide) (by decide)⟩

/-- A quotation is guarded between its quotes. -/
theorem exists_guards_quotation (text : String) :
    ∃ inside, Spells text.toList inside ∧ Guards (quotation text) ('"' :: (inside ++ ['"'])) := by
  obtain ⟨inside, spells, guards⟩ := exists_guards_characters text.toList
  have quote : Guards ['"'] ['"'] := .self (by decide) (by decide)
  exact ⟨inside, spells, quote.append guards⟩

end Quotation

variable {data : Data} {graph : Graph}

section Compact

/-- The guarded text of data on one line notates the data. -/
def GuardsData (data : Data) : Prop :=
  ∃ written, Notates data written ∧ Guards (compact data) written

/-- Items that are guarded one by one are guarded together. -/
theorem exists_guards_items {item : Data} {more : List Data}
    (each : ∀ one ∈ item :: more, GuardsData one) :
    ∃ written, NotatesItems (item :: more) written ∧ Guards
      (compactItems (item :: more)) written := by
  -- Item by item; commas and spaces are not touched.
  induction more generalizing item with
  | nil =>
    obtain ⟨written, notates, guards⟩ := each item List.mem_cons_self
    refine ⟨written, ?_, guards⟩
    simpa using NotatesItems.last Gap.nil notates Gap.nil
  | cons next more ih =>
    obtain ⟨one, notates, guards⟩ := each item List.mem_cons_self
    obtain ⟨written, notatesMore, guardsMore⟩ :=
      ih fun one mem => each one (List.mem_cons_of_mem item mem)
    have comma : Guards [',', ' '] [',', ' '] := .self (by decide) (by decide)
    refine ⟨one ++ [',', ' '] ++ written, ?_, (guards.append comma).append guardsMore⟩
    have behind : NotatesItems (next :: more) ([' '] ++ written) := notatesMore.gap_append Gap.space
    simpa using NotatesItems.more Gap.nil notates Gap.nil behind

/-- Fields that are guarded one by one are guarded together. -/
theorem exists_guards_fields {entry : String × Data} {more : List (String × Data)}
    (each : ∀ one ∈ entry :: more, GuardsData one.2) :
    ∃ written, NotatesFields (entry :: more) written ∧ Guards
      (compactFields (entry :: more)) written := by
  -- Field by field; colons, commas and spaces are not touched.
  have colon : Guards [':', ' '] [':', ' '] := .self (by decide) (by decide)
  have comma : Guards [',', ' '] [',', ' '] := .self (by decide) (by decide)
  induction more generalizing entry with
  | nil =>
    obtain ⟨name, value⟩ := entry
    obtain ⟨inside, spells, guardsName⟩ := exists_guards_quotation name
    obtain ⟨one, notates, guards⟩ := each (name, value) List.mem_cons_self
    refine ⟨_, ?_, (guardsName.append colon).append guards⟩
    have last := NotatesFields.last Gap.nil spells Gap.nil Gap.space notates Gap.nil
    simpa using last
  | cons next more ih =>
    obtain ⟨name, value⟩ := entry
    obtain ⟨inside, spells, guardsName⟩ := exists_guards_quotation name
    obtain ⟨one, notates, guards⟩ := each (name, value) List.mem_cons_self
    obtain ⟨written, notatesMore, guardsMore⟩ :=
      ih fun one mem => each one (List.mem_cons_of_mem _ mem)
    refine ⟨_, ?_, (((guardsName.append colon).append guards).append comma).append guardsMore⟩
    have behind : NotatesFields (next :: more) ([' '] ++ written) :=
      notatesMore.gap_append Gap.space
    have more := NotatesFields.more Gap.nil spells Gap.nil Gap.space notates Gap.nil behind
    simpa using more

/-- Guarded data without numbers notates what it did before. -/
theorem Numberless.guardsData (numberless : Numberless data) : GuardsData data := by
  -- Along the data: each part is guarded by itself.
  induction numberless with
  | null => exact ⟨_, .null, .self (by decide) (by decide)⟩
  | boolean value =>
    refine ⟨_, .boolean value, ?_⟩
    cases value <;> exact .self (by decide) (by decide)
  | text value =>
    obtain ⟨inside, spells, guards⟩ := exists_guards_quotation value
    exact ⟨_, .text spells, guards⟩
  | @list items _ each =>
    have left : Guards ['['] ['['] := .self (by decide) (by decide)
    have right : Guards [']'] [']'] := .self (by decide) (by decide)
    cases items with
    | nil => exact ⟨_, .noItems Gap.nil, left.append right⟩
    | cons item more =>
      obtain ⟨written, notates, guards⟩ := exists_guards_items each
      exact ⟨_, .list notates, (left.append guards).append right⟩
  | @record fields _ each =>
    have left : Guards ['{'] ['{'] := .self (by decide) (by decide)
    have right : Guards ['}'] ['}'] := .self (by decide) (by decide)
    cases fields with
    | nil => exact ⟨_, .noFields Gap.nil, left.append right⟩
    | cons entry more =>
      obtain ⟨written, notates, guards⟩ := exists_guards_fields each
      exact ⟨_, .record notates, (left.append guards).append right⟩

end Compact

section Shown

/-- The targets of edges that no node declares, each once, where it first comes. -/
def undeclaredTargets (graph : Graph) : List String :=
  ((graph.edges.map (·.target)).filter (· ∉ graph.nodes.names)).eraseDups

/-- Names that are added at the end unless they are known stand where they first came. -/
theorem foldl_addNew (known names : List String) :
    names.foldl (fun known name => if known.contains name then known else known ++ [name])
      known.eraseDups =
      (known ++ names).eraseDups := by
  induction names generalizing known with
  | nil => simp
  | cons name names ih =>
    have added := ih (known ++ [name])
    rw [TakenIn.eraseDups_concat, List.append_assoc] at added
    simpa [List.mem_eraseDups] using added

/-- The names outside of a graph are the targets that are not declared. -/
theorem externals_eq (graph : Graph) : externals graph = undeclaredTargets graph := by
  have undeclared : (fun name => !graph.nodes.contains name) = fun name =>
      decide (name ∉ graph.nodes.names) := by
    funext name
    rw [Bool.eq_iff_iff]
    simp [← Table.contains_iff]
  rw [externals, undeclared]
  exact foldl_addNew [] _

/-- The entry of an edge: where it leads from and to, and the style of its relation. -/
def ShowsEdge (edge : Edge) (data : Data) : Prop :=
  ∃ relation : Relation, edge.relation = relation.label ∧
    data = .record ([("from", .text edge.source), ("to", .text edge.target),
      ("arrows", .text "to")] ++ edgeStyle relation)

/-- The entries of a graph: its nodes in order, then the targets that it does not declare, and its
edges in order. -/
def ShowsGraph (graph : Graph) (data : Data) : Prop :=
  ∃ edges, List.Forall₂ ShowsEdge graph.edges edges ∧
    data = .record [("nodes", .list
      (graph.nodes.values.map nodeData ++ (undeclaredTargets graph).map externalData)),
      ("edges", .list edges)]

/-- Whether each edge has one of the relations that there are. -/
def KnownRelations (graph : Graph) : Prop :=
  ∀ edge ∈ graph.edges, ∃ relation : Relation, edge.relation = relation.label

/-- Every relation is found under its label. -/
theorem ofLabel?_label (relation : Relation) :
    Relation.ofLabel? relation.label = some relation := by
  cases relation <;> decide

/-- Edges with known relations have entries. -/
theorem exists_mapM_edgeData {edges : List Edge}
    (known : ∀ edge ∈ edges, ∃ relation : Relation, edge.relation = relation.label) :
    ∃ entries, edges.mapM edgeData = .ok entries ∧ List.Forall₂ ShowsEdge edges entries := by
  induction edges with
  | nil => exact ⟨[], rfl, .nil⟩
  | cons edge edges ih =>
    obtain ⟨⟨relation, named⟩, knownRest⟩ := List.forall_mem_cons.1 known
    obtain ⟨entries, made, shown⟩ := ih knownRest
    refine ⟨_ :: entries, ?_, .cons ⟨relation, named, rfl⟩ shown⟩
    rw [List.mapM_cons, edgeData, named, ofLabel?_label, made]
    rfl

/-- A graph with known relations has its entries. -/
theorem exists_graphData (known : KnownRelations graph) :
    ∃ data, graphData graph = .ok data ∧ ShowsGraph graph data := by
  obtain ⟨entries, made, shown⟩ := exists_mapM_edgeData known
  refine ⟨_, ?_, entries, shown, rfl⟩
  rw [graphData, made, externals_eq]
  rfl

/-- The entries of edges hold no numbers. -/
theorem numberless_edges {edges : List Edge} {entries : List Data}
    (shown : List.Forall₂ ShowsEdge edges entries) :
    ∀ entry ∈ entries, Numberless entry := by
  induction shown with
  | nil => simp
  | cons first _ ih =>
    obtain ⟨relation, -, rfl⟩ := first
    refine List.forall_mem_cons.2 ⟨?_, ih⟩
    cases relation <;> simp [edgeStyle]

/-- The entries of a graph hold no numbers. -/
theorem ShowsGraph.numberless (shown : ShowsGraph graph data) : Numberless data := by
  -- Nodes, names and edges are shown with texts only.
  obtain ⟨entries, shownEdges, rfl⟩ := shown
  have node (node : Node) : Numberless (nodeData node) := by
    cases file : node.originFile <;> simp [nodeData, file, Data.ofText?, methodData]
  have external (name : String) : Numberless (externalData name) := by
    simp [externalData]
  have nodes : ∀ entry ∈ graph.nodes.values.map nodeData ++
      (undeclaredTargets graph).map externalData, Numberless entry :=
    List.forall_mem_append.2
      ⟨List.forall_mem_map.2 fun one _ => node one, List.forall_mem_map.2 fun name _ =>
        external name⟩
  exact .record (List.forall_mem_cons.2
    ⟨.list nodes, List.forall_mem_singleton.2 (.list (numberless_edges shownEdges))⟩)

/-- An edge can be told from its entry. -/
theorem ShowsEdge.unique {edge other : Edge} (shown : ShowsEdge edge data)
    (shownOther : ShowsEdge other data) : edge = other := by
  obtain ⟨relation, named, rfl⟩ := shown
  obtain ⟨relation', named', same⟩ := shownOther
  obtain ⟨source, target, label⟩ := edge
  obtain ⟨source', target', label'⟩ := other
  -- Two relations that share a label have different colours.
  cases relation <;> cases relation' <;> simp_all [edgeStyle]

/-- A type can be told from its entry. -/
theorem nodeData_injective {node other : Node} (same : nodeData node = nodeData other) :
    node = other := by
  -- The fields are compared one by one.
  have method {one two : Method} (equal : methodData one = methodData two) : one = two := by
    cases one
    cases two
    simpa [methodData] using equal
  have file {one two : Option String} (equal : Data.ofText? one = Data.ofText? two) : one =
      two := by
    cases one <;> cases two <;> simp_all [Data.ofText?]
  obtain ⟨id, label, kind, originFile, methods⟩ := node
  obtain ⟨id', label', kind', originFile', methods'⟩ := other
  simp only [nodeData, Data.record.injEq, List.cons.injEq, Prod.mk.injEq, Data.text.injEq,
    Data.list.injEq, true_and, and_true] at same
  obtain ⟨sameId, sameLabel, sameKind, -, sameFile, sameMethods⟩ := same
  rw [sameId, sameLabel, sameKind, file sameFile,
    (List.map_inj_right fun _ _ => method).1 sameMethods]

/-- The entry of a type differs from that of a type that is not declared. -/
theorem nodeData_ne_externalData (node : Node) (name : String) :
    nodeData node ≠ externalData name := by
  -- The titles differ, as a name outside has a text of its own there.
  intro same
  simp only [nodeData, externalData, Data.record.injEq, List.cons.injEq, Prod.mk.injEq,
    Data.text.injEq, true_and] at same
  obtain ⟨-, -, kind, title, -⟩ := same
  have texts := congrArg String.toList title
  simp [kind] at texts

/-- The types of a graph can be told from its entries. -/
theorem nodes_unique {nodes others : List Node} {names names' : List String}
    (same : nodes.map nodeData ++ names.map externalData = others.map nodeData ++
      names'.map externalData) :
    nodes = others := by
  -- One by one; an entry for a node is never one for a name outside.
  induction nodes generalizing others with
  | nil =>
    cases others with
    | nil => rfl
    | cons other others =>
      cases names with
      | nil => simp at same
      | cons name names =>
        exact absurd (List.cons.inj same).1.symm (nodeData_ne_externalData other name)
  | cons node nodes ih =>
    cases others with
    | nil =>
      cases names' with
      | nil => simp at same
      | cons name names' => exact absurd (List.cons.inj same).1 (nodeData_ne_externalData node name)
    | cons other others =>
      obtain ⟨first, rest⟩ := List.cons.inj same
      rw [nodeData_injective first, ih rest]

/-- The types and edges of a graph can be told from its entries. -/
theorem ShowsGraph.unique {other : Graph} (shown : ShowsGraph graph data)
    (shownOther : ShowsGraph other data) :
    graph.nodes.values = other.nodes.values ∧ graph.edges = other.edges := by
  obtain ⟨edges, shownEdges, rfl⟩ := shown
  obtain ⟨edges', shownEdges', same⟩ := shownOther
  simp only [Data.record.injEq, List.cons.injEq, Prod.mk.injEq, Data.list.injEq, true_and, and_true]
    at same
  obtain ⟨sameNodes, rfl⟩ := same
  exact ⟨nodes_unique sameNodes,
    List.left_unique_forall₂' (fun _ _ _ one two => one.unique two) shownEdges shownEdges'⟩

end Shown

section Title

/-- Running text read back from a page. -/
def readText : List Char → List Char
  | '&' :: 'a' :: 'm' :: 'p' :: ';' :: rest => '&' :: readText rest
  | '&' :: 'l' :: 't' :: ';' :: rest => '<' :: readText rest
  | '&' :: 'g' :: 't' :: ';' :: rest => '>' :: readText rest
  | '&' :: 'q' :: 'u' :: 'o' :: 't' :: ';' :: rest => '"' :: readText rest
  | '&' :: '#' :: 'x' :: '2' :: '7' :: ';' :: rest => '\'' :: readText rest
  | c :: rest => c :: readText rest
  | [] => []

end Title

/-- The title that a page shows: a general one in place of one that is empty. -/
def shownTitle (title : String) : String :=
  if title = "" then "Java inheritance" else title

/-- A script carries a graph: it is one line of ASCII in which no end tag begins, and it is read as
the graph. -/
structure Carries (graph : Graph) (script : List Char) : Prop where
  printable : ∀ c ∈ script, Printable c
  noEndTag : ¬ ['<', '/'] <:+: script
  read : ∃ data, Json.parse? script = some data ∧ ShowsGraph graph data

/-- The script of a graph with known relations carries it. -/
theorem exists_graphScript (known : KnownRelations graph) :
    ∃ script, graphScript graph = .ok script ∧ Carries graph script := by
  -- The data has no numbers, so the script is guarded and can be read back.
  obtain ⟨data, made, shown⟩ := exists_graphData known
  obtain ⟨written, notates, guards⟩ := shown.numberless.guardsData
  have guarded : guardTags (compact data) = written := by simpa [guardTags] using guards.guarded []
  refine ⟨guardTags (compact data), by rw [graphScript, made]; rfl, ?_, noEndTag_guardTags _,
    data, ?_, shown⟩
  · rw [guarded]
    exact guards.printable
  · rw [guarded]
    exact notates.parse?

/-- No two graphs are carried by one script. -/
theorem Carries.unique {other : Graph} {script : List Char} (carries : Carries graph script)
    (carriesOther : Carries other script) :
    other.nodes.values = graph.nodes.values ∧ other.edges = graph.edges := by
  obtain ⟨data, read, shown⟩ := carries.read
  obtain ⟨data', read', shown'⟩ := carriesOther.read
  obtain rfl : data = data' := Option.some.inj (read.symm.trans read')
  exact shown'.unique shown

/-- A page consists of the fixed parts of its template, the title twice as running text and the
data. -/
theorem render_eq {script : List Char} (made : graphScript graph = .ok script) (title : String) :
    render graph title = .ok (beforeTitle ++ escapedText (shownTitle title) ++ beforeHeading ++
      escapedText (shownTitle title) ++ beforeData ++ script ++ afterData) := by
  -- An empty title is replaced first, and then the template is filled.
  have shown : (if title == "" then "Java inheritance" else title) = shownTitle title := by
    rw [shownTitle]
    simp only [beq_iff_eq]
  rw [render, made, shown]
  exact congrArg Except.ok (filled_template script _)

end Lineage.Page
