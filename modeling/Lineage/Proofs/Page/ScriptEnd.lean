import Lineage.Proofs.Page.Scanning
import Lineage.Proofs.Page.Script

/-! Where the script of a page ends. The data in it cannot end it early, and puts its end off if it
is escaped doubly. -/

namespace Lineage.Page

open Scanning

section Template

/-- The start tag of a script. -/
def startTag : List Char :=
  "<script>".toList

/-- The text of the script before the data. -/
def opening : List Char :=
  "\nconst data = ".toList

/-- The text of the script from its start tag to the end of the page. -/
def scriptText (script : List Char) : List Char :=
  opening ++ script ++ afterData

/-- What a page has behind the end tag of its script. -/
def behindScript : List Char :=
  "\n</body>\n</html>\n".toList

/-- The script is in plain text where the data begins. -/
theorem run_opening : run (.text .plain) opening = .text .plain := by
  decide +kernel

/-- What a template has around its data: the start tag of the script right before it, and behind it,
after a semicolon, the end of the script at its own end tag, unless that tag is taken to end a
script inside an escape. -/
def HoldsScript (text : List Char) : Prop :=
  startTag ++ opening <:+ beforePlace (behindPlace (behindPlace text)) ∧
  "</script>".toList ++ behindScript <:+ behindPlace (behindPlace (behindPlace text)) ∧
  (behindPlace (behindPlace (behindPlace text))).head? = some ';' ∧
  ∀ depth ∈ [Depth.plain, Depth.escaped, Depth.doubled],
    behindEndTag (.text depth) (behindPlace (behindPlace (behindPlace text))).tail =
      if depth = .doubled then none else some behindScript

instance decidableHoldsScript (text : List Char) : Decidable (HoldsScript text) :=
  inferInstanceAs (Decidable (_ ∧ _))

/-- The template has its data in a script. -/
theorem holdsScript_template : HoldsScript template.toList := by
  -- The lines are opened one by one, since the joined text is too long to be evaluated as one
  -- literal.
  rw [template, String.toList_intercalate]
  simp only [List.map_cons, List.map_nil, String.toList_append]
  repeat rw [String.toList_ofList]
  decide +kernel

/-- The start tag of the script is the last thing before its text. -/
theorem startTag_suffix_beforeData : startTag ++ opening <:+ beforeData :=
  holdsScript_template.1

/-- The end tag of the script is the last thing before the end of the page. -/
theorem endTag_suffix_afterData : "</script>".toList ++ behindScript <:+ afterData :=
  holdsScript_template.2.1

/-- Behind the data the script ends at its own end tag, unless that tag is taken to end a script
inside an escape. -/
theorem exists_afterData_eq : ∃ rest, afterData = ';' :: rest ∧
    ∀ depth, behindEndTag (.text depth) rest =
      if depth = .doubled then none else some behindScript := by
  obtain ⟨_, _, semicolon, ends⟩ := holdsScript_template
  refine ⟨afterData.tail, (List.cons_head?_tail semicolon).symm, fun depth => ends depth ?_⟩
  cases depth <;> decide

end Template

section Ends

/-- Data without a `</` leaves the end of the script to the depth at which it leaves the text. -/
theorem behindEndTag_scriptText {script : List Char} (noEndTag : ¬ ['<', '/'] <:+: script) :
    behindEndTag (.text .plain) (scriptText script) =
      if (run (.text .plain) script).depth = .doubled then none else some behindScript := by
  obtain ⟨rest, sameAfter, ends⟩ := exists_afterData_eq
  have tracks := tracks_run noEndTag
  have sameState : run (.text .plain) (opening ++ script) = run (.text .plain) script := by
    rw [run_append, run_opening]
  have isOpen : run (.text .plain) (opening ++ script) ≠ .closed := by
    rw [sameState]
    exact tracks.ne_closed
  calc behindEndTag (.text .plain) (scriptText script)
      = behindEndTag (run (.text .plain) script) (';' :: rest) := by
        rw [scriptText, sameAfter, behindEndTag_append isOpen, sameState]
    -- The data is followed by a semicolon of the script, behind which nothing is under way.
    _ = behindEndTag (.text (run (.text .plain) script).depth) rest := by
        rw [behindEndTag, tracks.step_semicolon]
        exact tracks.ne_closed
    _ = if (run (.text .plain) script).depth = .doubled then none else some behindScript := ends _

/-- Data without a `</` puts off the end of the script just when it is escaped doubly. -/
theorem behindEndTag_eq_none_iff {script : List Char} (noEndTag : ¬ ['<', '/'] <:+: script) :
    behindEndTag (.text .plain) (scriptText script) = none ↔ DoublyEscaped script := by
  rw [behindEndTag_scriptText noEndTag, ← (tracks_run noEndTag).fits.doubled_iff]
  simp

/-- Data without a `</` leaves the script its own end tag just when it is not escaped doubly. -/
theorem behindEndTag_eq_some_iff {script : List Char} (noEndTag : ¬ ['<', '/'] <:+: script) :
    behindEndTag (.text .plain) (scriptText script) = some behindScript ↔
      ¬ DoublyEscaped script := by
  rw [behindEndTag_scriptText noEndTag, ← (tracks_run noEndTag).fits.doubled_iff]
  simp

/-- A page has its data in a script. -/
theorem exists_render_eq {graph : Graph} {script : List Char}
    (made : graphScript graph = .ok script) (title : String) :
    ∃ page front, render graph title = .ok page ∧
      page = front ++ startTag ++ scriptText script := by
  -- The start tag stands at the end of the part before the data.
  obtain ⟨front, sameBefore⟩ := startTag_suffix_beforeData
  refine ⟨_, beforeTitle ++ escapedText (shownTitle title) ++ beforeHeading ++
    escapedText (shownTitle title) ++ front, render_eq made title, ?_⟩
  rw [← sameBefore]
  simp only [scriptText, List.append_assoc]

/-- The script of a page with known relations never ends early. It ends at its own end tag, which is
followed by the end of the page, just when the data is not escaped doubly, and never ends
otherwise. -/
theorem script_ends_iff {graph : Graph} (known : KnownRelations graph) (title : String) :
    ∃ script page front, graphScript graph = .ok script ∧ render graph title = .ok page ∧
      page = front ++ startTag ++ scriptText script ∧
      "</script>".toList ++ behindScript <:+ scriptText script ∧
      (behindEndTag (.text .plain) (scriptText script) = some behindScript ↔
        ¬ DoublyEscaped script) ∧
      (behindEndTag (.text .plain) (scriptText script) = none ↔ DoublyEscaped script) := by
  -- The script has no end tag in it, so its depth at the end decides.
  obtain ⟨script, made, carries⟩ := exists_graphScript known
  obtain ⟨page, front, rendered, parts⟩ := exists_render_eq made title
  refine ⟨script, page, front, made, rendered, parts, ?_, ?_, ?_⟩
  · exact endTag_suffix_afterData.trans (List.suffix_append _ _)
  · exact behindEndTag_eq_some_iff carries.noEndTag
  · exact behindEndTag_eq_none_iff carries.noEndTag

/-- The depth at which the data of a graph leaves its script. -/
def dataDepth (graph : Graph) : Except UnknownRelation Depth :=
  (graphScript graph).map fun script => (run (.text .plain) script).depth

/-- The data of a graph is escaped doubly just when it leaves its script so. -/
theorem doublyEscaped_iff_dataDepth {graph : Graph} {script : List Char}
    (made : graphScript graph = .ok script) (noEndTag : ¬ ['<', '/'] <:+: script) :
    DoublyEscaped script ↔ dataDepth graph = .ok .doubled := by
  rw [dataDepth, made, ← (tracks_run noEndTag).fits.doubled_iff]
  exact (Except.ok.injEq _ _).symm.to_iff

/-- A graph whose documentation shows a whole comment with a script in it, and the beginning of
another. -/
def shown : Graph where
  nodes :=
    ⟨[("A", ⟨"A", "A", "class", none, [⟨"f", "", "Reads <!-- <script> --> and <!-- <scripts>."⟩]⟩)],
    by simp⟩
  edges := [⟨"A", "</script>", Relation.extendsClass.label⟩]

/-- A whole comment in the documentation, and the beginning of another, do not hide the end. -/
theorem script_ends_iff_shown :
    KnownRelations shown ∧ ∃ script page front, graphScript shown = .ok script ∧
      render shown "</script>" = .ok page ∧
      page = front ++ startTag ++ scriptText script ∧
      behindEndTag (.text .plain) (scriptText script) = some behindScript := by
  have known : KnownRelations shown := by
    simp [KnownRelations, shown]
  obtain ⟨script, page, front, made, rendered, parts, -, ends, -⟩ :=
    script_ends_iff known "</script>"
  refine ⟨known, script, page, front, made, rendered, parts, ends.2 ?_⟩
  obtain ⟨other, madeOther, carries⟩ := exists_graphScript known
  obtain rfl : other = script := Except.ok.inj (madeOther.symm.trans made)
  rw [doublyEscaped_iff_dataDepth made carries.noEndTag]
  decide +kernel

/-- A graph whose documentation begins a comment and a script in it. -/
def commented : Graph where
  nodes :=
    ⟨[("A", ⟨"A", "A", "class", none, [⟨"f", "", "Strips <!-- and <script> from text."⟩]⟩)], by
    simp⟩
  edges := []

/-- The end tag of the page is lost to the script in the comment, and the script of the page never
ends. -/
theorem comment_hides_endTag :
    KnownRelations commented ∧ ∃ script page front, graphScript commented = .ok script ∧
      render commented "" = .ok page ∧ page = front ++ startTag ++ scriptText script ∧
      behindEndTag (.text .plain) (scriptText script) = none := by
  have known : KnownRelations commented := by
    simp [KnownRelations, commented]
  obtain ⟨script, made, carries⟩ := exists_graphScript known
  obtain ⟨page, front, rendered, parts⟩ := exists_render_eq made ""
  refine ⟨known, script, page, front, made, rendered, parts,
    (behindEndTag_eq_none_iff carries.noEndTag).2 ?_⟩
  rw [doublyEscaped_iff_dataDepth made carries.noEndTag]
  decide +kernel

end Ends

end Lineage.Page
