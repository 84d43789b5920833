import Lineage.Graph
import Lineage.Log

/-! Assembling declarations into one graph. -/

namespace Lineage

/-- Which of several declarations of one name counts. -/
inductive MergePolicy where
  | first
  | last
  | error
  deriving DecidableEq, Repr

/-- The name of a policy in settings. -/
def MergePolicy.label : MergePolicy → String
  | .first => "first"
  | .last => "last"
  | .error => "error"

/-- Every policy, in the order in which messages list them. -/
def MergePolicy.all : List MergePolicy :=
  [.first, .last, .error]

/-- The policy with a given name. -/
def MergePolicy.ofLabel? (label : String) : Option MergePolicy :=
  MergePolicy.all.find? (·.label == label)

/-- What becomes of an edge to a type that is declared nowhere. -/
inductive DanglingPolicy where
  | drop
  | keep
  deriving DecidableEq, Repr

/-- The name of a policy in settings. -/
def DanglingPolicy.label : DanglingPolicy → String
  | .drop => "drop"
  | .keep => "keep"

/-- Every policy, in the order in which messages list them. -/
def DanglingPolicy.all : List DanglingPolicy :=
  [.drop, .keep]

/-- The policy with a given name. -/
def DanglingPolicy.ofLabel? (label : String) : Option DanglingPolicy :=
  DanglingPolicy.all.find? (·.label == label)

/-- A name that is declared twice although each may be declared only once. -/
structure DuplicateType where
  name : String
  firstFile : Option String
  secondFile : Option String
  deriving DecidableEq, Repr

/-- The name of a file in a message. -/
def fileInMessage (file : Option String) : String :=
  file.getD "None"

/-- What is wrong, in words. -/
def DuplicateType.message (duplicate : DuplicateType) : String :=
  "Type " ++ duplicate.name ++ " declared in both " ++ fileInMessage duplicate.firstFile ++
    " and " ++ fileInMessage duplicate.secondFile

/-- The nodes with one more declaration taken in. -/
def addDeclaration (policy : MergePolicy) (nodes : Table String Node) (declaration : Declaration) :
    Logged (Except DuplicateType (Table String Node)) :=
  match nodes.get? declaration.name with
  | none => return .ok (nodes.put declaration.name declaration.node)
  | some known =>
    match policy with
    | .error => return .error ⟨declaration.name, known.originFile, declaration.sourceFile⟩
    | .last => return .ok (nodes.put declaration.name declaration.node)
    | .first => do
      Logged.note .debug ("Duplicate type " ++ declaration.name ++ " in " ++
        fileInMessage declaration.sourceFile ++ "; keeping " ++ fileInMessage known.originFile)
      return .ok nodes

/-- The nodes with all the declarations taken in, up to the first that may not be. -/
def addDeclarations (policy : MergePolicy) (nodes : Table String Node) :
    List Declaration → Logged (Except DuplicateType (Table String Node))
  | [] => return .ok nodes
  | declaration :: more => do
    match ← addDeclaration policy nodes declaration with
    | .error duplicate => return .error duplicate
    | .ok grown => addDeclarations policy grown more

/-- The edges that a policy leaves standing among all those that are declared. -/
def keepEdges (policy : DanglingPolicy) (nodes : Table String Node) (edges : List Edge) :
    List Edge :=
  match policy with
  | .keep => edges
  | .drop => edges.filter fun edge => nodes.contains edge.target

/-- The graph of the given declarations. Its edges are those of all declarations, also of the ones
that do not count as nodes, and an edge may point forward to a declaration that comes later. There
is no policy to refuse: names of policies are read by `MergePolicy.ofLabel?` and
`DanglingPolicy.ofLabel?`. -/
def assemble (merge : MergePolicy) (dangling : DanglingPolicy) (declarations : List Declaration) :
    Logged (Except DuplicateType Graph) := do
  match ← addDeclarations merge .empty declarations with
  | .error duplicate => return .error duplicate
  | .ok nodes =>
    let declared := declarations.flatMap Declaration.edges
    let edges := keepEdges dangling nodes declared
    if edges.length != declared.length then
      Logged.note .debug
        ("Dropped " ++ toString (declared.length - edges.length) ++ " edges to undeclared types")
    Logged.note .debug ("Graph: " ++ toString nodes.entries.length ++ " nodes, " ++
        toString edges.length ++ " edges")
    return .ok ⟨nodes, edges⟩

end Lineage
