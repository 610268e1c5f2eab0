/-
What reading a document gives: nodes, and the issues met. Once all nodes are
known, every token that holds a reference is resolved among them; one that does
not resolve is an issue at its value.
-/
import DesignTokens.Document.Ids
import DesignTokens.Document.Issue
import DesignTokens.Store.Batch

namespace DesignTokens

/-- What is done to a document besides reading it. -/
structure ReadOptions where
  /-- Whether local references inside values are replaced first. -/
  expandReferences : Bool
  /-- Whether the references between tokens are checked last. -/
  checkReferences : Bool
  deriving DecidableEq, Repr

/-- Everything is done. -/
def ReadOptions.all : ReadOptions := ⟨true, true⟩

/-- The nodes of a document in reading order, and its issues. -/
structure Output where
  nodes : List Node
  issues : List Issue
  deriving DecidableEq, Repr

/-- Whether there are no issues. -/
def Output.isClean (o : Output) : Bool := o.issues.isEmpty

/-- The issue of a token that holds a reference and does not resolve. -/
def referenceIssue? (s : Store) (p : Placed) : Option Issue :=
  match p.node.token? with
  | none => none
  | some t =>
    if t.value.aliases.isEmpty then none
    else
      match s.resolve p.node.id with
      | .ok _ => none
      | .error e => some ⟨p.place ++ [Key.value], .unresolved e⟩

/-- The issues of all tokens that hold a reference and do not resolve among the nodes. -/
def referenceIssues (placed : List Placed) : List Issue :=
  let s := Store.ofNodes (placed.map (·.node))
  placed.filterMap (referenceIssue? s)

/-- Ends reading: references are checked if asked for. -/
def Output.ofPlaced (options : ReadOptions) (placed : List Placed) (issues : List Issue) :
    Output :=
  ⟨placed.map (·.node),
    issues ++ if options.checkReferences then referenceIssues placed else []⟩

end DesignTokens
