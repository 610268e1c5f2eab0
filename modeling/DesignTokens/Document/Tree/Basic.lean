/-
Tree documents as a whole: references are replaced, the tree is read, its
entries become nodes, and the references between tokens are checked.
-/
import DesignTokens.Document.Expansion
import DesignTokens.Document.Output
import DesignTokens.Document.Tree.Reader

namespace DesignTokens.Tree

/-- The entries of a tree document. -/
def read (options : ReadOptions) (doc : Json) : Reading (Forest Pointer.Path) :=
  match doc with
  | .object ms =>
    if options.expandReferences then do
      let expanded ← Expansion.expandValues doc []
      readRoot [] (expanded.members?.getD ms)
    else readRoot [] ms
  | _ => .withIssue [] [] .treeNotAnObject

/-- The nodes and issues of a tree document. -/
def parse (scheme : IdScheme) (options : ReadOptions) (doc : Json) : Output :=
  let r := read options doc
  Output.ofPlaced options (forestNodes scheme none [] 0 r.value) r.issues

end DesignTokens.Tree
