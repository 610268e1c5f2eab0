/-
The two services on a whole document given as text: every token resolved, or
the document in canonical form. Either gives a document and the issues met
while reading; `Run` is what a command prints for it and the status it ends
with.

Of a text that is not JSON a command prints what the JSON parser says of it. The
parser of this library gives no reason, so the reason is a parameter
(`Run.explained`), and without one the line is left open where it would begin.
-/
import DesignTokens.Document.Resolver.Reader
import DesignTokens.Document.Resolver.Writer
import DesignTokens.Document.Tree.Basic
import DesignTokens.Json.Parser
import DesignTokens.Resolution.Basic

namespace DesignTokens

/-- The formats of documents. -/
inductive Format where
  | tree
  | resolver
  deriving DecidableEq, Repr

/-- A document with a `resolutionOrder` is a resolver document. -/
def Format.of (doc : Json) : Format :=
  if (doc.member? "resolutionOrder").isSome then .resolver else .tree

/-- Why a service gives no document. -/
inductive ReportError where
  /-- The text is not JSON. -/
  | malformedText
  /-- The store cannot be written. -/
  | write (e : WriteError)
  deriving DecidableEq, Repr

/-- The line that a reader is told, with the reason that a JSON parser gives, if it gives any. -/
def ReportError.line (reason : Option String) : ReportError → String
  | malformedText =>
    match reason with
    | some reason => "invalid JSON: " ++ reason ++ "\n"
    | none => "invalid JSON"
  | write e => e.message ++ "\n"

/-- A document, and the issues met while reading the one it was made from. -/
structure Report where
  document : Json
  issues : List Issue
  deriving DecidableEq, Repr

/-- A document that was read into a store. -/
structure Loaded where
  format : Format
  store : Store
  info : ResolverInfo
  issues : List Issue
  deriving DecidableEq, Repr

/-- Reads a document, whose nodes are numbered. -/
def Loaded.ofDocument (doc : Json) : Loaded :=
  let scheme : IdScheme := .sequential "n"
  match Format.of doc with
  | .tree =>
    let o := Tree.parse scheme .all doc
    ⟨.tree, .ofNodes o.nodes, ⟨"", none⟩, o.issues⟩
  | .resolver =>
    let (info, o) := Resolver.parse scheme .all doc
    ⟨.resolver, .ofNodes o.nodes, info, o.issues⟩

namespace Report

/-- Reads a text into a store. -/
def load (text : String) : Except ReportError Loaded :=
  match Json.parse? text with
  | none => .error .malformedText
  | some doc => .ok (.ofDocument doc)

/-- Whether a node's name stands before the path of the tokens below it. -/
def isQualifier (n : Node) : Bool :=
  match n.content with
  | .set _ | .modifier _ | .context _ => true
  | _ => false

/-- The name of a token in the report: its containers and its path. -/
def reportName (s : Store) (id : NodeId) : String :=
  let containers := ((s.ancestors id).filter isQualifier).map Node.name
  String.intercalate "/" (containers.reverse ++ [s.displayOf id])

/-- What is reported of a token. -/
def entry : Except ResolutionError Resolved → Json
  | .ok r => .object [("type", .string r.type.name), ("value", r.value.toJson)]
  | .error e => .object [("error", .string e.message)]

/-- Every token of a store by name; of several under one name the last one is reported. -/
def ofStore (s : Store) : Members :=
  s.resolveAll.foldl (fun ms r => Dict.insert ms (reportName s r.1.id) (entry r.2)) []

/-- Every token of a document with its type and value, or with why it has none. -/
def resolve (text : String) : Except ReportError Report := do
  let l ← load text
  return ⟨.object (ofStore l.store), l.issues⟩

/-- A store as a document of a format. -/
def writeAs (format : Format) (s : Store) (info : ResolverInfo) : Except WriteError Json :=
  match format with
  | .tree => Tree.write true s
  | .resolver => Resolver.write true s (some info)

/-- A document in canonical form. -/
def normalize (text : String) : Except ReportError Report := do
  let l ← load text
  match writeAs l.format l.store l.info with
  | .ok document => return ⟨document, l.issues⟩
  | .error e => throw (.write e)

end Report

/-- What a command prints, and whether it failed. -/
structure Run where
  failed : Bool
  out : String
  err : String
  deriving DecidableEq, Repr

/-- A report as a command prints it: the document, and its issues line by line; or the error, with
the reason that a JSON parser gives. -/
def Run.explained (reason : Option String) : Except ReportError Report → Run
  | .error e => ⟨true, "", e.line reason⟩
  | .ok r =>
    ⟨!r.issues.isEmpty, r.document.pretty ++ "\n",
      String.join (r.issues.map fun i => i.display ++ "\n")⟩

/-- A report as a command prints it that has no reason from a JSON parser. -/
def Run.ofReport : Except ReportError Report → Run := Run.explained none

end DesignTokens
