/-
What is wrong with a document. Reading never fails: what is not usable is left
out and reported as an issue, a cause and the place in the document where it
lies. `Reading` is a value with the issues met on the way to it, in order.
-/
import DesignTokens.Document.Name
import DesignTokens.Json.Printer
import DesignTokens.Pointer.Fragment
import DesignTokens.Resolution.Basic
import DesignTokens.Value.Reader

namespace DesignTokens

/-- Why a local reference inside a value cannot be replaced. -/
inductive ReferenceError where
  /-- References lead in a circle; the targets from the first one on. -/
  | circular (targets : List String)
  /-- A reference leads nowhere. -/
  | unresolved (target : String) (cause : PointerError)
  deriving DecidableEq, Repr

/-- What a reader is told. -/
def ReferenceError.message : ReferenceError → String
  | circular targets => "circular $ref: " ++ String.intercalate " -> " targets
  | unresolved target cause => "cannot resolve $ref `" ++ target ++ "`: " ++ cause.message

/-- The causes of issues. -/
inductive Cause where
  /- Values, types and notes. -/
  | reference (e : ReferenceError)
  | value (e : ValueError)
  | unresolved (e : ResolutionError)
  | unknownType (name : String)
  | stringExpected (key : String)
  | objectExpected (key : String)
  | malformedDeprecated
  | unknownKey (key : String)
  /- The shape of a token tree. -/
  | treeNotAnObject
  | unexpectedRootKey (key : String)
  | badName (e : NameError)
  | entryNotAnObject
  | rootTokenWithChildren
  | rootTokenWithoutValue
  | valueBesideRootToken
  /- The shape of a resolver document. -/
  | resolverNotAnObject
  | missingVersion
  | unsupportedVersion (found : Json)
  | missingResolutionOrder
  | keyedItems (key : String)
  | itemNotAnObject
  | itemWithoutName
  | itemWithoutType
  | duplicateItem (name : String)
  | setWithoutSources
  | modifierWithoutContexts
  | undefinedDefault (context : String)
  | contextWithoutSources
  | externalSource (target : String)
  | unresolvedSource (target : String) (cause : PointerError)
  | sourceNotAnObject
  deriving DecidableEq, Repr

/-- The version of the resolver format. -/
def resolverVersion : String := "2025.10"

/-- What a reader is told. -/
def Cause.message : Cause → String
  | reference e => e.message
  | value e => e.message
  | unresolved e => e.message
  | unknownType name => unknownTypeMessage name
  | stringExpected key => "`" ++ key ++ "` must be a string"
  | objectExpected key => "`" ++ key ++ "` must be an object"
  | malformedDeprecated => "`$deprecated` must be a boolean or a string"
  | unknownKey key => "unknown key `" ++ key ++ "` ignored"
  | treeNotAnObject => "document root must be an object"
  | unexpectedRootKey key => "unexpected key `" ++ key ++ "` at document root"
  | badName e => e.message
  | entryNotAnObject => "expected an object"
  | rootTokenWithChildren => "`$root` cannot have children"
  | rootTokenWithoutValue => "`$root` must hold a `$value`"
  | valueBesideRootToken => "both `$value` and `$root` given; `$value` ignored"
  | resolverNotAnObject => "resolver document must be an object"
  | missingVersion => "missing `version`"
  | unsupportedVersion found =>
    "unsupported version " ++ found.compact ++ "; expected \"" ++ resolverVersion ++ "\""
  | missingResolutionOrder => "`resolutionOrder` must be an array"
  | keyedItems key =>
    "keyed `" ++ key ++ "` are not supported; list items in `resolutionOrder`"
  | itemNotAnObject => "item must be an object"
  | itemWithoutName => "item needs a string `name`"
  | itemWithoutType => "item `type` must be \"set\" or \"modifier\""
  | duplicateItem name => "duplicate item name `" ++ name ++ "`"
  | setWithoutSources => "set needs a `sources` array"
  | modifierWithoutContexts => "modifier needs a `contexts` object"
  | undefinedDefault context => "default context `" ++ context ++ "` is not defined"
  | contextWithoutSources => "context must list its sources"
  | externalSource target =>
    "external source `" ++ target ++ "` must be resolved by the caller"
  | unresolvedSource target cause =>
    "cannot resolve source `" ++ target ++ "`: " ++ cause.message
  | sourceNotAnObject => "source must be an object"

/-- A cause, and the path in the document to where it lies. -/
structure Issue where
  path : Pointer.Path
  cause : Cause
  deriving DecidableEq, Repr

namespace Issue

/-- The place as a JSON pointer. -/
def pointer (i : Issue) : String := Pointer.format i.path

/-- What a reader is told of the cause. -/
def message (i : Issue) : String := i.cause.message

/-- The line for a reader; nothing stands before the message of the whole document. -/
def display (i : Issue) : String :=
  if i.path.isEmpty then i.message else i.pointer ++ ": " ++ i.message

end Issue

/-- A value, and the issues met on the way to it. -/
structure Reading (α : Type) where
  value : α
  issues : List Issue
  deriving DecidableEq, Repr

namespace Reading

variable {α β : Type}

/-- Goes on from a value; the issues of the second part follow those of the first. -/
def bind (r : Reading α) (f : α → Reading β) : Reading β :=
  ⟨(f r.value).value, r.issues ++ (f r.value).issues⟩

instance : Monad Reading where
  pure a := ⟨a, []⟩
  bind := bind

/-- Reports an issue. -/
def report (path : Pointer.Path) (cause : Cause) : Reading Unit := ⟨(), [⟨path, cause⟩]⟩

/-- Reports an issue and gives a value in spite of it. -/
def withIssue (a : α) (path : Pointer.Path) (cause : Cause) : Reading α := ⟨a, [⟨path, cause⟩]⟩

@[simp] theorem value_pure (a : α) : (pure a : Reading α).value = a := rfl

@[simp] theorem issues_pure (a : α) : (pure a : Reading α).issues = [] := rfl

@[simp] theorem value_bind (r : Reading α) (f : α → Reading β) :
    (r >>= f).value = (f r.value).value := rfl

@[simp] theorem issues_bind (r : Reading α) (f : α → Reading β) :
    (r >>= f).issues = r.issues ++ (f r.value).issues := rfl

theorem issues_bind_eq_nil_iff {r : Reading α} {f : α → Reading β} :
    (r >>= f).issues = [] ↔ r.issues = [] ∧ (f r.value).issues = [] := by
  rw [issues_bind, List.append_eq_nil_iff]

instance : LawfulMonad Reading := LawfulMonad.mk' Reading
  (fun r => by
    show (⟨r.value, r.issues ++ []⟩ : Reading _) = r
    rw [List.append_nil])
  (fun _ _ => rfl)
  (fun r f g => by
    show (⟨_, (r.issues ++ (f r.value).issues) ++ (g (f r.value).value).issues⟩ : Reading _)
      = ⟨_, r.issues ++ ((f r.value).issues ++ (g (f r.value).value).issues)⟩
    rw [List.append_assoc]; rfl)

end Reading

end DesignTokens
