/-
Reading a tree document. An object with a `$value` is a token, any other object
a group. An object with both a `$value` and children is a group whose own token
is its `$root` child; an explicit `$root` child is the same, and comes first.

The type that is declared on a group passes down to what it holds. An entry
that cannot be used is reported and left out, with all that is below it; its
order key stays unused, so that no other entry changes.
-/
import DesignTokens.Document.Entry
import DesignTokens.Document.Issue
import DesignTokens.OrderKey.Sequence

namespace DesignTokens.Tree

/-- What the reserved keys of an entry say. -/
structure Header where
  declaredType : Option TokenType
  notes : Notes
  deriving DecidableEq, Repr

/-- The header of an entry without reserved keys. -/
def Header.empty : Header := ⟨none, .none⟩

/-- Adds what one reserved key says. A bad type spoils the entry; other faults do not. -/
def Header.add (h : Header) (place : Pointer.Path) (key : String) (raw : Json) :
    Reading (Option Header) :=
  let place := place ++ [key]
  if key = Key.type then
    match raw with
    | .string name =>
      match TokenType.ofName? name with
      | some t => pure (some { h with declaredType := some t })
      | none => .withIssue none place (.unknownType name)
    | _ => .withIssue none place (.stringExpected Key.type)
  else if key = Key.description then
    match raw with
    | .string s => pure (some { h with notes := { h.notes with description := some s } })
    | _ => .withIssue (some h) place (.stringExpected Key.description)
  else if key = Key.deprecated then
    match raw with
    | .bool b => pure (some { h with notes := { h.notes with deprecated := some (.marked b) } })
    | .string s => pure (some { h with notes := { h.notes with deprecated := some (.because s) } })
    | _ => .withIssue (some h) place .malformedDeprecated
  else if key = Key.extensions then
    match raw with
    | .object ms => pure (some { h with notes := { h.notes with extensions := some ms } })
    | _ => .withIssue (some h) place (.objectExpected Key.extensions)
  else if key = Key.value ∨ key = rootTokenName then pure (some h)
  else .withIssue (some h) place (.unknownKey key)

/-- Reads the reserved keys of an entry, in their order. -/
def Header.read (place : Pointer.Path) : Header → Members → Reading (Option Header)
  | h, [] => pure (some h)
  | h, (k, raw) :: ms =>
    if Name.isReserved k then do
      match ← h.add place k raw with
      | none => return none
      | some h => Header.read place h ms
    else Header.read place h ms

/-- Reads the value of a token. -/
def readToken (place : Pointer.Path) (inherited : Option TokenType) (name : String)
    (h : Header) (raw : Json) : Reading (Option (Entry Pointer.Path)) :=
  match TokenValue.ofJson (h.declaredType.or inherited) raw with
  | .ok value => pure (some (.token place ⟨name, h.notes, h.declaredType, value⟩))
  | .error e => .withIssue none (place ++ [Key.value]) (.value e)

/-- The siblings that were read, with their keys; those that were not are left out. -/
def collect {ι : Type} : List (String × Reading (Option (Entry ι))) → Reading (Forest ι)
  | [] => pure []
  | (order, r) :: rs => do
    let e ← r
    let es ← collect rs
    return (match e with
      | some e => (order, e) :: es
      | none => es)

/-- Children in sibling order: the group's own value, a `$root` entry, then the others. -/
def arrange {ι : Type} (own : Option (Reading (Option (Entry ι))))
    (children : List (String × Reading (Option (Entry ι)))) : Reading (Forest ι) :=
  let (roots, others) := children.partition fun c => c.1 = rootTokenName
  let siblings := own.toList ++ roots.map (·.2) ++ others.map (·.2)
  collect ((OrderKey.initial siblings.length).zip siblings)

/-- Whether members include a child. -/
def hasChildren (ms : Members) : Bool := ms.any fun m => Name.isChild m.1

mutual

/-- Reads the entry at a place, under a name and below groups that pass down a type. -/
def readEntry (place : Pointer.Path) (inherited : Option TokenType) (name : String)
    (raw : Json) : Reading (Option (Entry Pointer.Path)) :=
  match if name = rootTokenName then .ok () else Name.check name with
  | .error e => .withIssue none place (.badName e)
  | .ok () =>
    match raw with
    | .object ms => do
      match ← Header.read place .empty ms with
      | none => return none
      | some h =>
        let value := Dict.get? ms Key.value
        if name = rootTokenName then
          match value with
          | none => .withIssue none place .rootTokenWithoutValue
          | some raw =>
            if hasChildren ms then .withIssue none place .rootTokenWithChildren
            else readToken place inherited name h raw
        else
          match value, hasChildren ms with
          | some raw, false => readToken place inherited name h raw
          | value, _ => do
            let inherited := h.declaredType.or inherited
            let own ←
              if Dict.contains ms rootTokenName && value.isSome then
                .withIssue none (place ++ [Key.value]) .valueBesideRootToken
              else pure (value.map (readToken place inherited rootTokenName .empty))
            let children ← arrange own (readChildren place inherited ms)
            return some (.group place ⟨name, h.notes, h.declaredType⟩ children)
    | _ => .withIssue none place .entryNotAnObject

/-- Reads each child among members; the others are passed over. -/
def readChildren (place : Pointer.Path) (inherited : Option TokenType) :
    List (String × Json) → List (String × Reading (Option (Entry Pointer.Path)))
  | [] => []
  | (k, raw) :: ms =>
    if Name.isChild k then
      (k, readEntry (place ++ [k]) inherited k raw) :: readChildren place inherited ms
    else readChildren place inherited ms

end

/-- Reports the reserved keys at a document's root, where only `$schema` may stand. -/
def checkRootKeys (place : Pointer.Path) : Members → Reading Unit
  | [] => pure ()
  | (k, _) :: ms => do
    if Name.isReserved k && k ≠ Key.schema then .report (place ++ [k]) (.unexpectedRootKey k)
    checkRootKeys place ms

/-- Reads the members of a document's root, where `$root` is no child. -/
def readRoot (place : Pointer.Path) (ms : Members) : Reading (Forest Pointer.Path) := do
  checkRootKeys place ms
  arrange none ((readChildren place none ms).filter fun c => c.1 ≠ rootTokenName)

end DesignTokens.Tree
