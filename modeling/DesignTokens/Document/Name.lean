/-
Names and keys of token documents. A key with a leading `$` is reserved; every
other key names a group or a token, as does `$root` inside a group. A name is
fit for a dotted path: not empty, not reserved, and without braces and dots.
-/
import DesignTokens.Node

namespace DesignTokens

/-- Why a text is not the name of a group or token. -/
inductive NameError where
  | empty
  | reserved (name : String)
  | forbidden (name : String) (c : Char)
  deriving DecidableEq, Repr

/-- What a reader is told. -/
def NameError.message : NameError → String
  | empty => "name must not be empty"
  | reserved name => "name `" ++ name ++ "` must not start with `$`"
  | forbidden name c => "name `" ++ name ++ "` must not contain `" ++ String.ofList [c] ++ "`"

namespace Name

/-- The characters that have a meaning in references. -/
def isForbidden (c : Char) : Bool := c = '{' || c = '}' || c = '.'

/-- Whether a key is reserved. -/
def isReserved (key : String) : Bool := key.toList.head? = some '$'

/-- Whether a key of a group names a child of it. -/
def isChild (key : String) : Bool := !isReserved key || key = rootTokenName

/-- Checks the name of a group or token. -/
def check (name : String) : Except NameError Unit :=
  if name.isEmpty then .error .empty
  else if isReserved name then .error (.reserved name)
  else
    match name.toList.find? isForbidden with
    | some c => .error (.forbidden name c)
    | none => .ok ()

end Name

namespace Key

/-! The reserved keys. -/

/-- The type of a token, or of what a group holds. -/
def type : String := "$type"

/-- The value of a token. -/
def value : String := "$value"

/-- A text for readers. -/
def description : String := "$description"

/-- The mark of deprecation. -/
def deprecated : String := "$deprecated"

/-- Data of tools, which is kept as it is. -/
def extensions : String := "$extensions"

/-- The schema of a document, at its root only. -/
def schema : String := "$schema"

end Key

end DesignTokens
