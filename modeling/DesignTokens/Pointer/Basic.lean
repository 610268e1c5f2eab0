/-
JSON pointers. A path is a list of steps; its text puts a slash before each
step, and inside a step writes a tilde as `~0` and a slash as `~1`.

`isPointer` is the check that references undergo: a text is a pointer if it is
empty or starts with a slash. `parse` reads any text, one without the leading
slash as if it had one.
-/
import DesignTokens.Text.Split

namespace DesignTokens.Pointer

/-- The way from a value to a part of it: member names and array indices. -/
abbrev Path := List String

/-- A step's characters with tilde and slash escaped. -/
def escapeChars : List Char → List Char
  | [] => []
  | '~' :: cs => '~' :: '0' :: escapeChars cs
  | '/' :: cs => '~' :: '1' :: escapeChars cs
  | c :: cs => c :: escapeChars cs

/-- Escaped characters read back; a tilde before anything else stands for itself. -/
def unescapeChars : List Char → List Char
  | [] => []
  | '~' :: '1' :: cs => '/' :: unescapeChars cs
  | '~' :: '0' :: cs => '~' :: unescapeChars cs
  | c :: cs => c :: unescapeChars cs

/-- A step as it stands in a pointer. -/
def escape (step : String) : String := String.ofList (escapeChars step.toList)

/-- The step that an escaped text stands for. -/
def unescape (text : String) : String := String.ofList (unescapeChars text.toList)

/-- The text of a path. -/
def format (path : Path) : String :=
  String.ofList (path.flatMap fun step => '/' :: escapeChars step.toList)

/-- The path of a text; a leading slash is not a separator. -/
def parse (text : String) : Path :=
  match text.toList with
  | [] => []
  | '/' :: cs => (Text.splitChars '/' cs).map fun part => String.ofList (unescapeChars part)
  | cs => (Text.splitChars '/' cs).map fun part => String.ofList (unescapeChars part)

/-- Whether a text is a pointer: empty, or with a leading slash. -/
def isPointer (text : String) : Bool :=
  match text.toList with
  | [] => true
  | c :: _ => c = '/'

end DesignTokens.Pointer
