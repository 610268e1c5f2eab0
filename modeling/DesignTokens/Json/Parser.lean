/-
Reading JSON text. The text is cut into marks, and the marks are taken one by
one by a machine whose state says what may come next and which containers are
open (`Parse`). The text must hold one value and nothing else; a member that
repeats a key takes the place of the first one and the value of the last; and
more than `maxDepth` open containers are refused.

This reader stands for that of an external package, `serde_json`: it accepts the
same texts and gives the same values, but does not tell what is wrong with a text
that it refuses. In what it gives no object repeats a key
(`Json.wellFormed_of_parse?`, among the proofs on well-formed values).
-/
import DesignTokens.Json.Token

namespace DesignTokens.Json

/-- An open container: its items in reverse, or its members and the key whose value comes. -/
inductive Frame where
  | array (items : List Json)
  | object (members : Members) (key : String)

/-- What may come next, inside which containers. -/
inductive Parse where
  /-- A value. -/
  | value (outer : List Frame)
  /-- The first item of an array, or its end. -/
  | arrayStart (outer : List Frame)
  /-- A comma in an array, or its end. -/
  | arrayNext (items : List Json) (outer : List Frame)
  /-- The first key of an object, or its end. -/
  | objectStart (outer : List Frame)
  /-- A further key of an object. -/
  | objectKey (members : Members) (outer : List Frame)
  /-- The colon behind a key. -/
  | objectColon (members : Members) (key : String) (outer : List Frame)
  /-- A comma in an object, or its end. -/
  | objectNext (members : Members) (outer : List Frame)
  /-- Nothing: the text is a whole value. -/
  | done (v : Json)

namespace Parse

/-- A value is complete: it goes into the innermost container. -/
def complete (v : Json) : List Frame → Parse
  | [] => .done v
  | .array items :: outer => .arrayNext (v :: items) outer
  | .object members key :: outer => .objectNext (Dict.insert members key v) outer

/-- A value starts with a mark. Opening a container needs room for it. -/
def begin? (maxDepth : Nat) (outer : List Frame) : Token → Option Parse
  | .arrayOpen => if outer.length < maxDepth then some (.arrayStart outer) else none
  | .objectOpen => if outer.length < maxDepth then some (.objectStart outer) else none
  | .null => some (complete .null outer)
  | .bool b => some (complete (.bool b) outer)
  | .number n => some (complete (.number n) outer)
  | .string s => some (complete (.string s) outer)
  | _ => none

/-- Takes one mark. -/
def step? (maxDepth : Nat) : Parse → Token → Option Parse
  | .value outer, t => begin? maxDepth outer t
  | .arrayStart outer, .arrayClose => some (complete (.array []) outer)
  | .arrayStart outer, t => begin? maxDepth (.array [] :: outer) t
  | .arrayNext items outer, .arrayClose => some (complete (.array items.reverse) outer)
  | .arrayNext items outer, .comma => some (.value (.array items :: outer))
  | .objectStart outer, .objectClose => some (complete (.object []) outer)
  | .objectStart outer, .string k => some (.objectColon [] k outer)
  | .objectKey members outer, .string k => some (.objectColon members k outer)
  | .objectColon members k outer, .colon => some (.value (.object members k :: outer))
  | .objectNext members outer, .objectClose => some (complete (.object members) outer)
  | .objectNext members outer, .comma => some (.objectKey members outer)
  | _, _ => none

/-- The value, if the text ended with it. -/
def value? : Parse → Option Json
  | .done v => some v
  | _ => none

end Parse

/-- Documents nest at most this deep. -/
def maxDepth : Nat := 127

/-- Reads a text that is one value, nested at most `depth` deep. -/
def parseWithin? (depth : Nat) (text : String) : Option Json := do
  let tokens ← Token.scan? text.toList
  (← tokens.foldlM (Parse.step? depth) (.value [])).value?

/-- Reads a document. -/
def parse? (text : String) : Option Json := parseWithin? maxDepth text

end DesignTokens.Json
