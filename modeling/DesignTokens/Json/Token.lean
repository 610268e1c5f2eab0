/-
The marks of JSON text: brackets, separators, words, numbers and strings
(`Token`), and how a text is cut into them (`Token.scan`).

The text is read from left to right, one character at a time; `Scan` is what
is being read. A number or a word ends where a character comes that cannot
belong to it. A string is read into plain characters and `\u` units; units pair
up into characters only at its end (`joinUnits`), a unit of a pair that stands
alone is refused.
-/
import DesignTokens.Json.Basic
import DesignTokens.Number.Decimal

namespace DesignTokens.Json

/-- A mark of JSON text. -/
inductive Token where
  | arrayOpen
  | arrayClose
  | objectOpen
  | objectClose
  | comma
  | colon
  | null
  | bool (b : Bool)
  | number (n : Number)
  | string (s : String)
  deriving DecidableEq, Repr

/-- What a string is made of: characters, and 16-bit units written `\uXXXX`. -/
inductive Piece where
  | char (c : Char)
  | unit (n : Nat)
  deriving DecidableEq, Repr

/-- Units that start a pair, and units that end one. -/
def isHighUnit (n : Nat) : Bool := 0xD800 ≤ n && n < 0xDC00

@[inherit_doc isHighUnit]
def isLowUnit (n : Nat) : Bool := 0xDC00 ≤ n && n < 0xE000

/-- The characters of a string; a high unit must be followed by a low one. -/
def joinUnits : List Piece → Option (List Char)
  | [] => some []
  | .char c :: ps => (joinUnits ps).map (c :: ·)
  | .unit n :: .unit m :: ps =>
    if isHighUnit n then
      if isLowUnit m then
        (joinUnits ps).map (Char.ofNat (0x10000 + (n - 0xD800) * 0x400 + (m - 0xDC00)) :: ·)
      else none
    else if isLowUnit n then none
    else (joinUnits (.unit m :: ps)).map (Char.ofNat n :: ·)
  | .unit n :: ps =>
    if isHighUnit n || isLowUnit n then none
    else (joinUnits ps).map (Char.ofNat n :: ·)

/-- The value of a hexadecimal digit. -/
def hexDigit? (c : Char) : Option Nat :=
  if '0' ≤ c ∧ c ≤ '9' then some (c.toNat - '0'.toNat)
  else if 'a' ≤ c ∧ c ≤ 'f' then some (c.toNat - 'a'.toNat + 10)
  else if 'A' ≤ c ∧ c ≤ 'F' then some (c.toNat - 'A'.toNat + 10)
  else none

/-- What is being read. Characters and pieces are held in reverse. -/
inductive Scan where
  | between
  | word (cs : List Char)
  | number (cs : List Char)
  | string (ps : List Piece)
  | escape (ps : List Piece)
  | unit (ps : List Piece) (read value : Nat)
  deriving Repr

/-- The marks read so far, the last one first, and what is being read. -/
structure Scanner where
  tokens : List Token
  state : Scan

/-- The blanks between marks: space, tab, line feed and carriage return. -/
def isBlank (c : Char) : Bool := c = ' ' || c = '\t' || c = '\n' || c = '\r'

/-- The characters that can belong to a number. -/
def isNumberChar (c : Char) : Bool :=
  ('0' ≤ c && c ≤ '9') || c = '-' || c = '+' || c = '.' || c = 'e' || c = 'E'

/-- The characters that can belong to a word. -/
def isWordChar (c : Char) : Bool := 'a' ≤ c && c ≤ 'z'

/-- The three words. -/
def word? (cs : List Char) : Option Token :=
  if cs = ['n', 'u', 'l', 'l'] then some .null
  else if cs = ['t', 'r', 'u', 'e'] then some (.bool true)
  else if cs = ['f', 'a', 'l', 's', 'e'] then some (.bool false)
  else none

/-- The single-character marks. -/
def mark? (c : Char) : Option Token :=
  if c = '[' then some .arrayOpen
  else if c = ']' then some .arrayClose
  else if c = '{' then some .objectOpen
  else if c = '}' then some .objectClose
  else if c = ',' then some .comma
  else if c = ':' then some .colon
  else none

/-- The character that a letter behind a backslash stands for. -/
def escaped? (c : Char) : Option Char :=
  if c = '"' ∨ c = '\\' ∨ c = '/' then some c
  else if c = 'b' then some '\x08'
  else if c = 'f' then some '\x0c'
  else if c = 'n' then some '\n'
  else if c = 'r' then some '\r'
  else if c = 't' then some '\t'
  else none

/-- Starts what a character outside any mark begins. -/
def Scanner.start? (tokens : List Token) (c : Char) : Option Scanner :=
  if isBlank c then some ⟨tokens, .between⟩
  else if c = '"' then some ⟨tokens, .string []⟩
  else if isWordChar c then some ⟨tokens, .word [c]⟩
  else if isNumberChar c then some ⟨tokens, .number [c]⟩
  else (mark? c).map fun t => ⟨t :: tokens, .between⟩

/-- Reads one character. -/
def Scanner.step? (s : Scanner) (c : Char) : Option Scanner :=
  match s.state with
  | .between => Scanner.start? s.tokens c
  | .word cs =>
    if isWordChar c then some ⟨s.tokens, .word (c :: cs)⟩
    else do Scanner.start? ((← word? cs.reverse) :: s.tokens) c
  | .number cs =>
    if isNumberChar c then some ⟨s.tokens, .number (c :: cs)⟩
    else do Scanner.start? (.number (← Number.ofChars? cs.reverse) :: s.tokens) c
  | .string ps =>
    if c = '"' then do
      let cs ← joinUnits ps.reverse
      return ⟨.string (String.ofList cs) :: s.tokens, .between⟩
    else if c = '\\' then some ⟨s.tokens, .escape ps⟩
    else if c < ' ' then none
    else some ⟨s.tokens, .string (.char c :: ps)⟩
  | .escape ps =>
    if c = 'u' then some ⟨s.tokens, .unit ps 0 0⟩
    else (escaped? c).map fun e => ⟨s.tokens, .string (.char e :: ps)⟩
  | .unit ps read value => do
    let value := 16 * value + (← hexDigit? c)
    if read + 1 < 4 then some ⟨s.tokens, .unit ps (read + 1) value⟩
    else some ⟨s.tokens, .string (.unit value :: ps)⟩

/-- Ends the text: a word or number at its end is complete, a string must have been closed. -/
def Scanner.finish? (s : Scanner) : Option (List Token) :=
  match s.state with
  | .between => some s.tokens.reverse
  | .word cs => do some ((← word? cs.reverse) :: s.tokens).reverse
  | .number cs => do some (.number (← Number.ofChars? cs.reverse) :: s.tokens).reverse
  | _ => none

/-- The marks of a text, if it can be cut into marks. -/
def Token.scan? (cs : List Char) : Option (List Token) := do
  (← cs.foldlM Scanner.step? ⟨[], .between⟩).finish?

end DesignTokens.Json
