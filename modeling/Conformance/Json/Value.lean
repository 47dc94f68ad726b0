import Conformance.Text.Quoted

/-!
# JSON texts

The values that this library writes as JSON, and two ways to write them: all on one line, and one
item or field a line with two spaces for each level. The fields of an object keep their order.
-/

namespace Conformance.Json

/-- A value that can be written. -/
inductive Value where
  | text (s : String)
  | number (n : Nat)
  | list (items : List Value)
  | object (fields : List (String × Value))

/-- The digits of a number below 65536 in base 16, four of them. -/
def fourHexDigits (n : Nat) : List Char :=
  [n / 4096, n / 256 % 16, n / 16 % 16, n % 16].map Nat.digitChar

/-- A character inside a string. Quotes, backslashes and control characters below U+0020 are
escaped, and nothing else is. -/
def escapeChar (c : Char) : List Char :=
  if c = '"' then ['\\', '"']
  else if c = '\\' then ['\\', '\\']
  else if c = '\x08' then ['\\', 'b']
  else if c = '\t' then ['\\', 't']
  else if c = '\n' then ['\\', 'n']
  else if c = '\x0c' then ['\\', 'f']
  else if c = '\r' then ['\\', 'r']
  else if c.toNat < 0x20 then ['\\', 'u'] ++ fourHexDigits c.toNat
  else [c]

/-- A string with its quotes. -/
def quote (cs : List Char) : List Char :=
  '"' :: cs.flatMap escapeChar ++ ['"']

/-- The digits of a number in base 10. -/
def digits (n : Nat) : List Char :=
  Nat.toDigits 10 n

namespace Value

mutual

/-- A value on one line, without blanks. -/
def compact : Value → List Char
  | text s => quote s.toList
  | number n => digits n
  | list items => '[' :: compactItems items ++ [']']
  | object fields => '\x7b' :: compactFields fields ++ ['\x7d']

/-- The items of a list with commas between them. -/
def compactItems : List Value → List Char
  | [] => []
  | v :: vs => compact v ++ compactMoreItems vs

/-- The items of a list behind its first, each with a comma in front. -/
def compactMoreItems : List Value → List Char
  | [] => []
  | v :: vs => ',' :: compact v ++ compactMoreItems vs

/-- The fields of an object with commas between them. -/
def compactFields : List (String × Value) → List Char
  | [] => []
  | (k, v) :: fields => quote k.toList ++ ':' :: compact v ++ compactMoreFields fields

/-- The fields of an object behind its first, each with a comma in front. -/
def compactMoreFields : List (String × Value) → List Char
  | [] => []
  | (k, v) :: fields => ',' :: quote k.toList ++ ':' :: compact v ++ compactMoreFields fields

end

/-- A new line at a depth of nesting. -/
def newLine (depth : Nat) : List Char :=
  '\n' :: List.replicate (2 * depth) ' '

mutual

/-- A value over several lines, the first of which stands at `depth`. -/
def pretty (depth : Nat) : Value → List Char
  | text s => quote s.toList
  | number n => digits n
  | list items =>
    if items.isEmpty then ['[', ']']
    else '[' :: prettyItems (depth + 1) false items ++ newLine depth ++ [']']
  | object fields =>
    if fields.isEmpty then ['\x7b', '\x7d']
    else '\x7b' :: prettyFields (depth + 1) false fields ++ newLine depth ++ ['\x7d']

/-- The items of a list, each on a new line; `more` says that others stand in front. -/
def prettyItems (depth : Nat) (more : Bool) : List Value → List Char
  | [] => []
  | v :: vs =>
    (if more then [','] else []) ++ newLine depth ++ pretty depth v ++ prettyItems depth true vs

/-- The fields of an object, each on a new line; `more` says that others stand in front. -/
def prettyFields (depth : Nat) (more : Bool) : List (String × Value) → List Char
  | [] => []
  | (k, v) :: fields =>
    (if more then [','] else []) ++ newLine depth ++ quote k.toList ++ ':' :: ' '
      :: pretty depth v ++ prettyFields depth true fields

end

/-- A value as a text on one line. -/
def toText (v : Value) : String :=
  String.ofList v.compact

/-- A value as a text over several lines. -/
def toPrettyText (v : Value) : String :=
  String.ofList (v.pretty 0)

/-- A list of strings. -/
def texts (ss : List String) : Value :=
  .list (ss.map .text)

end Value

end Conformance.Json
