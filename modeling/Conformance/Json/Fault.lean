import Conformance.Text.Quoted
import Conformance.Text.Slice

/-!
# What can be wrong with a JSON text

A text is malformed, ends too early, or is well formed up to a value of the wrong shape. A `Failure`
keeps what is left of the text, from which its place follows.
-/

namespace Conformance.Json

/-- A value that came where another shape was wanted. -/
inductive Unexpected where
  | null
  | boolean (b : Bool)
  | integer (n : Int)
  /-- A number with a fraction or exponent, or out of the range of integers, by its text. -/
  | float (text : String)
  | string (s : String)
  | sequence
  | map
deriving DecidableEq, Repr

/-- The wording of such a value. -/
def Unexpected.text : Unexpected → String
  | null => "null"
  | boolean b => s!"boolean `{b}`"
  | integer n => s!"integer `{n}`"
  | float text => s!"floating point `{text}`"
  | string s => "string " ++ Text.quoted s
  | sequence => "sequence"
  | map => "map"

/-- A value of the wrong shape. -/
inductive DataFault where
  | invalidType (found : Unexpected) (wanted : String)
  | invalidLength (n : Nat) (wanted : String)
  | missingField (name : String)
  | duplicateField (name : String)
  | unknownVariant (name : String) (known : List String)
deriving DecidableEq, Repr

/-- The wording of a fault. -/
def DataFault.message : DataFault → String
  | invalidType found wanted => s!"invalid type: {found.text}, expected {wanted}"
  | invalidLength n wanted => s!"invalid length {n}, expected {wanted}"
  | missingField name => s!"missing field `{name}`"
  | duplicateField name => s!"duplicate field `{name}`"
  | unknownVariant name known =>
    let names := ", ".intercalate (known.map fun k => s!"`{k}`")
    s!"unknown variant `{name}`, expected one of {names}"

/-- What is wrong with a text. -/
inductive Fault where
  /-- The text cannot go on as it does. -/
  | malformed
  /-- The text ends inside a value. -/
  | endOfInput
  | data (fault : DataFault)
deriving DecidableEq, Repr

/-- A fault and the text behind the place where it was found. -/
structure Failure where
  fault : Fault
  rest : List Char
deriving DecidableEq, Repr

namespace Failure

/-- The part of the text in front of the place of a failure. -/
def readPart (text : List Char) (f : Failure) : List Char :=
  text.take (text.length - f.rest.length)

/-- The line of the place, counted from 1. -/
def line (text : List Char) (f : Failure) : Nat :=
  (f.readPart text).count '\n' + 1

/-- The bytes on that line in front of the place. -/
def column (text : List Char) (f : Failure) : Nat :=
  Text.byteLength ((f.readPart text).reverse.takeWhile (· ≠ '\n'))

/-- The wording of a failure, with its place in the text. -/
def message (text : List Char) (f : Failure) : String :=
  let what := match f.fault with
    | .malformed => "malformed JSON"
    | .endOfInput => "unexpected end of JSON"
    | .data d => d.message
  s!"{what} at line {f.line text} column {f.column text}"

end Failure

end Conformance.Json
