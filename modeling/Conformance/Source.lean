import Conformance.Text.Slice

/-!
# Specification texts

A `Source` is a specification text under the name of its file. `ofContents?` makes one of a text
that is not too large: lines and byte offsets of such a text fit in 32 bits, so that they are plain
numbers here (`Span.StandsIn.lt_of_le_sizeLimit`). `lineRanges` is the table of lines of a text, each
the bytes from the line's first character up to its terminator, which is a line feed with the
carriage return right before it, if there is one. `message` shows a place in the text with a caret
below the line.
-/

namespace Conformance

open Text

/-- A specification text and the name of the file that it stands in. -/
structure Source where
  file : String
  contents : String
deriving DecidableEq, Repr

/-- The bytes of a line, its terminator excluded. -/
structure LineRange where
  start : Nat
  stop : Nat
deriving DecidableEq, Repr

namespace Source

/-- The most bytes that a text may have. Lines and columns are counted from 1, and the end of a text
is a place behind it. -/
def sizeLimit : Nat := UInt32.size - 3

/-- A text under the name of its file, unless it is too large. -/
def ofContents? (file contents : String) : Option Source :=
  if sizeLimit < contents.utf8ByteSize then none else some ⟨file, contents⟩

/-- What is said of a text that is too large. -/
def tooLargeMessage (file : String) : String :=
  s!"{file} exceeds maximum allowed specification size {sizeLimit}"

theorem ofContents?_eq_some_iff {file contents : String} {src : Source} :
    ofContents? file contents = some src
      ↔ contents.utf8ByteSize ≤ sizeLimit ∧ src = ⟨file, contents⟩ := by
  unfold ofContents?
  split
  · next h => simp [Nat.not_le.2 h]
  · next h => simp [Nat.not_lt.1 h, eq_comm]

/-- The lines of what is left of a text, where the line under way began at byte `start`, the rest
begins at byte `here`, and `afterReturn` says whether a carriage return comes right before it. -/
def rangesFrom (start here : Nat) (afterReturn : Bool) : List Char → List LineRange
  | [] => [⟨start, here⟩]
  | c :: cs =>
    let next := here + c.utf8Size
    if c = '\n' then
      ⟨start, if afterReturn then here - 1 else here⟩ :: rangesFrom next next false cs
    else
      rangesFrom start next (c = '\r') cs

/-- The table of lines of a text. It has at least one line. -/
def lineRanges (src : Source) : List LineRange :=
  rangesFrom 0 0 false src.contents.toList

/-- The text between two byte offsets. -/
def textBetween (src : Source) (start stop : Nat) : String :=
  String.ofList (slice start stop src.contents.toList)

/-- The line with index `i`, counted from 0; empty if there is none. -/
def line (src : Source) (i : Nat) : String :=
  match src.lineRanges[i]? with
  | some r => src.textBetween r.start r.stop
  | none => ""

/-- A run of `n` spaces. -/
def spaces (n : Nat) : String :=
  String.ofList (List.replicate n ' ')

/-- Shows line `line` of the text with a caret below column `col`, and below it `kind` and `msg`.
Both places are counted from 1. -/
def message (src : Source) (line col : Nat) (kind msg : String) : String :=
  if line = 0 ∨ src.lineRanges.length < line then
    s!"{src.file}: invalid line {line} specified"
  else
    let margin := spaces ((toString line).length + 1)
    s!"\n--> {src.file}:{line}:{col}\n" ++ s!"{margin}|\n"
      ++ s!"{line} | {src.line (line - 1)}\n"
      ++ s!"{margin}| {spaces (col - 1)}^\n"
      ++ s!"{kind}: {msg}"

end Source

end Conformance
