import Conformance.Text.Slice

/-!
# Places in a YAML text

The classes of characters that a YAML text is made of, and a `Cursor` that goes through a text and
keeps count of lines, columns and bytes.
-/

namespace Conformance.Yaml

/-- May the character stand in a text at all? -/
def isAllowed (c : Char) : Bool :=
  let n := c.toNat
  n = 0x9 || n = 0xA || n = 0xD || (0x20 ≤ n && n ≤ 0x7E) || n = 0x85
    || (0xA0 ≤ n && n ≠ 0xFFFE && n ≠ 0xFFFF)

/-- Does the character end a line? -/
def isBreak (c : Char) : Bool :=
  c = '\n' || c = '\r' || c = '\x85' || c = '\u2028' || c = '\u2029'

/-- Is the character a blank within a line? -/
def isBlank (c : Char) : Bool :=
  c = ' ' || c = '\t'

/-- Does a blank, a line end or the end of the text come first? -/
def isGap (cs : List Char) : Bool :=
  cs.head?.all fun c => isBlank c || isBreak c

/-- What is left of a text, and the place where it begins. Lines, columns and bytes are counted
from 0. -/
structure Cursor where
  rest : List Char
  line : Nat
  col : Nat
  /-- How many bytes of UTF-8 come before. -/
  offset : Nat
deriving DecidableEq, Repr

namespace Cursor

/-- The start of a text. -/
def ofText (text : String) : Cursor := ⟨text.toList, 0, 0, 0⟩

/-- The place `n` characters further on the same line. -/
def forward (c : Cursor) (n : Nat) : Cursor :=
  { c with
    rest := c.rest.drop n, col := c.col + n
    offset := c.offset + Text.byteLength (c.rest.take n) }

/-- The start of the next line, behind a line end. A carriage return and a line feed are one. -/
def nextLine (c : Cursor) : Cursor :=
  let n := if c.rest.take 2 = ['\r', '\n'] then 2 else 1
  { c.forward n with line := c.line + 1, col := 0 }

/-- Does a mark of three such characters stand at the start of the line? -/
def atTriple (c : Cursor) (mark : Char) : Bool :=
  c.col = 0 && c.rest.take 3 = [mark, mark, mark] && isGap (c.rest.drop 3)

/-- Does a mark between documents stand here? -/
def atDocumentMark (c : Cursor) : Bool :=
  c.atTriple '-' || c.atTriple '.'

@[simp]
theorem length_forward (c : Cursor) (n : Nat) :
    (c.forward n).rest.length = c.rest.length - n := by
  simp [forward]

/-- A line end is taken off the text. -/
theorem length_nextLine_lt (c : Cursor) (h : c.rest ≠ []) :
    c.nextLine.rest.length < c.rest.length := by
  have := List.length_pos_iff.2 h
  unfold nextLine
  split <;> simp only [length_forward] <;> omega

/-- Going to the next line leaves no more of the text. -/
theorem length_nextLine_le (c : Cursor) : c.nextLine.rest.length ≤ c.rest.length := by
  unfold nextLine
  split <;> simp

end Cursor

end Conformance.Yaml
