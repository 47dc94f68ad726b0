import Conformance.Regex.Tables
import Conformance.Text.Blank

/-!
# Patterns of element names

A `Glob` is a pattern for names of code elements: `*` stands for any run of characters, `?` for
exactly one, and any other character for itself. Neither `*` nor `?` stands for a line feed. A
pattern always fits the whole name, which `Glob.Fits` says piece by piece.

Patterns are matched by regular expressions: `Glob.expression` is the one for a pattern, with an
anchor at both ends. Any engine can be used for it, and `Regex.tables` is unless another is named.
-/

namespace Conformance

/-- May the text be a pattern? It has to hold something, and neither blanks nor control characters.
-/
def isGlobText (s : String) : Bool :=
  !s.toList.isEmpty && s.toList.all fun c => !Text.isBlank c && !Text.isControl c

/-- A pattern of element names. -/
structure Glob where
  text : String
  isGlobText_text : isGlobText text = true
deriving DecidableEq

namespace Glob

/-- What a character of a pattern is in a regular expression. -/
def charExpression (engine : Regex.Engine) (c : Char) : String :=
  if c = '*' then ".*"
  else if c = '?' then "."
  else engine.escape (String.singleton c)

/-- The regular expression for the text of a pattern. -/
def expression (engine : Regex.Engine) (s : String) : String :=
  s.toList.foldl (fun re c => re ++ charExpression engine c) "^" ++ "$"

/-- The pattern with a given text, if the text may be one and its expression is compiled. -/
def ofString? (s : String) (engine : Regex.Engine := Regex.tables) : Option Glob :=
  if h : isGlobText s = true then
    (engine.compile? (expression engine s)).map fun _ => ⟨s, h⟩
  else none

/-- Does the whole name fit the pattern? -/
def accepts (g : Glob) (name : String) (engine : Regex.Engine := Regex.tables) : Bool :=
  (engine.compile? (expression engine g.text)).any (engine.isMatch · name)

/-- Can `*` and `?` stand for the character? -/
def isWild (c : Char) : Bool :=
  c ≠ '\n'

/-- Does a piece of a name fit one character of a pattern? -/
def PieceFits (p : Char) (piece : List Char) : Prop :=
  if p = '*' then ∀ c ∈ piece, isWild c = true
  else if p = '?' then ∃ c, piece = [c] ∧ isWild c = true
  else piece = [p]

/-- A name fits a pattern when it falls into one piece for each character of the pattern. -/
inductive Fits : List Char → List Char → Prop where
  | done : Fits [] []
  | piece {p : Char} {ps piece rest : List Char} :
    PieceFits p piece → Fits ps rest → Fits (p :: ps) (piece ++ rest)

end Glob

end Conformance
