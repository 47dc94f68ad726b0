/-!
# Regular expressions

Names are matched by a library of regular expressions, of which a `Regex.Engine` says no more than
what is asked of it: it compiles the text of an expression unless it refuses it, searches texts for
what a compiled one stands for, and writes a text so that it stands for itself.

The expressions in use are put together of five kinds of `Part`s. What each of them stands for in a
text is `Part.Takes`, and `Found` is the search for a place from which on a text holds all of them.
An engine `IsDocumented` when it does what is written about these parts. The engine that runs here
is `Regex.tables`.
-/

namespace Conformance.Regex

/-- A library of regular expressions. -/
structure Engine where
  /-- Expressions that have been compiled. -/
  Program : Type
  /-- Compiles the text of an expression, if it is not refused. -/
  compile? : String → Option Program
  /-- Is what the expression stands for found anywhere in the text? -/
  isMatch : Program → String → Bool
  /-- The expression that stands for a text itself. -/
  escape : String → String
  /-- Is the program for an expression within the size that may be compiled? -/
  FitsLimit : String → Prop

/-- The pieces that expressions are put together of. -/
inductive Part where
  /-- The beginning of the text. -/
  | start
  /-- The end of the text. -/
  | stop
  /-- One character. -/
  | any
  /-- A run of characters, maybe an empty one. -/
  | anyRun
  /-- The given character. -/
  | literal (c : Char)
deriving DecidableEq, Repr

namespace Engine

/-- A part as it is written. -/
def partText (e : Engine) : Part → String
  | .start => "^"
  | .stop => "$"
  | .any => "."
  | .anyRun => ".*"
  | .literal c => e.escape (String.singleton c)

/-- An expression as it is written. -/
def text (e : Engine) (ps : List Part) : String :=
  String.join (ps.map e.partText)

end Engine

/-- The characters that a dot stands for: without flags, all but the line feed. -/
def isDot (c : Char) : Bool :=
  c ≠ '\n'

/-- Does a part stand for a piece of a text, between what is in front of it and what is behind it?
-/
def Part.Takes (before piece behind : List Char) : Part → Prop
  | .start => piece = [] ∧ before = []
  | .stop => piece = [] ∧ behind = []
  | .any => ∃ c, piece = [c] ∧ isDot c = true
  | .anyRun => ∀ c ∈ piece, isDot c = true
  | .literal c => piece = [c]

/-- Does a text, cut at some place, hold behind the place one piece after the other for which the
parts stand? What comes after them does not matter. -/
inductive MatchesAt : List Part → List Char → List Char → Prop where
  | done {before behind : List Char} : MatchesAt [] before behind
  | part {p : Part} {ps : List Part} {before piece behind : List Char} :
    p.Takes before piece behind → MatchesAt ps (before ++ piece) behind →
      MatchesAt (p :: ps) before (piece ++ behind)

/-- Is there a place in the text where the parts match? -/
def Found (ps : List Part) (text : List Char) : Prop :=
  ∃ before behind, text = before ++ behind ∧ MatchesAt ps before behind

/-- What is written about an engine. -/
structure Engine.IsDocumented (e : Engine) : Prop where
  /-- An expression is compiled, unless its program gets too large. -/
  compiles : ∀ ps, e.FitsLimit (e.text ps) → (e.compile? (e.text ps)).isSome = true
  /-- A compiled expression is found wherever its parts match one after the other. An escaped
  character stands for itself, a dot for all but the line feed, a dot with a star for a run of
  these, and the anchors for the ends of the whole text. -/
  isMatch_iff : ∀ ps program, e.compile? (e.text ps) = some program →
    ∀ text : String, e.isMatch program text = true ↔ Found ps text.toList

end Conformance.Regex
