import Conformance.Source
import Conformance.Text.Quoted

/-!
# Spans

A `Span` is a piece of a specification text together with its place: line and column of its first
character, counted from 1, and its bytes. An error that may know its place is a `Spanned` one.
-/

namespace Conformance

open Text

/-- A piece of a specification text and its place. -/
structure Span where
  line : Nat
  /-- As a lexer counts, which has 32 bits for it. -/
  col : Nat
  /-- Offset of the first byte. -/
  start : Nat
  /-- Offset behind the last byte. -/
  stop : Nat
  text : String
deriving DecidableEq, Repr

/-- The span of the bytes from `start` to `stop`, said to begin at `line` and `col`. -/
def Source.span (src : Source) (line col start stop : Nat) : Span :=
  ⟨line, col, start, stop, src.textBetween start stop⟩

namespace Span

/-- The most characters of an excerpt that are shown. -/
def excerptLimit : Nat := 32

/-- The escaped text of a span, cut after `excerptLimit` characters. -/
def excerpt (s : Span) : String :=
  let escaped := escape .excerpt s.text.toList
  if excerptLimit < escaped.length then
    String.ofList (escaped.take excerptLimit) ++ "..."
  else
    String.ofList escaped

/-- Place and excerpt of a span on one line. -/
def describe (s : Span) : String :=
  s!"{s.line}:{s.col}:{s.start}:{s.stop}, \"{s.excerpt}\""

/-- Shows the place of a span in the text that it comes from. -/
def message (src : Source) (s : Span) (kind msg : String) : String :=
  src.message s.line s.col kind msg

end Span

/-- An error, with its place in the specification where that is known. -/
structure Spanned (ε : Type) where
  error : ε
  span : Option Span
deriving DecidableEq, Repr

namespace Spanned

variable {ε : Type}

/-- An error without a place. -/
def unplaced (e : ε) : Spanned ε := ⟨e, none⟩

/-- An error at a place. -/
def placed (e : ε) (s : Span) : Spanned ε := ⟨e, some s⟩

/-- Gives an error a place, unless it has one. -/
def withSpan (e : Spanned ε) (s : Span) : Spanned ε :=
  ⟨e.error, e.span.or (some s)⟩

/-- The text of an error: shown at its place if it has one. -/
def render (src : Source) (message : ε → String) (e : Spanned ε) : String :=
  match e.span with
  | some s => s.message src "error" (message e.error)
  | none => message e.error

end Spanned

end Conformance
