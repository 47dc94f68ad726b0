import Conformance.Text.Extending

/-!
# Escaped texts

How a text is shown inside quotes: a few characters have a short escape, characters that are hidden
are written by their number, and an extending character is so where it would join the quote. Two
styles are in use. Excerpts of a specification escape both kinds of quotes and write an extending
character by number only in front; quoted values escape the double quote alone and write every
extending character by number.
-/

namespace Conformance.Text

/-- Digits of `n` in base 16, in lower case and without leading zeros. -/
def hexDigits (n : Nat) : List Char :=
  Nat.toDigits 16 n

/-- Where an extending character is written by its number. -/
inductive ExtendingRule where
  | everywhere
  | inFront
deriving DecidableEq, Repr

/-- What an escaped text treats in its own way. -/
structure EscapeStyle where
  /-- Is the single quote escaped? -/
  singleQuote : Bool
  extending : ExtendingRule
deriving DecidableEq, Repr

/-- Excerpts of a specification: both quotes are escaped. -/
def EscapeStyle.excerpt : EscapeStyle := ⟨true, .inFront⟩

/-- Quoted values: only the double quote is escaped. -/
def EscapeStyle.value : EscapeStyle := ⟨false, .everywhere⟩

/-- A character written by its number. -/
def numericEscape (c : Char) : List Char :=
  ['\\', 'u', '\x7b'] ++ hexDigits c.toNat ++ ['\x7d']

/-- The written form of one character, `numbered` saying whether extending characters go by number.
-/
def escapeChar (style : EscapeStyle) (numbered : Bool) (c : Char) : List Char :=
  if c = '\x00' then ['\\', '0']
  else if c = '\t' then ['\\', 't']
  else if c = '\r' then ['\\', 'r']
  else if c = '\n' then ['\\', 'n']
  else if c = '\\' then ['\\', '\\']
  else if c = '"' then ['\\', '"']
  else if c = '\'' && style.singleQuote then ['\\', '\'']
  else if numbered && isExtending c then numericEscape c
  else if isPrintable c then [c]
  else numericEscape c

/-- The written form of a text, without quotes around it. -/
def escape (style : EscapeStyle) : List Char → List Char
  | [] => []
  | c :: cs =>
    escapeChar style true c
      ++ cs.flatMap (escapeChar style (style.extending = .everywhere))

/-- A text as a quoted value. -/
def quoted (s : String) : String :=
  "\"" ++ String.ofList (escape .value s.toList) ++ "\""

end Conformance.Text
