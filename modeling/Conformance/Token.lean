import Conformance.Span

/-!
# Tokens

The words of a specification text: names and patterns, operators, quoted strings, line ends, and the
blanks and comments between them.
-/

namespace Conformance

/-- The kinds of tokens. -/
inductive TokenKind where
  /-- Letters, digits and `.`, `?`, `*`, `_` of ASCII. -/
  | glob
  /-- A run of operator characters, such as `=`, `,` or an arrow. -/
  | symbol
  /-- A text in double quotes. Its span is what stands between them. -/
  | string
  /-- A run of line feeds and carriage returns. -/
  | newline
  /-- Blanks, and a comment if one follows them. -/
  | spacing
  /-- The end of the text. -/
  | eof
deriving DecidableEq, Repr

namespace TokenKind

/-- The name of a kind. -/
def name : TokenKind → String
  | glob => "Glob"
  | symbol => "Symbol"
  | string => "String"
  | newline => "Newline"
  | spacing => "Spacing"
  | eof => "Eof"

end TokenKind

/-- A token and where it stands. -/
structure Token where
  kind : TokenKind
  span : Span
deriving DecidableEq, Repr

namespace Token

/-- The characters of a token, quotes excluded. -/
def text (t : Token) : String := t.span.text

/-- Offset of the first byte of a token, an opening quote included. -/
def start (t : Token) : Nat :=
  if t.kind = .string then t.span.start - 1 else t.span.start

/-- Offset behind the last byte of a token, a closing quote included. -/
def stop (t : Token) : Nat :=
  if t.kind = .string then t.span.stop + 1 else t.span.stop

/-- Kind, place and excerpt of a token on one line. -/
def describe (t : Token) : String :=
  s!"Token({t.kind.name}, {t.span.describe})"

/-- May the character stand in a name or pattern outside quotes? -/
def isGlobChar (c : Char) : Bool :=
  c.isAlphanum || c = '.' || c = '?' || c = '*' || c = '_'

/-- Is the character one that operators are made of? -/
def isSymbolChar (c : Char) : Bool :=
  c = '=' || c = '-' || c = '>' || c = '<' || c = '/' || c = ':' || c = ',' || c = '!'

/-- Does the character end a line? -/
def isNewlineChar (c : Char) : Bool :=
  c = '\n' || c = '\r'

/-- Is the character a blank between tokens? -/
def isSpaceChar (c : Char) : Bool :=
  c = ' ' || c = '\t'

/-- Does the character end a comment? It belongs to the comment no longer. -/
def endsComment (c : Char) : Bool :=
  c = '\n' || c = '\r' || c = '\x00'

/-- Does the character end the search for a closing quote? -/
def endsString (c : Char) : Bool :=
  c = '"' || c = '\n' || c = '\r' || c = '\x00'

end Token

/-- What can be wrong with the words of a specification. -/
inductive LexError where
  | unrecognisedCharacter (ch : Char)
  | unterminatedString
deriving DecidableEq, Repr

/-- The wording of a lexical error. -/
def LexError.message : LexError → String
  | unrecognisedCharacter ch => "unrecognised character `" ++ String.singleton ch ++ "`"
  | unterminatedString => "unmatched `\"`"

end Conformance
