import Conformance.Specification
import Conformance.Token

/-!
# The grammar of specifications

Which lists of tokens make a specification, blanks and comments left out, and which module
definitions and rules they say. A specification has its modules under one heading and its rules
under another, one a line, with any number of line ends after each line.
-/

namespace Conformance.Grammar

/-- Is the token this operator? -/
def IsSymbol (text : String) (t : Token) : Prop :=
  t.kind = .symbol ∧ t.text = text

/-- Is the token this keyword? -/
def IsKeyword (text : String) (t : Token) : Prop :=
  t.kind = .glob ∧ t.text = text

/-- Is the character a letter of ASCII? -/
def IsLetter (c : Char) : Prop :=
  'a' ≤ c ∧ c ≤ 'z' ∨ 'A' ≤ c ∧ c ≤ 'Z'

/-- Is the character a digit of ASCII? -/
def IsDigit (c : Char) : Prop :=
  '0' ≤ c ∧ c ≤ '9'

/-- Is the text an identifier? Its first character is a letter or an underscore, and behind it there
may be digits, too. -/
def IsIdentifier (text : String) : Prop :=
  ∃ c cs, text.toList = c :: cs ∧ (IsLetter c ∨ c = '_')
    ∧ ∀ d ∈ cs, IsLetter d ∨ IsDigit d ∨ d = '_'

/-- Is the token the name of a module? -/
def IsName (t : Token) : Prop :=
  t.kind = .glob ∧ IsIdentifier t.text ∧ t.text ≠ "modules" ∧ t.text ≠ "rules"

/-- Is the token a line end? -/
def IsNewline (t : Token) : Prop :=
  t.kind = .newline

/-- One or more line ends. -/
def LineEnds (ts : List Token) : Prop :=
  ts ≠ [] ∧ ∀ t ∈ ts, IsNewline t

/-- Strings with commas between them. -/
inductive Patterns : List Token → List Span → Prop where
  | one {p : Token} : p.kind = .string → Patterns [p] [p.span]
  | more {p comma : Token} {ts : List Token} {ps : List Span} :
    p.kind = .string → IsSymbol "," comma → Patterns ts ps →
      Patterns (p :: comma :: ts) (p.span :: ps)

/-- Names with chain operators between them. -/
inductive Names : List Token → List Span → Prop where
  | one {n : Token} : IsName n → Names [n] [n.span]
  | more {n arrow : Token} {ts : List Token} {ns : List Span} :
    IsName n → IsSymbol "->" arrow → Names ts ns → Names (n :: arrow :: ts) (n.span :: ns)

/-- A line that defines a module: its name and patterns. -/
inductive ModuleLine : List Token → Span × List Span → Prop where
  | intro {n equals : Token} {ts ends : List Token} {ps : List Span} :
    IsName n → IsSymbol "=" equals → Patterns ts ps → LineEnds ends →
      ModuleLine (n :: equals :: ts ++ ends) (n.span, ps)

/-- A line with a rule: its kind and names. -/
inductive RuleLine : List Token → RuleKind × List Span → Prop where
  | chain {n arrow : Token} {ts ends : List Token} {ns : List Span} :
    IsName n → IsSymbol "->" arrow → Names ts ns → LineEnds ends →
      RuleLine (n :: arrow :: ts ++ ends) (.dependency, n.span :: ns)
  | noDependency {a arrow b : Token} {ends : List Token} :
    IsName a → IsSymbol "-/->" arrow → IsName b → LineEnds ends →
      RuleLine (a :: arrow :: b :: ends) (.noDependency, [a.span, b.span])

/-- Any number of lines of one sort. -/
inductive Lines {α : Type} (line : List Token → α → Prop) : List Token → List α → Prop where
  | none : Lines line [] []
  | more {ts us : List Token} {a : α} {as : List α} :
    line ts a → Lines line us as → Lines line (ts ++ us) (a :: as)

/-- A keyword with a colon and line ends behind it. -/
inductive Heading (text : String) : List Token → Prop where
  | intro {keyword colon : Token} {ends : List Token} :
    IsKeyword text keyword → IsSymbol ":" colon → LineEnds ends →
      Heading text (keyword :: colon :: ends)

/-- A whole specification up to the end of the text: what its modules and rules say. -/
inductive Sentence :
    List Token → List (Span × List Span) → List (RuleKind × List Span) → Prop where
  | intro {lead head₁ body₁ head₂ body₂ : List Token} {eof : Token}
    {modules : List (Span × List Span)} {rules : List (RuleKind × List Span)} :
    (∀ t ∈ lead, IsNewline t) → Heading "modules" head₁ → Lines ModuleLine body₁ modules →
      Heading "rules" head₂ → Lines RuleLine body₂ rules → eof.kind = .eof →
      Sentence (lead ++ head₁ ++ body₁ ++ head₂ ++ body₂ ++ [eof]) modules rules

/-- Can the tokens be the beginning of a specification? -/
def CanBegin (ts : List Token) : Prop :=
  ∃ rest modules rules, Sentence (ts ++ rest) modules rules

/-- The tokens that are neither blanks nor comments. -/
def significant (ts : List Token) : List Token :=
  ts.filter (·.kind ≠ .spacing)

/-- What a specification says, place and text of whole definitions and rules left out. -/
def saying (s : Specification) : List (Span × List Span) × List (RuleKind × List Span) :=
  (s.modules.map fun d => (d.name, d.patterns), s.rules.map fun r => (r.kind, r.names))

end Conformance.Grammar
