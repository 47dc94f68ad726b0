import Conformance.Specification.Error
import Conformance.Specification
import Conformance.Token.Lexer

/-!
# Reading specifications

A parser looks at one token at a time, blanks and comments left out, and reads the next one only
when it has accepted that token. Its operations can fail, and the parser goes on from where the
failure left it. `Specification.ofSource` reads a whole text.
-/

namespace Conformance

/-- The next token that is neither blank nor comment. -/
def Lexer.nextSignificant (l : Lexer) : Lexed × Lexer :=
  match _h : l.next with
  | (.ok t, l') => if _ht : t.kind = .spacing then nextSignificant l' else (.ok t, l')
  | (.error e, l') => (.error e, l')
termination_by l.rest.length
decreasing_by exact length_rest_of_next _h (by simp [_ht])

/-- Reading a token shortens the text, or leaves it as it is at the end of the text. -/
theorem Lexer.length_rest_of_nextSignificant {l l' : Lexer} {t : Token}
    (h : l.nextSignificant = (.ok t, l')) :
    l'.rest.length ≤ l.rest.length ∧ (t.kind ≠ .eof → l'.rest.length < l.rest.length) := by
  fun_induction nextSignificant l with
  | case1 l u m hu hs ih =>
    have hlt := length_rest_of_next hu (by simp [hs])
    have := ih h
    omega
  | case2 l u m hu _ =>
    obtain ⟨⟨rfl⟩, rfl⟩ := Prod.mk.inj h
    refine ⟨?_, length_rest_of_next hu⟩
    rcases next_stays_or_shortens l with ⟨hstay, _⟩ | hlt
    · rw [hu] at hstay
      exact hstay ▸ Nat.le_refl _
    · rw [hu] at hlt
      exact Nat.le_of_lt hlt
  | case3 l e m _ => exact nomatch (Prod.mk.inj h).1

/-- A specification being read. -/
structure Parser where
  source : Source
  lexer : Lexer
  /-- The token under view. -/
  token : Token
  /-- Offset behind the token read before it, a closing quote included. -/
  consumed : Nat
deriving DecidableEq, Repr

/-- A step of reading: it may fail, and moves the parser on in either case. -/
abbrev Parse := ExceptT SpecificationError (StateM Parser)

namespace Parser

/-- The parser at the first token of a text. -/
def ofSource (src : Source) : Except SpecificationError Parser :=
  match (Lexer.ofSource src).nextSignificant with
  | (.ok t, l) => .ok ⟨src, l, t, 0⟩
  | (.error e, _) => .error (.lex e)

/-- Runs a step of reading. -/
def run {α : Type} (p : Parser) (step : Parse α) : Except SpecificationError α × Parser :=
  step p

theorem run_pure {α : Type} (p : Parser) (a : α) : p.run (pure a) = (.ok a, p) := rfl

theorem run_get (p : Parser) : p.run get = (.ok p, p) := rfl

theorem run_throw {α : Type} (p : Parser) (e : SpecificationError) :
    p.run (throw e : Parse α) = (.error e, p) := rfl

/-- A step that follows another starts where that one left the parser. -/
theorem run_bind {α β : Type} (p : Parser) (x : Parse α) (f : α → Parse β) :
    p.run (x >>= f) = match p.run x with
      | (.ok a, q) => q.run (f a)
      | (.error e, q) => (.error e, q) := by
  simp only [run, bind, ExceptT.bind, ExceptT.mk, StateT.bind]
  rcases x p with ⟨_ | _, q⟩ <;> rfl

/-- The token under view as messages name it. -/
def tokenText (p : Parser) : String :=
  match p.token.kind with
  | .glob | .symbol | .string => p.token.text
  | .newline => "end of line"
  | .spacing | .eof => ""

/-- A bound on the tokens that are still to be read. -/
def remaining (p : Parser) : Nat :=
  p.lexer.rest.length + if p.token.kind = .eof then 0 else 1

/-- Is the operator `text` under view? -/
def atSymbol (text : String) (p : Parser) : Bool :=
  p.token.kind = .symbol && p.token.text = text

/-- Is the word `text` under view? -/
def atWord (text : String) (p : Parser) : Bool :=
  p.token.kind = .glob && p.token.text = text

/-- Is a line end under view? -/
def atNewline (p : Parser) : Bool :=
  p.token.kind = .newline

/-- Is the end of the text under view? -/
def atEnd (p : Parser) : Bool :=
  p.token.kind = .eof

/-- Reads the next token. -/
def advance : Parse Unit := do
  let p ← get
  match p.lexer.nextSignificant with
  | (.ok t, l) => set { p with lexer := l, token := t, consumed := p.token.stop }
  | (.error e, l) =>
    set { p with lexer := l, consumed := p.token.stop }
    throw (.lex e)

theorem advance_of_ok {p : Parser} {t : Token} {l : Lexer}
    (h : p.lexer.nextSignificant = (.ok t, l)) :
    p.run advance = (.ok (), { p with lexer := l, token := t, consumed := p.token.stop }) := by
  simp only [advance, run_bind, run_get, h]
  rfl

theorem advance_of_error {p : Parser} {e : Spanned LexError} {l : Lexer}
    (h : p.lexer.nextSignificant = (.error e, l)) :
    p.run advance = (.error (.lex e), { p with lexer := l, consumed := p.token.stop }) := by
  simp only [advance, run_bind, run_get, h]
  rfl

/-- Reading on behind a token leaves less to be read. -/
theorem remaining_advance_lt {p q : Parser} (h : p.run advance = (.ok (), q))
    (hp : p.token.kind ≠ .eof) : q.remaining < p.remaining := by
  rcases hn : p.lexer.nextSignificant with ⟨e | t, l⟩
  · exact nomatch (advance_of_error hn).symm.trans h
  · obtain ⟨-, rfl⟩ := Prod.mk.inj ((advance_of_ok hn).symm.trans h)
    obtain ⟨hle, hlt⟩ := Lexer.length_rest_of_nextSignificant hn
    simp only [remaining, if_neg hp]
    split
    · omega
    · rename_i ht
      have := hlt ht
      omega

/-- Fails at the token under view. -/
def fail {α : Type} (e : ParseError) : Parse α := do
  throw (.parse (.placed e (← get).token.span))

/-- Fails because the token under view is not what the grammar has in this place. -/
def unexpected {α : Type} (expectation : Expectation) (context : Context) : Parse α := do
  let p ← get
  if p.atEnd then fail (.unexpectedEof context)
  else fail (.expected expectation p.tokenText context)

/-- Reads the operator `text`. -/
def expectSymbol (text : String) (context : Context) : Parse Unit := do
  if (← get).atSymbol text then advance else unexpected (.word text) context

/-- Reads the keyword `text`. -/
def expectKeyword (text : String) (context : Context) : Parse Unit := do
  if (← get).atWord text then advance else unexpected (.word text) context

/-- Repeats a step as long as the parser is at a place of some kind. Every round has to read a
token; one that does not is the last. -/
def repeatWhile {α : Type} (more : Parser → Bool) (step : Parse α) : Parse (List α) := fun p =>
  if more p then
    match step p with
    | (.error e, q) => (.error e, q)
    | (.ok a, q) =>
      -- always so for the steps below, by `remaining_advance_lt`
      if _h : q.remaining < p.remaining then
        match repeatWhile more step q with
        | (.ok as, r) => (.ok (a :: as), r)
        | (.error e, r) => (.error e, r)
      else (.ok [a], q)
  else (.ok [], p)
termination_by p => p.remaining

/-- Reads line ends, of which there may be none. -/
def skipNewlines : Parse Unit := do
  let _ ← repeatWhile atNewline advance

/-- Reads one or more line ends. -/
def expectNewlines (context : Context) : Parse Unit := do
  if (← get).atNewline then skipNewlines else unexpected .endOfLine context

/-- The keyword in front of the modules. -/
def modulesKeyword : String := "modules"

/-- The keyword in front of the rules. -/
def rulesKeyword : String := "rules"

/-- The operator between the modules of a chain. -/
def chainOperator : String := RuleKind.dependency.operator

/-- The operator of a no-dependency rule. -/
def noDependencyOperator : String := RuleKind.noDependency.operator

/-- Can the character begin an identifier? -/
def beginsIdentifier (c : Char) : Bool :=
  c.isAlpha || c = '_'

/-- Can the character stand in an identifier behind its first? -/
def continuesIdentifier (c : Char) : Bool :=
  c.isAlphanum || c = '_'

/-- Is the text an identifier: letters, digits and underscores of ASCII, no digit in front? -/
def isIdentifier (text : String) : Bool :=
  match text.toList with
  | [] => false
  | c :: cs => beginsIdentifier c && cs.all continuesIdentifier

/-- Is the text a keyword? -/
def isKeyword (text : String) : Bool :=
  text = modulesKeyword || text = rulesKeyword

/-- Reads the name of a module. -/
def identifier (context : Context) : Parse Span := do
  let t := (← get).token
  if t.kind = .glob then
    if isKeyword t.text then fail (.unexpectedKeyword t.text)
    else if isIdentifier t.text then
      advance
      return t.span
    else fail (.invalidIdentifier t.text)
  else unexpected .identifier context

/-- Reads a pattern. -/
def pattern : Parse Span := do
  let t := (← get).token
  if t.kind = .string then
    advance
    return t.span
  else unexpected .stringLiteral .modulePatterns

/-- The span from `first` up to the last token read. -/
def spanFrom (first : Span) : Parse Span := do
  let p ← get
  return p.source.span first.line first.col first.start p.consumed

/-- Reads the definition of a module and the line ends behind it. -/
def moduleDef : Parse ModuleDef := do
  let first := (← get).token.span
  let name ← identifier .moduleDefinition
  expectSymbol "=" .afterModuleName
  let head ← pattern
  let others ← repeatWhile (atSymbol ",") do
    advance
    pattern
  let span ← spanFrom first
  expectNewlines .afterModuleDefinition
  return ⟨span, name, head :: others⟩

/-- Reads the rest of a chain, from its first operator on. -/
def chainRest (first : Span) : Parse Rule := do
  let others ← repeatWhile (atSymbol chainOperator) do
    advance
    identifier .afterChainOperator
  if (← get).atSymbol noDependencyOperator then fail .mixedRule
  return .chain (← spanFrom first) (first :: others)

/-- Reads the rest of a no-dependency rule, from its operator on. -/
def noDependencyRest (first : Span) : Parse Rule := do
  advance
  let dest ← identifier .afterNoDependencyOperator
  let p ← get
  -- reported at the operator and not as a missing line end
  if p.atSymbol chainOperator || p.atSymbol noDependencyOperator then fail .mixedRule
  return .noDependency (← spanFrom first) first dest

/-- Reads a rule and the line ends behind it. -/
def rule : Parse Rule := do
  let first ← identifier .rule
  let p ← get
  let rule ←
    if p.atSymbol chainOperator then chainRest first
    else if p.atSymbol noDependencyOperator then noDependencyRest first
    else unexpected .ruleOperator .afterRuleName
  expectNewlines .afterRule
  return rule

/-- Reads a specification up to the end of the text. -/
def specification : Parse Specification := do
  skipNewlines
  expectKeyword modulesKeyword .startOfSpecification
  expectSymbol ":" .afterModulesKeyword
  expectNewlines .afterModulesHeader
  let modules ← repeatWhile (!atWord rulesKeyword ·) do
    if (← get).atEnd then unexpected (.word rulesKeyword) .afterModuleDefinitions
    moduleDef
  advance
  expectSymbol ":" .afterRulesKeyword
  expectNewlines .afterRulesHeader
  let rules ← repeatWhile (!atEnd ·) rule
  return ⟨modules, rules⟩

end Parser

/-- Reads a specification text. -/
def Specification.ofSource (src : Source) : Except SpecificationError Specification := do
  let p ← Parser.ofSource src
  (p.run Parser.specification).1

end Conformance
