import Conformance.Token
import Conformance.Definition

/-!
# What can be wrong with a specification

The errors of the three stages: words that are no tokens, tokens in no grammatical order, and
definitions or rules that make no sense. Each carries the place of the culprit.
-/

namespace Conformance

/-- What the grammar would have accepted. -/
inductive Expectation where
  /-- This very keyword or operator. -/
  | word (text : String)
  | endOfLine
  | identifier
  | stringLiteral
  /-- One of the two operators of rules. -/
  | ruleOperator
deriving DecidableEq, Repr

/-- The wording of an expectation. -/
def Expectation.text : Expectation → String
  | word text => s!"`{text}`"
  | endOfLine => "end of line"
  | identifier => "identifier"
  | stringLiteral => "string literal"
  | ruleOperator => "`->` or `-/->`"

/-- The part of the grammar that was being read. -/
inductive Context where
  | startOfSpecification
  | afterModulesKeyword
  | afterModulesHeader
  | moduleDefinition
  | afterModuleName
  | modulePatterns
  | afterModuleDefinition
  | afterModuleDefinitions
  | afterRulesKeyword
  | afterRulesHeader
  | rule
  | afterRuleName
  | afterChainOperator
  | afterNoDependencyOperator
  | afterRule
deriving DecidableEq, Repr

/-- The wording of a context. -/
def Context.text : Context → String
  | startOfSpecification => "at start of specification"
  | afterModulesKeyword => "after `modules`"
  | afterModulesHeader => "after `modules:`"
  | moduleDefinition => "while parsing module definition"
  | afterModuleName => "after module name"
  | modulePatterns => "while parsing module patterns"
  | afterModuleDefinition => "after module definition"
  | afterModuleDefinitions => "after module definitions"
  | afterRulesKeyword => "after `rules`"
  | afterRulesHeader => "after `rules:`"
  | rule => "while parsing rule"
  | afterRuleName => "after module name in rule"
  | afterChainOperator => "after `->`"
  | afterNoDependencyOperator => "after `-/->`"
  | afterRule => "after rule"

/-- What can be wrong with the order of tokens. -/
inductive ParseError where
  | expected (expectation : Expectation) (found : String) (context : Context)
  | unexpectedEof (context : Context)
  | invalidIdentifier (text : String)
  | unexpectedKeyword (text : String)
  /-- A rule goes on behind a no-dependency operator, or has one behind a chain. -/
  | mixedRule
deriving DecidableEq, Repr

/-- The wording of a grammatical error. -/
def ParseError.message : ParseError → String
  | expected expectation found context =>
    s!"expecting {expectation.text} {context.text}, found `{found}`"
  | unexpectedEof context => s!"unexpected end of specification {context.text}"
  | invalidIdentifier text => s!"malformed identifier `{text}`"
  | unexpectedKeyword text => s!"unexpected keyword `{text}`"
  | mixedRule => "`-/->` cannot be chained with other modules"

/-- An error of a specification, by its stage. -/
inductive SpecificationError where
  | lex (e : Spanned LexError)
  | parse (e : Spanned ParseError)
  | compile (e : Spanned DefinitionError)
deriving DecidableEq, Repr

namespace SpecificationError

/-- The place of the culprit. -/
def span : SpecificationError → Option Span
  | lex e => e.span
  | parse e => e.span
  | compile e => e.span

/-- The wording of an error, without its place. -/
def message : SpecificationError → String
  | lex e => e.error.message
  | parse e => e.error.message
  | compile e => e.error.message

/-- An error shown at its place in the specification. -/
def render (src : Source) : SpecificationError → String
  | lex e => e.render src LexError.message
  | parse e => e.render src ParseError.message
  | compile e => e.render src DefinitionError.message

end SpecificationError

end Conformance
