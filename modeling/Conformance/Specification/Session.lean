import Conformance.Specification.Parser

/-!
# Sessions of a parser

A parser need not read a whole specification. Its calls can be made in any order, also behind one
that failed, and a parser can be saved and gone back to. `Parser.sessionSpans` lists all places that
the calls of a session return, in the pieces that they read and in their errors.
-/

namespace Conformance

/-- All places in the definition of a module. -/
def ModuleDef.spans (d : ModuleDef) : List Span :=
  d.span :: d.name :: d.patterns

/-- All places in a rule. -/
def Rule.spans (r : Rule) : List Span :=
  r.span :: r.names

/-- All places in a specification. -/
def Specification.spans (s : Specification) : List Span :=
  s.modules.flatMap ModuleDef.spans ++ s.rules.flatMap Rule.spans

namespace Parser

/-- A call in a session. -/
inductive Call where
  | nextToken
  | moduleDef
  | rule
  | specification
  | save
  /-- Goes back to the parser saved at an index. -/
  | restore (i : Nat)
deriving DecidableEq, Repr

/-- A parser at work, and those saved. -/
structure Session where
  parser : Parser
  saved : List Parser

namespace Session

/-- The places that a step of reading returns, those of a result being `spans`, and the session
behind the step. -/
def read {α : Type} (s : Session) (step : Parse α) (spans : α → List Span) :
    List Span × Session :=
  match s.parser.run step with
  | (.ok a, p) => (spans a, { s with parser := p })
  | (.error e, p) => (e.span.toList, { s with parser := p })

/-- The places that a call returns, and the session behind it. -/
def call (s : Session) : Call → List Span × Session
  | .nextToken => s.read advance fun _ => []
  | .moduleDef => s.read Parser.moduleDef ModuleDef.spans
  | .rule => s.read Parser.rule Rule.spans
  | .specification => s.read Parser.specification Specification.spans
  | .save => ([], { s with saved := s.saved ++ [s.parser] })
  | .restore i => ([], { s with parser := s.saved[i]?.getD s.parser })

/-- The places that several calls return, one behind the other. -/
def spans (s : Session) : List Call → List Span
  | [] => []
  | c :: cs => (s.call c).1 ++ (s.call c).2.spans cs

end Session

/-- The places that a session on a text returns. Where there is no first token, it is the place of
that error. -/
def sessionSpans (src : Source) (calls : List Call) : List Span :=
  match ofSource src with
  | .ok p => Session.spans ⟨p, []⟩ calls
  | .error e => e.span.toList

end Parser

end Conformance
