import Conformance.RuleKind
import Conformance.Span

/-!
# Specifications as written

What a specification text says, piece by piece: definitions of modules, each a name and the patterns
of its elements, and rules on the modules named. Every piece is kept with its place in the text.
-/

namespace Conformance

/-- The line `Name = "pattern", "pattern", ...` that defines a module. -/
structure ModuleDef where
  /-- From the name up to the closing quote of the last pattern. -/
  span : Span
  name : Span
  /-- The patterns without their quotes. -/
  patterns : List Span
deriving DecidableEq, Repr

/-- A rule on modules, its `span` running from its first name to its last. -/
inductive Rule where
  /-- In `A -> B -> C` each module may depend on the next one. -/
  | chain (span : Span) (modules : List Span)
  /-- The no-dependency rule: `source` must not depend on `dest`. -/
  | noDependency (span source dest : Span)
deriving DecidableEq, Repr

namespace Rule

/-- The text of a rule and its place. -/
def span : Rule → Span
  | chain span _ => span
  | noDependency span _ _ => span

/-- A chain says what may depend on what. -/
def kind : Rule → RuleKind
  | chain _ _ => .dependency
  | noDependency _ _ _ => .noDependency

/-- The ordered pairs of modules that a rule speaks of: the neighbours in a chain, or both ends. -/
def pairs : Rule → List (Span × Span)
  | chain _ modules => modules.zip modules.tail
  | noDependency _ source dest => [(source, dest)]

/-- The names in a rule, in the order of the text. -/
def names : Rule → List Span
  | chain _ modules => modules
  | noDependency _ source dest => [source, dest]

end Rule

/-- The contents of a specification text, in its order. -/
structure Specification where
  modules : List ModuleDef
  rules : List Rule
deriving DecidableEq, Repr

end Conformance
