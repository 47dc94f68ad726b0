/-!
# Kinds of rules

A rule speaks of an ordered pair of modules and is of one of two kinds, each with an operator of its
own in specification texts and in messages.
-/

namespace Conformance

/-- The two kinds of rules. -/
inductive RuleKind where
  /-- The source may depend on the destination. -/
  | dependency
  /-- The source must not depend on the destination. -/
  | noDependency
deriving DecidableEq, Repr

/-- The operator between the two names of a rule. -/
def RuleKind.operator : RuleKind → String
  | dependency => "->"
  | noDependency => "-/->"

/-- The text of a rule on two names. -/
def RuleKind.ruleText (kind : RuleKind) (source dest : String) : String :=
  s!"{source} {kind.operator} {dest}"

end Conformance
