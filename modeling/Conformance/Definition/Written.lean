import Conformance.Definition

/-!
# Definitions as specification texts

Every definition whose names and patterns can be written down has a specification text of its own:
one line for each module and one for each rule, in their order.
-/

namespace Conformance

/-- The line that defines a module. -/
def Module.line (m : Module) : String :=
  m.name ++ " = " ++ ", ".intercalate (m.patternTexts.map fun p => "\"" ++ p ++ "\"") ++ "\n"

/-- The line of a rule. -/
def ModulePair.line (kind : RuleKind) (p : ModulePair) : String :=
  p.ruleText kind ++ "\n"

namespace Definition

/-- The text of a definition: modules, then dependencies, then no-dependency rules. -/
def toText (d : Definition) : String :=
  "modules:\n" ++ String.join (d.modules.map Module.line)
    ++ "rules:\n" ++ String.join (d.dependencies.map (ModulePair.line .dependency))
    ++ String.join (d.noDependencies.map (ModulePair.line .noDependency))

end Definition

end Conformance
