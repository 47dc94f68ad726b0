import Conformance.Specification.Parser

/-!
# From specifications to definitions

The modules of a specification are declared in order and then its rules are added pair by pair. The
first piece that cannot be is the culprit, and the error carries its place.
-/

namespace Conformance

/-- What an error about a module is placed at: the first pattern with the text that was refused, or
else the name. -/
def ModuleDef.culprit (d : ModuleDef) : DefinitionError → Span
  | .invalidModulePattern _ pattern => (d.patterns.find? (·.text = pattern)).getD d.name
  | _ => d.name

/-- The module that a definition in a specification declares. -/
def ModuleDef.toModule (d : ModuleDef) : Except (Spanned DefinitionError) Module :=
  (Module.ofPatterns d.name.text (d.patterns.map Span.text)).mapError fun e =>
    .placed e (d.culprit e)

namespace Definition

/-- Declares the module of a definition in a specification. -/
def declare (d : Definition) (m : ModuleDef) : Except (Spanned DefinitionError) Definition := do
  let module ← m.toModule
  (d.addModule module).mapError (.placed · m.name)

/-- What an error about a pair of a rule is placed at: the destination, if only its name is
undefined. -/
def pairCulprit (source dest : Span) : DefinitionError → Span
  | .undefinedModuleReference name _ =>
    -- the source is looked up first
    if name = dest.text && name ≠ source.text then dest else source
  | _ => source

/-- Adds one pair of a rule. -/
def addPair (rule : Rule) (d : Definition) (pair : Span × Span) :
    Except (Spanned DefinitionError) Definition :=
  (d.addRule rule.kind rule.span.text pair.1.text pair.2.text).mapError fun e =>
    .placed e (pairCulprit pair.1 pair.2 e)

/-- The definition that a specification gives. -/
def ofSpecification (s : Specification) : Except (Spanned DefinitionError) Definition := do
  let declared ← s.modules.foldlM declare empty
  s.rules.foldlM (fun d r => r.pairs.foldlM (addPair r) d) declared

/-- The definition that a specification text gives. -/
def ofSource (src : Source) : Except SpecificationError Definition := do
  let s ← Specification.ofSource src
  (ofSpecification s).mapError .compile

end Definition

end Conformance
