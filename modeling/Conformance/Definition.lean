import Conformance.Distinct
import Conformance.Module
import Conformance.RuleKind

/-!
# Definitions

A `Definition` holds the declared modules of an architecture and its rules. Names of modules differ
from one another, both ends of a rule are declared modules, and no rule is listed twice: every
operation keeps this, and one that cannot be done says why.
-/

namespace Conformance

/-- What a definition can refuse. -/
inductive DefinitionError where
  | invalidModulePattern (name pattern : String)
  | duplicateModuleName (name : String)
  /-- A rule names a module that is not declared; `rule` is its text. -/
  | undefinedModuleReference (name rule : String)
deriving DecidableEq, Repr

/-- The wording of a refusal. -/
def DefinitionError.message : DefinitionError → String
  | invalidModulePattern name pattern => s!"module `{name}` has invalid pattern \"{pattern}\""
  | duplicateModuleName name => s!"module `{name}` is already defined"
  | undefinedModuleReference name rule =>
    s!"undefined module `{name}` referenced in rule `{rule}`"

/-- A module from its name and the texts of its patterns; the first text that is no pattern is
refused. -/
def Module.ofPatterns (name : String) : List String → Except DefinitionError Module
  | [] => .ok ⟨name, []⟩
  | p :: ps =>
    match Glob.ofString? p with
    | none => .error (.invalidModulePattern name p)
    | some g => (ofPatterns name ps).map fun m => ⟨name, g :: m.patterns⟩

/-- An ordered pair of modules that a rule speaks of. -/
structure ModulePair where
  source : Module
  dest : Module
deriving DecidableEq

/-- A pair of modules as the text of a rule. -/
def ModulePair.ruleText (kind : RuleKind) (p : ModulePair) : String :=
  kind.ruleText p.source.name p.dest.name

/-- Declared modules and the rules on them. -/
structure Definition where
  modules : List Module
  dependencies : List ModulePair
  noDependencies : List ModulePair
  names_nodup : (modules.map Module.name).Nodup
  dependencies_declared : ∀ p ∈ dependencies, p.source ∈ modules ∧ p.dest ∈ modules
  noDependencies_declared : ∀ p ∈ noDependencies, p.source ∈ modules ∧ p.dest ∈ modules
  dependencies_nodup : dependencies.Nodup
  noDependencies_nodup : noDependencies.Nodup
deriving DecidableEq

namespace Definition

/-- The definition of no modules. -/
def empty : Definition where
  modules := []
  dependencies := []
  noDependencies := []
  names_nodup := .nil
  dependencies_declared := fun _ h => nomatch h
  noDependencies_declared := fun _ h => nomatch h
  dependencies_nodup := .nil
  noDependencies_nodup := .nil

/-- The declared module of a name. -/
def module? (d : Definition) (name : String) : Option Module :=
  d.modules.find? (·.name = name)

/-- The module of a name is declared. -/
theorem mem_modules_of_module? {d : Definition} {name : String} {m : Module}
    (h : d.module? name = some m) : m ∈ d.modules :=
  List.mem_of_find?_eq_some h

/-- A name is free if no declared module has it. -/
theorem module?_eq_none_iff {d : Definition} {name : String} :
    d.module? name = none ↔ name ∉ d.modules.map Module.name := by
  simp [module?]

/-- Declares a module of a free name behind the others. -/
def declareNew (d : Definition) (m : Module) (h : d.module? m.name = none) : Definition where
  modules := d.modules ++ [m]
  dependencies := d.dependencies
  noDependencies := d.noDependencies
  names_nodup := by
    rw [List.map_append, List.nodup_append]
    refine ⟨d.names_nodup, by simp, fun a ha b hb hab => module?_eq_none_iff.1 h ?_⟩
    obtain rfl : b = m.name := by simpa using hb
    exact hab ▸ ha
  dependencies_declared := fun p hp =>
    (d.dependencies_declared p hp).imp (List.mem_append_left _) (List.mem_append_left _)
  noDependencies_declared := fun p hp =>
    (d.noDependencies_declared p hp).imp (List.mem_append_left _) (List.mem_append_left _)
  dependencies_nodup := d.dependencies_nodup
  noDependencies_nodup := d.noDependencies_nodup

/-- Declares a module behind the others. -/
def addModule (d : Definition) (m : Module) : Except DefinitionError Definition :=
  match h : d.module? m.name with
  | some _ => .error (.duplicateModuleName m.name)
  | none => .ok (d.declareNew m h)

/-- The declared module of a name, which stands in a rule. -/
def resolve (d : Definition) (rule name : String) :
    Except DefinitionError { m : Module // m ∈ d.modules } :=
  match h : d.module? name with
  | some m => .ok ⟨m, mem_modules_of_module? h⟩
  | none => .error (.undefinedModuleReference name rule)

/-- The rules of a kind. -/
def rules (d : Definition) : RuleKind → List ModulePair
  | .dependency => d.dependencies
  | .noDependency => d.noDependencies

private theorem declared_insertNew {ms : List Module} {pairs : List ModulePair} {p : ModulePair}
    (h : ∀ q ∈ pairs, q.source ∈ ms ∧ q.dest ∈ ms) (hp : p.source ∈ ms ∧ p.dest ∈ ms) :
    ∀ q ∈ insertNew pairs p, q.source ∈ ms ∧ q.dest ∈ ms := fun q hq =>
  (mem_insertNew.1 hq).elim (h q) (fun e => e ▸ hp)

/-- Adds a rule on declared modules, unless it is there. -/
def insertRule (d : Definition) (kind : RuleKind) (p : ModulePair)
    (h : p.source ∈ d.modules ∧ p.dest ∈ d.modules) : Definition :=
  match kind with
  | .dependency =>
    { d with
      dependencies := insertNew d.dependencies p
      dependencies_declared := declared_insertNew d.dependencies_declared h
      dependencies_nodup := nodup_insertNew d.dependencies_nodup }
  | .noDependency =>
    { d with
      noDependencies := insertNew d.noDependencies p
      noDependencies_declared := declared_insertNew d.noDependencies_declared h
      noDependencies_nodup := nodup_insertNew d.noDependencies_nodup }

/-- Adds a rule on two names, unless it is there; `rule` is the text that it comes from. -/
def addRule (d : Definition) (kind : RuleKind) (rule source dest : String) :
    Except DefinitionError Definition := do
  let s ← d.resolve rule source
  let t ← d.resolve rule dest
  return d.insertRule kind ⟨s, t⟩ ⟨s.property, t.property⟩

/-- Lets `source` depend on `dest`. -/
def allow (d : Definition) (source dest : String) : Except DefinitionError Definition :=
  d.addRule .dependency (RuleKind.dependency.ruleText source dest) source dest

/-- Forbids `source` to depend on `dest`. -/
def forbid (d : Definition) (source dest : String) : Except DefinitionError Definition :=
  d.addRule .noDependency (RuleKind.noDependency.ruleText source dest) source dest

end Definition

end Conformance
