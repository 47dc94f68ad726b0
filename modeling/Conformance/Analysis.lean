import Conformance.Analysis.Result
import Conformance.Graph.Closure

/-!
# Comparing code with a definition

The strict analysis asks that declared modules reach each other in the code just as the rules of the
definition say, and that no no-dependency rule is broken by an edge. The loose analysis asks that
every dependency exists on some way and that no no-dependency rule is broken on any way.
-/

namespace Conformance

/-- A definition, the graph of the code, and the catch-all module. -/
structure Analysis where
  definition : Definition
  actual : ModuleGraph
  other : Module
deriving DecidableEq

namespace Analysis

/-- The modules that walks may visit. -/
def vertices (a : Analysis) : List Module :=
  a.definition.modules ++ [a.other]

/-- The graph of the dependencies that the definition allows. -/
def specifiedGraph (a : Analysis) : ModuleGraph :=
  a.definition.dependencies.foldl (fun g p => g.addDependency p.source p.dest)
    (ModuleGraph.empty.addModules a.vertices)

/-- The closure of what is allowed. -/
def specifiedClosure (a : Analysis) : Closure :=
  .ofGraph a.specifiedGraph a.vertices

/-- The closure of what is there. -/
def actualClosure (a : Analysis) : Closure :=
  .ofGraph a.actual a.vertices

/-- Do the ways between two modules differ: is there one on one side only, are the shortest lengths
different, or can the specified way not be walked in the code? -/
def routesDiffer (actual : Closure) (path : List Module) : Distance → Distance → Bool
  | .finite s, .finite t => s ≠ t || !actual.isWalk path
  | .infinite, .infinite => false
  | _, _ => true

/-- The difference in ways from `source` to `dest`, if there is one. -/
def compareRoute (specified actual : Closure) (source dest : Module) : Option RouteViolation := do
  let expected ← specified.distance? source dest
  let found ← actual.distance? source dest
  let path ← specified.path? source dest
  if routesDiffer actual path expected found then
    return ⟨source, dest, path, ← actual.path? source dest⟩
  else none

/-- Fan-in and fan-out of the declared modules, in their order, edges from and to the catch-all
module left out. -/
def metrics (a : Analysis) : List ModuleMetrics :=
  (a.definition.modules.filter (· ≠ a.other)).map fun m =>
    { module := m
      fanIn := (a.actual.fanIn? m).getD 0 - (a.actual.hasEdge a.other m).toNat
      fanOut := (a.actual.fanOut? m).getD 0 - (a.actual.hasEdge m a.other).toNat }

/-- Does the rule speak of the catch-all module? -/
def touchesOther (a : Analysis) (p : ModulePair) : Bool :=
  p.source = a.other || p.dest = a.other

/-- The strict analysis. -/
def strict (a : Analysis) : Except AnalysisError StrictResult :=
  let modules := a.definition.modules
  if modules.isEmpty then .error .noModulesProvided
  else
    let specified := a.specifiedClosure
    let actual := a.actualClosure
    .ok
      { routes := modules.flatMap fun s =>
          modules.filterMap fun d => compareRoute specified actual s d
        direct := a.definition.noDependencies.filter fun p =>
          !a.touchesOther p && actual.distance? p.source p.dest = some (.finite 1)
        metrics := a.metrics }

/-- The loose analysis. -/
def loose (a : Analysis) : Except AnalysisError LooseResult :=
  if a.definition.modules.isEmpty then .error .noModulesProvided
  else
    let actual := a.actualClosure
    .ok
      { absent := a.definition.dependencies.filter fun p => !actual.isReachable p.source p.dest
        undesired := (a.definition.noDependencies.filter fun p =>
            actual.isReachable p.source p.dest).map fun p =>
          ⟨p.source, p.dest, (actual.path? p.source p.dest).getD []⟩
        metrics := a.metrics }

/-- The analysis in a mode. -/
def run (a : Analysis) : AnalysisMode → Except AnalysisError AnalysisResult
  | .strict => a.strict.map .strict
  | .loose => a.loose.map .loose

end Analysis

end Conformance
