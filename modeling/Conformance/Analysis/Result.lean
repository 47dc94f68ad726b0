import Conformance.Definition

/-!
# Results of analyses

The violations that an analysis finds, the coupling of modules, and how a violation is worded.
-/

namespace Conformance

/-- The one reason why code cannot be analysed. -/
inductive AnalysisError where
  | noModulesProvided
deriving DecidableEq, Repr

/-- The wording of the reason. -/
def AnalysisError.message : AnalysisError → String
  | noModulesProvided => "no modules provided for analysis"

/-- The names of the modules on a path. -/
def pathText (path : List Module) : String :=
  if path.isEmpty then "(none)" else " -> ".intercalate (path.map Module.name)

/-- Specification and code lead from one module to another in different ways. A path is empty where
there is no way. -/
structure RouteViolation where
  source : Module
  dest : Module
  specifiedPath : List Module
  actualPath : List Module
deriving DecidableEq

/-- The wording of a difference in ways. -/
def RouteViolation.text (v : RouteViolation) : String :=
  s!"{v.source.name} to {v.dest.name}: specified {pathText v.specifiedPath}, "
    ++ s!"actual {pathText v.actualPath}"

/-- A module reaches another one that it must not reach, on `path`. -/
structure ReachViolation where
  source : Module
  dest : Module
  path : List Module
deriving DecidableEq

/-- The wording of an undesired way. -/
def ReachViolation.text (v : ReachViolation) : String :=
  s!"{v.source.name} depends on {v.dest.name} via {pathText v.path}"

/-- How many other declared modules depend on a module, and on how many it depends. -/
structure ModuleMetrics where
  module : Module
  fanIn : Nat
  fanOut : Nat
deriving DecidableEq

/-- What the strict analysis finds. -/
structure StrictResult where
  routes : List RouteViolation
  /-- No-dependency rules whose modules are joined by an edge. -/
  direct : List ModulePair
  metrics : List ModuleMetrics
deriving DecidableEq

/-- What the loose analysis finds. -/
structure LooseResult where
  /-- Dependencies that the code does not have, on any way. -/
  absent : List ModulePair
  undesired : List ReachViolation
  metrics : List ModuleMetrics
deriving DecidableEq

namespace StrictResult

/-- Is there no violation? -/
def isConformant (r : StrictResult) : Bool :=
  r.routes.isEmpty && r.direct.isEmpty

/-- One line for each violation. -/
def violations (r : StrictResult) : List String :=
  r.routes.map RouteViolation.text
    ++ r.direct.map fun p => s!"{p.source.name} depends directly on {p.dest.name}"

end StrictResult

namespace LooseResult

/-- Is there no violation? -/
def isConformant (r : LooseResult) : Bool :=
  r.absent.isEmpty && r.undesired.isEmpty

/-- One line for each violation. -/
def violations (r : LooseResult) : List String :=
  r.absent.map (fun p => s!"{p.source.name} does not depend on {p.dest.name}")
    ++ r.undesired.map ReachViolation.text

end LooseResult

/-- Which of the two analyses is made. -/
inductive AnalysisMode where
  | strict
  | loose
deriving DecidableEq, Repr

/-- The result of either analysis. -/
inductive AnalysisResult where
  | strict (r : StrictResult)
  | loose (r : LooseResult)
deriving DecidableEq

namespace AnalysisResult

/-- Is there no violation? -/
def isConformant : AnalysisResult → Bool
  | strict r => r.isConformant
  | loose r => r.isConformant

/-- One line for each violation. -/
def violations : AnalysisResult → List String
  | strict r => r.violations
  | loose r => r.violations

end AnalysisResult

end Conformance
