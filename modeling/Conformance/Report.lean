import Conformance.Analysis.Result
import Conformance.Json.Value
import Conformance.Survey

/-!
# Reports

The outcome of a check: the result of the analysis and the findings of the survey, with the setting
whether findings make the check fail. A report is also written as JSON.
-/

namespace Conformance

/-- The outcome of a check. -/
structure Report where
  result : AnalysisResult
  diagnostics : List Diagnostic
  failOnDiagnostics : Bool
deriving DecidableEq

/-- What a report can be refused for. -/
inductive ReportError where
  /-- The code does not conform; one line for each reason. -/
  | notConformant (lines : List String)
  | fromLooseCheck
  | fromStrictCheck
deriving DecidableEq, Repr

/-- The wording of a refusal. -/
def ReportError.message : ReportError → String
  | notConformant lines =>
    "architecture does not conform to specification:\n  " ++ "\n  ".intercalate lines
  | fromLooseCheck => "report is from a loose check"
  | fromStrictCheck => "report is from a strict check"

namespace Report

/-- Are there no violations, and no findings that count? -/
def isConformant (r : Report) : Bool :=
  r.result.isConformant && !(r.failOnDiagnostics && !r.diagnostics.isEmpty)

/-- The reasons why a report is not conformant: the violations, then the findings that count. -/
def reasons (r : Report) : List String :=
  r.result.violations ++ if r.failOnDiagnostics then r.diagnostics.map Diagnostic.text else []

/-- Accepts a conformant report only. -/
def ensureConformant (r : Report) : Except ReportError Unit :=
  if r.isConformant then .ok () else .error (.notConformant r.reasons)

/-- The result of a strict check. -/
def strict (r : Report) : Except ReportError StrictResult :=
  match r.result with
  | .strict s => .ok s
  | .loose _ => .error .fromLooseCheck

/-- The result of a loose check. -/
def loose (r : Report) : Except ReportError LooseResult :=
  match r.result with
  | .strict _ => .error .fromStrictCheck
  | .loose l => .ok l

end Report

/-! ## Written form -/

open Json (Value)

/-- A module by name and patterns. -/
def Module.toJson (m : Module) : Value :=
  .object [("name", .text m.name), ("patterns", .texts m.patternTexts)]

/-- A list of modules. -/
def Module.listToJson (ms : List Module) : Value :=
  .list (ms.map Module.toJson)

/-- A pair of modules. -/
def ModulePair.toJson (p : ModulePair) : Value :=
  .object [("source", p.source.toJson), ("dest", p.dest.toJson)]

/-- A definition by modules and rules. -/
def Definition.toJson (d : Definition) : Value :=
  .object
    [("modules", Module.listToJson d.modules),
      ("dependencies", .list (d.dependencies.map ModulePair.toJson)),
      ("no_strict_dependencies", .list (d.noDependencies.map ModulePair.toJson))]

/-- The coupling of a module. -/
def ModuleMetrics.toJson (m : ModuleMetrics) : Value :=
  .object
    [("module", m.module.toJson), ("fan_in", .number m.fanIn), ("fan_out", .number m.fanOut)]

/-- A difference in ways. -/
def RouteViolation.toJson (v : RouteViolation) : Value :=
  .object
    [("source", v.source.toJson), ("dest", v.dest.toJson),
      ("specified_path", Module.listToJson v.specifiedPath),
      ("actual_path", Module.listToJson v.actualPath)]

/-- An undesired way. -/
def ReachViolation.toJson (v : ReachViolation) : Value :=
  .object
    [("source", v.source.toJson), ("dest", v.dest.toJson), ("path", Module.listToJson v.path)]

/-- The fields of a strict result. -/
def StrictResult.fields (r : StrictResult) : List (String × Value) :=
  [("dependency_violations", .list (r.routes.map RouteViolation.toJson)),
    ("no_strict_dependency_violations", .list (r.direct.map ModulePair.toJson)),
    ("metrics", .list (r.metrics.map ModuleMetrics.toJson))]

/-- The fields of a loose result. -/
def LooseResult.fields (r : LooseResult) : List (String × Value) :=
  [("absent_dependency_violations", .list (r.absent.map ModulePair.toJson)),
    ("undesired_dependency_violations", .list (r.undesired.map ReachViolation.toJson)),
    ("metrics", .list (r.metrics.map ModuleMetrics.toJson))]

/-- The name of a mode. -/
def AnalysisMode.name : AnalysisMode → String
  | strict => "strict"
  | loose => "loose"

/-- A result under the name of its mode. -/
def AnalysisResult.toJson : AnalysisResult → Value
  | strict r => .object (("mode", .text AnalysisMode.strict.name) :: r.fields)
  | loose r => .object (("mode", .text AnalysisMode.loose.name) :: r.fields)

/-- A finding under the name of its kind. -/
def Diagnostic.toJson : Diagnostic → Value
  | duplicateModuleName name =>
    .object [("kind", .text "duplicate_module_name"), ("name", .text name)]
  | ambiguousElement element modules =>
    .object
      [("kind", .text "ambiguous_element"), ("element", .text element), ("modules", .texts modules)]
  | deadModule name => .object [("kind", .text "dead_module"), ("module", .text name)]

/-- A report by result and findings. -/
def Report.toJson (r : Report) : Value :=
  .object
    [("result", r.result.toJson), ("diagnostics", .list (r.diagnostics.map Diagnostic.toJson))]

end Conformance
