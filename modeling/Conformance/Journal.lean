import Conformance.Checker

/-!
# The journal

The messages that go with the work of the library, each with a level of importance. They follow from
what the work is done on and what comes out of it.
-/

namespace Conformance

/-- The importance of a message. -/
inductive Level where
  | debug
  | info
  | warn
deriving DecidableEq, Repr

/-- The name of a level. -/
def Level.name : Level → String
  | debug => "DEBUG"
  | info => "INFO"
  | warn => "WARN"

/-- A message in the journal. -/
structure Entry where
  level : Level
  text : String
deriving DecidableEq, Repr

/-- A specification was read. -/
def Specification.entry (src : Source) (s : Specification) : Entry :=
  ⟨.debug,
    s!"parsed {src.file}: {s.modules.length} module definitions, {s.rules.length} rules"⟩

/-- A definition was compiled. -/
def Definition.entry (d : Definition) : Entry :=
  ⟨.debug,
    s!"compiled {d.modules.length} modules, {d.dependencies.length} dependency rules, "
      ++ s!"{d.noDependencies.length} no-dependency rules"⟩

/-- The entries of reading a specification text and compiling it. -/
def Source.journal (src : Source) : List Entry :=
  match Specification.ofSource src with
  | .error _ => []
  | .ok s =>
    s.entry src ::
      match Definition.ofSpecification s with
      | .ok d => [d.entry]
      | .error _ => []

/-- A finding was made. -/
def Diagnostic.entry (d : Diagnostic) : Entry := ⟨.warn, d.text⟩

/-- The entries of a survey up to its end. -/
def Survey.journal (s : Survey) : List Entry :=
  s.findings.map Diagnostic.entry
    ++ [⟨.debug,
      s!"dependency graph: {s.graph.modules.length} modules, {s.graph.edges.length} edges"⟩]

/-- A closure was computed. -/
def Closure.entry (c : Closure) : Entry :=
  ⟨.debug, s!"transitive closure over {c.vertices.length} modules"⟩

/-- The text of the distance between two modules. -/
def Closure.distanceText (c : Closure) (source dest : Module) : String :=
  ((c.distance? source dest).map Distance.text).getD ""

namespace Analysis

/-- A difference in ways was found. -/
def routeEntry (specified actual : Closure) (v : RouteViolation) : Entry :=
  ⟨.debug,
    s!"route {v.source.name} -> {v.dest.name}: "
      ++ s!"specified {specified.distanceText v.source v.dest}, "
      ++ s!"actual {actual.distanceText v.source v.dest}"⟩

/-- The entries of the strict analysis. -/
def strictJournal (a : Analysis) : List Entry :=
  match a.strict with
  | .error _ => []
  | .ok r =>
    let specified := a.specifiedClosure
    let actual := a.actualClosure
    [specified.entry, actual.entry] ++ r.routes.map (routeEntry specified actual)
      ++ [⟨.info,
        s!"strict analysis: {r.routes.length} dependency violations, "
          ++ s!"{r.direct.length} direct dependency violations"⟩]

/-- The entries of the loose analysis. -/
def looseJournal (a : Analysis) : List Entry :=
  match a.loose with
  | .error _ => []
  | .ok r =>
    [a.actualClosure.entry,
      ⟨.info,
        s!"loose analysis: {r.absent.length} absent dependencies, "
          ++ s!"{r.undesired.length} undesired dependencies"⟩]

/-- The entries of the analysis in a mode. -/
def journal (a : Analysis) : AnalysisMode → List Entry
  | .strict => a.strictJournal
  | .loose => a.looseJournal

end Analysis

/-- The name of a check in the journal. -/
def AnalysisMode.checkName : AnalysisMode → String
  | strict => "Strict"
  | loose => "Loose"

namespace Checker

/-- The entries of a check. A scan that fails leaves the findings up to then. -/
def checkJournal (c : Checker) (scan : Scan) : List Entry :=
  match c.definition with
  | none => []
  | some d =>
    let s := survey d scan.events
    if scan.failure.isSome then s.diagnostics.map Diagnostic.entry
    else
      s.journal ++ (analysis d s).journal c.mode ++
        match c.check scan with
        | .ok r =>
          [⟨.info,
            s!"{c.mode.checkName} check: {r.result.violations.length} violations, "
              ++ s!"{r.diagnostics.length} diagnostics"⟩]
        | .error _ => []

/-- The entries of a step. -/
def stepJournal (c : Checker) : Step → List Entry
  | .addSpecification src => src.journal
  | .check scan => c.checkJournal scan
  | _ => []

end Checker

end Conformance
