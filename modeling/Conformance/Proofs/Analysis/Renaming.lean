import Conformance.Proofs.Analysis.Findings
import Conformance.Proofs.Graph.Renaming
import Mathlib.Logic.Equiv.Basic

/-!
# Analyses under other names

Names and patterns tell modules apart and do nothing else in an analysis. When every module is
replaced by another one, different ones for different modules, the results are those of before with
the modules replaced: the same violations in the same order, with the same evidence, and the same
metrics (`results_rename`). So no order but that of declarations, rules and vertices shows in a
result, least of all an alphabetical one.
-/

namespace Conformance

/-! ## Renamed definitions and results -/

/-- A pair of modules, renamed. -/
def ModulePair.rename (f : Module → Module) (p : ModulePair) : ModulePair :=
  ⟨f p.source, f p.dest⟩

/-- Different pairs have different ends. -/
theorem ModulePair.rename_injective {f : Module → Module} (hf : Function.Injective f) :
    Function.Injective (ModulePair.rename f) := by
  intro p q hpq
  obtain ⟨hsource, hdest⟩ := ModulePair.mk.inj hpq
  cases p
  cases q
  rw [ModulePair.mk.injEq]
  exact ⟨hf hsource, hf hdest⟩

/-- A definition with its modules renamed, as long as their new names differ. -/
def Definition.rename (d : Definition) (f : Module → Module) (hf : Function.Injective f)
    (hnames : ((d.modules.map f).map Module.name).Nodup) : Definition where
  modules := d.modules.map f
  dependencies := d.dependencies.map (.rename f)
  noDependencies := d.noDependencies.map (.rename f)
  names_nodup := hnames
  dependencies_declared := List.forall_mem_map.2 fun p hp =>
    (d.dependencies_declared p hp).imp List.mem_map_of_mem List.mem_map_of_mem
  noDependencies_declared := List.forall_mem_map.2 fun p hp =>
    (d.noDependencies_declared p hp).imp List.mem_map_of_mem List.mem_map_of_mem
  dependencies_nodup := d.dependencies_nodup.map (ModulePair.rename_injective hf)
  noDependencies_nodup := d.noDependencies_nodup.map (ModulePair.rename_injective hf)

/-- A difference in ways, renamed with its evidence. -/
def RouteViolation.rename (f : Module → Module) (v : RouteViolation) : RouteViolation :=
  ⟨f v.source, f v.dest, v.specifiedPath.map f, v.actualPath.map f⟩

/-- An undesired way, renamed with its evidence. -/
def ReachViolation.rename (f : Module → Module) (v : ReachViolation) : ReachViolation :=
  ⟨f v.source, f v.dest, v.path.map f⟩

/-- The metrics of the renamed module. -/
def ModuleMetrics.rename (f : Module → Module) (m : ModuleMetrics) : ModuleMetrics :=
  ⟨f m.module, m.fanIn, m.fanOut⟩

/-- A strict result, renamed item by item. -/
def StrictResult.rename (f : Module → Module) (r : StrictResult) : StrictResult :=
  ⟨r.routes.map (.rename f), r.direct.map (.rename f), r.metrics.map (.rename f)⟩

/-- A loose result, renamed item by item. -/
def LooseResult.rename (f : Module → Module) (r : LooseResult) : LooseResult :=
  ⟨r.absent.map (.rename f), r.undesired.map (.rename f), r.metrics.map (.rename f)⟩

namespace Analysis

/-- An analysis of the renamed definition and graph. -/
def rename (a : Analysis) (f : Module → Module) (hf : Function.Injective f)
    (hnames : ((a.definition.modules.map f).map Module.name).Nodup) : Analysis :=
  ⟨a.definition.rename f hf hnames, a.actual.rename f hf, f a.other⟩

section
variable (a : Analysis) {f : Module → Module} (hf : Function.Injective f)
  (hnames : ((a.definition.modules.map f).map Module.name).Nodup)

/-! ## What the analyses read -/

theorem vertices_rename : (a.rename f hf hnames).vertices = a.vertices.map f := by
  rw [vertices, vertices, List.map_append]
  rfl

/-- The renamed rules are about the renamed modules. -/
theorem depends_rename (m n : Module) :
    (a.rename f hf hnames).Depends (f m) (f n) ↔ a.Depends m n :=
  List.mem_map_of_injective (a := ⟨m, n⟩) (ModulePair.rename_injective hf)

/-- What the rules specify is renamed with them, step by step. -/
theorem renames_specifiedClosure :
    Closure.Renames f a.specifiedClosure (a.rename f hf hnames).specifiedClosure := by
  have hstep (m n : Module) :
      (a.rename f hf hnames).specifiedGraph.StepWithin (a.vertices.map f) (f m) (f n)
        ↔ a.specifiedGraph.StepWithin a.vertices m n := by
    rw [← vertices_rename a hf hnames, stepWithin_specifiedGraph, stepWithin_specifiedGraph,
      depends_rename]
  unfold specifiedClosure
  rw [vertices_rename]
  exact Closure.renames_ofGraph hf hstep

/-- What the code does is renamed with the graph, step by step. -/
theorem renames_actualClosure :
    Closure.Renames f a.actualClosure (a.rename f hf hnames).actualClosure := by
  have hstep (m n : Module) : (a.actual.rename f hf).StepWithin (a.vertices.map f) (f m) (f n)
      ↔ a.actual.StepWithin a.vertices m n := by
    unfold ModuleGraph.StepWithin
    rw [ModuleGraph.hasEdge_rename, List.mem_map_of_injective hf, List.mem_map_of_injective hf]
  unfold actualClosure
  rw [vertices_rename]
  exact Closure.renames_ofGraph hf hstep

theorem touchesOther_rename (p : ModulePair) :
    (a.rename f hf hnames).touchesOther (p.rename f) = a.touchesOther p := by
  show (decide (f p.source = f a.other) || decide (f p.dest = f a.other)) = _
  simp only [hf.eq_iff]
  rfl

/-! ## Results -/

/-- Renamed modules are compared with the same outcome. -/
theorem compareRoute_rename {specified actual specified' actual' : Closure}
    (hs : Closure.Renames f specified specified') (ha : Closure.Renames f actual actual')
    (m n : Module) :
    compareRoute specified' actual' (f m) (f n)
      = (compareRoute specified actual m n).map (RouteViolation.rename f) := by
  have hdiffer (path : List Module) (d e : Distance) :
      routesDiffer actual' (path.map f) d e = routesDiffer actual path d e := by
    cases d <;> cases e <;> simp only [routesDiffer, ha.isWalk]
  -- each answer of the new closures is the renamed one of the old closures
  simp only [compareRoute, hs.distance?, ha.distance?, hs.path?, ha.path?]
  cases specified.distance? m n with
  | none => rfl
  | some d =>
    cases actual.distance? m n with
    | none => rfl
    | some e =>
      cases specified.path? m n with
      | none => rfl
      | some path =>
        simp only [Option.bind_eq_bind, Option.bind_some, Option.map_some, hdiffer]
        cases routesDiffer actual path d e with
        | false => rfl
        | true => cases actual.path? m n <;> rfl

/-- The renamed modules have the numbers of the old ones, in the same order. -/
theorem metrics_rename :
    (a.rename f hf hnames).metrics = a.metrics.map (ModuleMetrics.rename f) := by
  have hfilter : (a.definition.modules.map f).filter (· ≠ f a.other)
      = (a.definition.modules.filter (· ≠ a.other)).map f := by
    rw [List.filter_map]
    simp only [Function.comp_def, ne_eq, hf.eq_iff]
  show ((a.definition.modules.map f).filter (· ≠ f a.other)).map _ = _
  rw [hfilter, metrics, List.map_map, List.map_map]
  refine List.map_congr_left fun m _ => ?_
  simp only [Function.comp_apply, ModuleMetrics.rename, rename, ModuleGraph.fanIn?_rename,
    ModuleGraph.fanOut?_rename, ModuleGraph.hasEdge_rename]

theorem isEmpty_rename :
    (a.rename f hf hnames).definition.modules.isEmpty = a.definition.modules.isEmpty :=
  List.isEmpty_map

/-- A strict result is renamed item by item: routes pair by pair, in the order of the declarations,
and broken rules in the order of the rules. -/
theorem strict_rename :
    (a.rename f hf hnames).strict = a.strict.map (StrictResult.rename f) := by
  have hspecified := renames_specifiedClosure a hf hnames
  have hactual := renames_actualClosure a hf hnames
  unfold strict
  simp only [isEmpty_rename]
  split
  · rfl
  · refine congrArg Except.ok ?_
    rw [StrictResult.rename, StrictResult.mk.injEq]
    refine ⟨?_, ?_, metrics_rename a hf hnames⟩
    · show ((a.definition.modules.map f).flatMap fun s =>
        (a.definition.modules.map f).filterMap fun d => _) = _
      rw [List.flatMap_map, List.map_flatMap]
      refine List.flatMap_congr fun s _ => ?_
      rw [List.filterMap_map, List.map_filterMap]
      exact List.filterMap_congr fun d _ => compareRoute_rename hspecified hactual s d
    · show (a.definition.noDependencies.map (ModulePair.rename f)).filter _ = _
      rw [List.filter_map]
      refine congrArg _ (List.filter_congr fun p _ => ?_)
      have hdistance := hactual.distance? p.source p.dest
      simp only [Function.comp_apply, touchesOther_rename]
      rw [ModulePair.rename, hdistance]

/-- A loose result is renamed item by item, rules and evidence alike. -/
theorem loose_rename :
    (a.rename f hf hnames).loose = a.loose.map (LooseResult.rename f) := by
  have hactual := renames_actualClosure a hf hnames
  have hreachable (p : ModulePair) : (a.rename f hf hnames).actualClosure.isReachable
      (p.rename f).source (p.rename f).dest = a.actualClosure.isReachable p.source p.dest :=
    hactual.isReachable p.source p.dest
  unfold loose
  simp only [isEmpty_rename]
  split
  · rfl
  · refine congrArg Except.ok ?_
    rw [LooseResult.rename, LooseResult.mk.injEq]
    refine ⟨?_, ?_, metrics_rename a hf hnames⟩
    · show (a.definition.dependencies.map (ModulePair.rename f)).filter _ = _
      rw [List.filter_map]
      refine congrArg _ (List.filter_congr fun p _ => ?_)
      rw [Function.comp_apply, hreachable]
    · show ((a.definition.noDependencies.map (ModulePair.rename f)).filter _).map _ = _
      rw [List.filter_map, List.map_map, List.map_map]
      -- the same rules are kept
      have hfilter : (fun p : ModulePair => (a.rename f hf hnames).actualClosure.isReachable
          p.source p.dest) ∘ ModulePair.rename f
            = fun p => a.actualClosure.isReachable p.source p.dest := funext hreachable
      rw [hfilter]
      refine List.map_congr_left fun p _ => ?_
      simp only [Function.comp_apply, ReachViolation.rename, ModulePair.rename, hactual.path?]
      cases a.actualClosure.path? p.source p.dest <;> rfl

end

/-- The results of an analysis whose modules are renamed are the renamed results, in either mode,
and with modules there are results in both. The renamed graph is the one that grows by the renamed
calls. -/
theorem results_rename (a : Analysis) {f : Module → Module} (hf : Function.Injective f)
    (hnames : ((a.definition.modules.map f).map Module.name).Nodup) :
    let a' := a.rename f hf hnames
    a'.strict = a.strict.map (StrictResult.rename f)
      ∧ a'.loose = a.loose.map (LooseResult.rename f)
      ∧ a'.metrics = a.metrics.map (ModuleMetrics.rename f)
      ∧ (a.definition.modules ≠ [] → (∃ r, a.strict = .ok r) ∧ ∃ r, a.loose = .ok r)
      ∧ ∀ history, a.actual = ModuleGraph.empty.afterAll history →
          a'.actual = ModuleGraph.empty.afterAll (history.map (ModuleGraph.Step.rename f)) := by
  refine ⟨strict_rename a hf hnames, loose_rename a hf hnames, metrics_rename a hf hnames,
    fun hmodules => ?_, fun history hhistory => ?_⟩
  · obtain ⟨r, hr, -⟩ := exists_strict hmodules
    obtain ⟨r', hr', -⟩ := exists_loose hmodules
    exact ⟨⟨r, hr⟩, r', hr'⟩
  · show a.actual.rename f hf = _
    rw [hhistory]
    exact ModuleGraph.rename_afterAll hf ModuleGraph.empty history

/-- Two shortest ways along dependencies, of which the code has the one that is declared later. -/
def twoWaysSample : Analysis :=
  let a : Module := ⟨"Client", []⟩
  let b : Module := ⟨"Cache", []⟩
  let c : Module := ⟨"Proxy", []⟩
  let d : Module := ⟨"Server", []⟩
  { definition :=
      { modules := [a, b, c, d]
        dependencies := [⟨a, b⟩, ⟨a, c⟩, ⟨b, d⟩, ⟨c, d⟩]
        noDependencies := []
        names_nodup := by decide
        dependencies_declared := by decide
        noDependencies_declared := by decide
        dependencies_nodup := by decide
        noDependencies_nodup := List.nodup_nil }
    actual := ModuleGraph.empty.afterAll [.addModule a, .addModule b, .addModule c, .addModule d,
      .addModule Module.other, .addDependency a c, .addDependency c d]
    other := Module.other }

/-- The two modules in the middle change their names. -/
def swapMiddle : Module → Module := Equiv.swap ⟨"Cache", []⟩ ⟨"Proxy", []⟩

/-- The specified way goes by the module that is declared first, whatever its name. -/
theorem results_rename_twoWaysSample :
    ∃ (hf : Function.Injective swapMiddle)
      (hnames : ((twoWaysSample.definition.modules.map swapMiddle).map Module.name).Nodup),
      ∃ r r', twoWaysSample.strict = .ok r
        ∧ (twoWaysSample.rename swapMiddle hf hnames).strict = .ok r'
        ∧ ⟨⟨"Client", []⟩, ⟨"Server", []⟩, [⟨"Client", []⟩, ⟨"Cache", []⟩, ⟨"Server", []⟩],
            [⟨"Client", []⟩, ⟨"Proxy", []⟩, ⟨"Server", []⟩]⟩ ∈ r.routes
        ∧ ⟨⟨"Client", []⟩, ⟨"Server", []⟩, [⟨"Client", []⟩, ⟨"Proxy", []⟩, ⟨"Server", []⟩],
            [⟨"Client", []⟩, ⟨"Cache", []⟩, ⟨"Server", []⟩]⟩ ∈ r'.routes := by
  have hf : Function.Injective swapMiddle := (Equiv.swap _ _).injective
  have hnames : ((twoWaysSample.definition.modules.map swapMiddle).map Module.name).Nodup := by
    decide
  obtain ⟨hstrict, -⟩ := results_rename twoWaysSample hf hnames
  obtain ⟨r, hr, hreport⟩ := exists_strict (a := twoWaysSample) (by decide)
  have hroute : ⟨⟨"Client", []⟩, ⟨"Server", []⟩, [⟨"Client", []⟩, ⟨"Cache", []⟩, ⟨"Server", []⟩],
      [⟨"Client", []⟩, ⟨"Proxy", []⟩, ⟨"Server", []⟩]⟩ ∈ r.routes :=
    (hreport.mem_routes_iff _).2 ⟨by decide, by decide, by decide⟩
  rw [hr] at hstrict
  exact ⟨hf, hnames, r, r.rename swapMiddle, hr, hstrict, hroute,
    List.mem_map_of_mem hroute⟩

end Analysis

end Conformance
