import Conformance.Proofs.Analysis.Routes
import Conformance.Proofs.Graph.Paths

/-!
# What the analyses report

The results of both analyses, read as statements on edges and ways. `ReportsStrictly` says what a
strict result holds and `ReportsLoosely` what a loose one holds; an analysis of a definition with
modules has a result of which this is true (`exists_strict`, `exists_loose`). Later proofs read a
result through these two and never see the closures that it was computed from.

The catch-all module is in no direct violation and in no metrics. It is in no difference of ways
either, unless it is declared itself (`strict_findings_ne_other`).
-/

namespace Conformance

/-- The rule that an undesired way breaks. -/
def ReachViolation.pair (v : ReachViolation) : ModulePair := ⟨v.source, v.dest⟩

namespace Analysis

variable {a : Analysis}

/-- Does the code lead from one module to the other? Ways longer than `Distance.limit` do not count.
-/
def Reaches (a : Analysis) (m n : Module) : Prop :=
  LeadsWithin (a.actual.StepWithin a.vertices) Distance.limit m n

theorem isReachable_actualClosure {m n : Module} :
    a.actualClosure.isReachable m n = true ↔ a.Reaches m n :=
  Closure.isReachable_ofGraph

/-- Of declared modules, those at distance one are those joined by an edge. -/
theorem distance?_actualClosure_eq_one_iff {m n : Module} (hm : a.Declares m) (hn : a.Declares n) :
    a.actualClosure.distance? m n = some (.finite 1) ↔ a.actual.hasEdge m n = true := by
  have hone : a.actualClosure.distance? m n = some (.finite 1)
      ↔ a.actual.StepWithin a.vertices m n := Closure.distance?_eq_one_iff
  rw [hone]
  exact ⟨fun hstep => hstep.2.2, fun hedge => ⟨hm.mem_vertices, hn.mem_vertices, hedge⟩⟩

/-- Both ends of a no-dependency rule are declared. -/
theorem declares_of_mem_noDependencies {p : ModulePair} (h : p ∈ a.definition.noDependencies) :
    a.Declares p.source ∧ a.Declares p.dest :=
  a.definition.noDependencies_declared p h

/-! ## Strict results -/

/-- A difference in ways is one between the modules that were compared. -/
theorem ends_of_compareRoute {specified actual : Closure} {m n : Module} {v : RouteViolation}
    (h : compareRoute specified actual m n = some v) : v.source = m ∧ v.dest = n := by
  simp only [compareRoute, Option.bind_eq_bind, Option.bind_eq_some_iff] at h
  obtain ⟨d, -, e, -, path, -, h⟩ := h
  split at h
  · obtain ⟨found, -, h⟩ := Option.bind_eq_some_iff.1 h
    obtain rfl := Option.some.inj h
    exact ⟨rfl, rfl⟩
  · cases h

/-- What a strict result holds: the differences in ways between declared modules, the no-dependency
rules that an edge breaks, and metrics of declared modules. -/
structure ReportsStrictly (a : Analysis) (r : StrictResult) : Prop where
  mem_routes_iff : ∀ v, v ∈ r.routes ↔ a.Declares v.source ∧ a.Declares v.dest
    ∧ compareRoute a.specifiedClosure a.actualClosure v.source v.dest = some v
  mem_direct_iff : ∀ p, p ∈ r.direct ↔ p ∈ a.definition.noDependencies
    ∧ (p.source ≠ a.other ∧ p.dest ≠ a.other) ∧ a.actual.hasEdge p.source p.dest = true
  modules_metrics : r.metrics.map ModuleMetrics.module
    = a.definition.modules.filter fun m => m ≠ a.other

/-- With modules, the strict analysis goes through their pairs and through the rules. -/
theorem strict_eq_ok (h : a.definition.modules ≠ []) :
    a.strict = .ok
      { routes := a.definition.modules.flatMap fun m =>
          a.definition.modules.filterMap (compareRoute a.specifiedClosure a.actualClosure m)
        direct := a.definition.noDependencies.filter fun p => !a.touchesOther p
          && a.actualClosure.distance? p.source p.dest = some (.finite 1)
        metrics := a.metrics } := by
  have hempty : a.definition.modules.isEmpty = false := by simpa using h
  simp only [strict, hempty]
  rfl

/-- A rule is reported as broken by an edge just if it does not speak of the catch-all module and
its modules are joined by one. -/
theorem isBroken_iff {p : ModulePair} (hp : p ∈ a.definition.noDependencies) :
    (!a.touchesOther p && a.actualClosure.distance? p.source p.dest = some (.finite 1)) = true
      ↔ (p.source ≠ a.other ∧ p.dest ≠ a.other) ∧ a.actual.hasEdge p.source p.dest = true := by
  obtain ⟨hsource, hdest⟩ := declares_of_mem_noDependencies hp
  rw [Bool.and_eq_true, decide_eq_true_eq, distance?_actualClosure_eq_one_iff hsource hdest]
  exact and_congr (by simp [touchesOther]) Iff.rfl

theorem exists_strict (h : a.definition.modules ≠ []) :
    ∃ r, a.strict = .ok r ∧ a.ReportsStrictly r := by
  refine ⟨_, strict_eq_ok h, fun v => ?_, fun p => ?_, ?_⟩
  · simp only [List.mem_flatMap, List.mem_filterMap]
    constructor
    · intro hsome
      obtain ⟨m, hm, n, hn, hv⟩ := hsome
      obtain ⟨rfl, rfl⟩ := ends_of_compareRoute hv
      exact ⟨hm, hn, hv⟩
    · intro hall
      obtain ⟨hm, hn, hv⟩ := hall
      exact ⟨_, hm, _, hn, hv⟩
  · rw [List.mem_filter]
    exact and_congr_right isBroken_iff
  · exact List.map_map.trans (List.map_id _)

/-- There is no difference in ways exactly when edges match. -/
theorem ReportsStrictly.routes_eq_nil_iff {r : StrictResult} (h : a.ReportsStrictly r) :
    r.routes = [] ↔ a.EdgesMatch := by
  constructor
  · intro hnil
    refine edgesMatch_of_compareRoute fun m n hm hn => ?_
    cases hv : compareRoute a.specifiedClosure a.actualClosure m n with
    | none => rfl
    | some v =>
      obtain ⟨rfl, rfl⟩ := ends_of_compareRoute hv
      have hmem : v ∈ r.routes := (h.mem_routes_iff v).2 ⟨hm, hn, hv⟩
      exact absurd hmem (by simp [hnil])
  · intro hmatch
    refine List.eq_nil_iff_forall_not_mem.2 fun v hv => ?_
    obtain ⟨hm, hn, hsome⟩ := (h.mem_routes_iff v).1 hv
    rw [hmatch.compareRoute_eq_none hm hn] at hsome
    cases hsome

/-- Of a definition with modules, no direct violation and no metrics of a strict result are about the
catch-all module. No difference in ways is either, unless the catch-all module is declared. -/
theorem strict_findings_ne_other (h : a.definition.modules ≠ []) :
    ∃ r, a.strict = .ok r
      ∧ (∀ p ∈ r.direct, p.source ≠ a.other ∧ p.dest ≠ a.other)
      ∧ (∀ m ∈ r.metrics, m.module ≠ a.other)
      ∧ (a.other ∉ a.definition.modules → ∀ v ∈ r.routes, v.source ≠ a.other ∧ v.dest ≠ a.other) := by
  obtain ⟨r, hr, hreport⟩ := exists_strict h
  refine ⟨r, hr, fun p hp => ((hreport.mem_direct_iff p).1 hp).2.1, fun m hm => ?_,
    fun hother v hv => ?_⟩
  · have hmodule : m.module ∈ r.metrics.map ModuleMetrics.module := List.mem_map_of_mem hm
    rw [hreport.modules_metrics, List.mem_filter] at hmodule
    simpa using hmodule.2
  · obtain ⟨hsource, hdest, -⟩ := (hreport.mem_routes_iff v).1 hv
    exact ⟨fun heq => hother (heq ▸ hsource), fun heq => hother (heq ▸ hdest)⟩

/-- A module that may depend on another one, and code that leads there by way of the catch-all module
alone. -/
def throughOtherSample : Analysis :=
  let a : Module := ⟨"A", []⟩
  let b : Module := ⟨"B", []⟩
  { definition :=
      { modules := [a, b]
        dependencies := [⟨a, b⟩]
        noDependencies := []
        names_nodup := by decide
        dependencies_declared := by decide
        noDependencies_declared := by decide
        dependencies_nodup := by decide
        noDependencies_nodup := List.nodup_nil }
    actual := ((ModuleGraph.empty.addModules [a, b, Module.other]).addDependency
      a Module.other).addDependency Module.other b
    other := Module.other }

/-- The catch-all module is on a way that differs, and at neither end of it. -/
theorem strict_findings_throughOtherSample :
    throughOtherSample.definition.modules ≠ []
      ∧ throughOtherSample.other ∉ throughOtherSample.definition.modules
      ∧ ∃ r, throughOtherSample.strict = .ok r
        ∧ (∃ v ∈ r.routes, throughOtherSample.other ∈ v.actualPath)
        ∧ ∀ v ∈ r.routes, v.source ≠ throughOtherSample.other ∧ v.dest ≠ throughOtherSample.other := by
  have hmodules : throughOtherSample.definition.modules ≠ [] := by decide
  have hother : throughOtherSample.other ∉ throughOtherSample.definition.modules := by decide
  obtain ⟨r, hr, -, -, hroutes⟩ := strict_findings_ne_other hmodules
  obtain ⟨r', hr', hreport⟩ := exists_strict hmodules
  obtain rfl := Except.ok.inj (hr.symm.trans hr')
  have hroute : ⟨⟨"A", []⟩, ⟨"B", []⟩, [⟨"A", []⟩, ⟨"B", []⟩],
      [⟨"A", []⟩, Module.other, ⟨"B", []⟩]⟩ ∈ r.routes :=
    (hreport.mem_routes_iff _).2 ⟨by decide, by decide, by decide⟩
  exact ⟨hmodules, hother, r, hr, ⟨_, hroute, by decide⟩, hroutes hother⟩

/-- A module that may depend on the catch-all module, which is declared too, and code without
accesses. -/
def declaredOtherSample : Analysis :=
  let a : Module := ⟨"A", [⟨"a.*", by decide⟩]⟩
  { definition :=
      { modules := [a, Module.other]
        dependencies := [⟨a, Module.other⟩]
        noDependencies := []
        names_nodup := by decide
        dependencies_declared := by decide
        noDependencies_declared := by decide
        dependencies_nodup := by decide
        noDependencies_nodup := List.nodup_nil }
    actual := ModuleGraph.empty.addModules [a, Module.other]
    other := Module.other }

/-- A catch-all module that is declared is compared like any other, so it is at an end of a
difference in ways. -/
theorem routes_declaredOtherSample :
    ∃ r, declaredOtherSample.strict = .ok r
      ∧ ∃ v ∈ r.routes, v.dest = declaredOtherSample.other := by
  let a : Module := ⟨"A", [⟨"a.*", by decide⟩]⟩
  obtain ⟨r, hr, hreport⟩ := exists_strict (a := declaredOtherSample) (by decide)
  have hroute : ⟨a, Module.other, [a, Module.other], []⟩ ∈ r.routes :=
    (hreport.mem_routes_iff _).2 ⟨by decide, by decide, by decide⟩
  exact ⟨r, hr, _, hroute, rfl⟩

/-! ## Loose results -/

/-- What a loose result holds: the dependencies that the code has on no way, and the no-dependency
rules that it breaks on some way, each with a shortest one. -/
structure ReportsLoosely (a : Analysis) (r : LooseResult) : Prop where
  mem_absent_iff : ∀ p, p ∈ r.absent
    ↔ p ∈ a.definition.dependencies ∧ ¬a.Reaches p.source p.dest
  mem_pairs_iff : ∀ p, p ∈ r.undesired.map ReachViolation.pair
    ↔ p ∈ a.definition.noDependencies ∧ a.Reaches p.source p.dest
  isShortest : ∀ v ∈ r.undesired,
    IsShortest (a.actual.StepWithin a.vertices) v.source v.dest v.path

theorem exists_loose (h : a.definition.modules ≠ []) :
    ∃ r, a.loose = .ok r ∧ a.ReportsLoosely r := by
  have hempty : a.definition.modules.isEmpty = false := by simpa using h
  refine ⟨_, by simp only [loose, hempty]; rfl, fun p => ?_, fun p => ?_, fun v hv => ?_⟩
  · simp only [List.mem_filter, Bool.not_eq_true', ← Bool.not_eq_true, isReachable_actualClosure]
  · have hpairs : ∀ ps : List ModulePair, (ps.map fun p => (⟨p.source, p.dest,
        (a.actualClosure.path? p.source p.dest).getD []⟩ : ReachViolation)).map
          ReachViolation.pair = ps := fun ps => List.map_map.trans (List.map_id ps)
    rw [hpairs, List.mem_filter, isReachable_actualClosure]
  · simp only [List.mem_map, List.mem_filter, isReachable_actualClosure] at hv
    obtain ⟨p, ⟨-, hreaches⟩, rfl⟩ := hv
    obtain ⟨path, hpath, hshortest⟩ := Closure.exists_path?_of_leadsWithin hreaches
    have hfound : a.actualClosure.path? p.source p.dest = some path := hpath
    simpa only [hfound, Option.getD_some] using hshortest

end Analysis

end Conformance
