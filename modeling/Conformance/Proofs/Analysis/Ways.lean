import Conformance.Proofs.Analysis.Differences

/-!
# What a loose result lists

The loose analysis goes through the rules. Of the dependencies it lists those that the code has on
no way, and of the no-dependency rules those that it breaks on some way, each with a shortest way as
its evidence (`loose_lists_ways`). A way has at least one step, so a rule that names one module
twice is broken by a cycle and by nothing else. That evidence is never missing comes from what the
closure of the code answers for declared modules (`actualClosure_cases`), and both ends of a rule
are declared.
-/

namespace Conformance.Analysis

variable {a : Analysis}

/-- What is shown of an undesired way: the rule that it breaks, and the path of the closure. -/
def undesiredWay (a : Analysis) (p : ModulePair) : ReachViolation :=
  ⟨p.source, p.dest, (a.actualClosure.path? p.source p.dest).getD []⟩

/-- With modules, the loose analysis goes through the rules of both kinds. -/
theorem loose_eq_ok (h : a.definition.modules ≠ []) :
    a.loose = .ok
      { absent := a.definition.dependencies.filter fun p =>
          !a.actualClosure.isReachable p.source p.dest
        undesired := (a.definition.noDependencies.filter fun p =>
          a.actualClosure.isReachable p.source p.dest).map a.undesiredWay
        metrics := a.metrics } := by
  have hempty : a.definition.modules.isEmpty = false := by simpa using h
  simp only [loose, hempty]
  rfl

/-- Where there is a way between declared modules, a shortest one is shown. -/
theorem isShortest_undesiredWay {p : ModulePair} (hsource : a.Declares p.source)
    (hdest : a.Declares p.dest) (h : a.Reaches p.source p.dest) :
    IsShortest a.CodeStep p.source p.dest (a.undesiredWay p).path := by
  rcases actualClosure_cases hsource hdest with ⟨hno, -⟩ | ⟨d, path, -, -, hpath, -, hfirst⟩
  · exact absurd h hno
  · have hshown : (a.undesiredWay p).path = path := by
      rw [undesiredWay, hpath, Option.getD_some]
    rw [hshown]
    exact hfirst.1

/-- Without as many modules as `Distance.limit`, no way is too long to be counted. -/
theorem reaches_iff_leads (h : a.definition.modules.length < Distance.limit) {m n : Module} :
    a.Reaches m n ↔ Leads a.CodeStep m n := by
  have hlength := length_distinct_vertices_le a
  exact Closure.leadsWithin_limit_iff (by omega)

open Classical in
/-- A definition without modules is refused. Of any other one the loose analysis has a result. It
lists, both in the order of rules, the dependencies from whose source no way in the code leads to
their destination, and the no-dependency rules of which one does, each with a shortest such way,
which is never empty. A way has one step or more and visits declared modules and the catch-all
module only. Ways longer than `Distance.limit` do not count; with fewer modules than that no way has
to be longer. -/
theorem loose_lists_ways (a : Analysis) :
    (a.definition.modules = [] → a.loose = .error .noModulesProvided)
      ∧ (a.definition.modules ≠ [] → ∃ r, a.loose = .ok r
        ∧ r.absent = a.definition.dependencies.filter (fun p => ¬a.Reaches p.source p.dest)
        ∧ r.undesired.map ReachViolation.pair
          = a.definition.noDependencies.filter (fun p => a.Reaches p.source p.dest)
        ∧ ∀ v ∈ r.undesired, IsShortest a.CodeStep v.source v.dest v.path ∧ v.path ≠ [])
      ∧ (a.definition.modules.length < Distance.limit → ∀ m n,
        a.Reaches m n ↔ Leads a.CodeStep m n) := by
  refine ⟨fun hnil => by simp [loose, hnil], fun hmodules => ?_, fun hlimit _ _ =>
    reaches_iff_leads hlimit⟩
  refine ⟨_, loose_eq_ok hmodules, ?_, ?_, fun v hv => ?_⟩
  · refine List.filter_congr fun p _ => ?_
    rw [Bool.eq_iff_iff, decide_eq_true_eq, Bool.not_eq_true', ← Bool.not_eq_true,
      isReachable_actualClosure]
  · have hpairs (ps : List ModulePair) : (ps.map a.undesiredWay).map ReachViolation.pair = ps :=
      List.map_map.trans (List.map_id ps)
    rw [hpairs]
    refine List.filter_congr fun p _ => ?_
    rw [Bool.eq_iff_iff, decide_eq_true_eq, isReachable_actualClosure]
  · obtain ⟨p, hp, rfl⟩ := List.mem_map.1 hv
    obtain ⟨hrule, hreachable⟩ := List.mem_filter.1 hp
    obtain ⟨hsource, hdest⟩ := declares_of_mem_noDependencies hrule
    have hshortest : IsShortest a.CodeStep p.source p.dest (a.undesiredWay p).path :=
      isShortest_undesiredWay hsource hdest (isReachable_actualClosure.1 hreachable)
    refine ⟨hshortest, fun hnil => ?_⟩
    -- the fallback of a path that is not found is empty, and no walk is
    have htwo := hshortest.1.1
    rw [hnil] at htwo
    exact absurd htwo (by decide)

/-- Code that leads from the first module to the second only by way of the catch-all module, and
back on an edge. The first one is also told to depend on a third, which it does not, and it must not
depend on itself. -/
def roundTripSample : Analysis :=
  let a : Module := ⟨"Shop", []⟩
  let b : Module := ⟨"Stock", []⟩
  let c : Module := ⟨"Tax", []⟩
  { definition :=
      { modules := [a, b, c]
        dependencies := [⟨a, c⟩, ⟨a, b⟩]
        noDependencies := [⟨a, b⟩, ⟨c, c⟩, ⟨a, a⟩]
        names_nodup := by decide
        dependencies_declared := by decide
        noDependencies_declared := by decide
        dependencies_nodup := by decide
        noDependencies_nodup := by decide }
    actual := [(a, Module.other), (Module.other, b), (b, a)].foldl
      (fun g e => g.addDependency e.1 e.2) (ModuleGraph.empty.addModules [a, b, c, Module.other])
    other := Module.other }

/-- The rule on one module is broken by the round trip, and the dependency that the code has by way
of the catch-all module alone is not absent. -/
theorem loose_lists_ways_roundTripSample :
    roundTripSample.definition.modules ≠ []
      ∧ roundTripSample.definition.modules.length < Distance.limit
      ∧ ∃ r, roundTripSample.loose = .ok r
        ∧ r.absent = [⟨⟨"Shop", []⟩, ⟨"Tax", []⟩⟩]
        ∧ r.undesired.map ReachViolation.path = [[⟨"Shop", []⟩, Module.other, ⟨"Stock", []⟩],
          [⟨"Shop", []⟩, Module.other, ⟨"Stock", []⟩, ⟨"Shop", []⟩]]
        ∧ ¬Leads roundTripSample.CodeStep ⟨"Shop", []⟩ ⟨"Tax", []⟩
        ∧ ∀ v ∈ r.undesired, IsShortest roundTripSample.CodeStep v.source v.dest v.path := by
  have hmodules : roundTripSample.definition.modules ≠ [] := by decide
  have hlimit : roundTripSample.definition.modules.length < Distance.limit := by decide
  obtain ⟨-, hlists, hleads⟩ := loose_lists_ways roundTripSample
  obtain ⟨r, hr, habsent, -, hpaths⟩ := hlists hmodules
  obtain ⟨hlist, hundesired⟩ : r.absent = [⟨⟨"Shop", []⟩, ⟨"Tax", []⟩⟩]
      ∧ r.undesired.map ReachViolation.path = [[⟨"Shop", []⟩, Module.other, ⟨"Stock", []⟩],
        [⟨"Shop", []⟩, Module.other, ⟨"Stock", []⟩, ⟨"Shop", []⟩]] := by
    obtain rfl := Except.ok.inj (hr.symm.trans (loose_eq_ok hmodules))
    exact ⟨by decide, by decide⟩
  have hnowhere : ¬roundTripSample.Reaches ⟨"Shop", []⟩ ⟨"Tax", []⟩ := by
    have hmem : ⟨⟨"Shop", []⟩, ⟨"Tax", []⟩⟩ ∈ r.absent := by
      rw [hlist]
      exact List.mem_singleton_self _
    rw [habsent, List.mem_filter] at hmem
    simpa using hmem.2
  exact ⟨hmodules, hlimit, r, hr, hlist, hundesired, mt (hleads hlimit _ _).2 hnowhere,
    fun v hv => (hpaths v hv).1⟩

end Conformance.Analysis
