import Conformance.Analysis
import Conformance.Proofs.Graph.Counts
import Conformance.Proofs.Graph.Shortest

/-!
# Differences in ways

The strict analysis compares the shortest ways between all declared modules, in the dependencies of
a definition and in the code. That comes down to single edges: no two ways differ exactly when the
edges between declared modules are the dependencies and every detour by way of the catch-all module
has a counterpart of at most two dependencies (`strict_routes_eq_nil_iff`). The step from edges to
ways of any length is `EdgesMatch.leadsWithin_of_actual`, by induction on a walk in the code.
-/

namespace Conformance.Analysis

variable {a : Analysis}

/-! ## Single steps -/

/-- Is there a dependency between two modules? -/
def Depends (a : Analysis) (m n : Module) : Prop :=
  (⟨m, n⟩ : ModulePair) ∈ a.definition.dependencies

/-- Is a module declared? -/
def Declares (a : Analysis) (m : Module) : Prop := m ∈ a.definition.modules

theorem mem_vertices {m : Module} : m ∈ a.vertices ↔ a.Declares m ∨ m = a.other := by
  rw [vertices, List.mem_append, List.mem_singleton]
  rfl

theorem Declares.mem_vertices {m : Module} (h : a.Declares m) : m ∈ a.vertices :=
  Analysis.mem_vertices.2 (.inl h)

instance (m n : Module) : Decidable (a.Depends m n) := inferInstanceAs (Decidable (_ ∈ _))

instance (m : Module) : Decidable (a.Declares m) := inferInstanceAs (Decidable (_ ∈ _))

/-- Both ends of a dependency are declared. -/
theorem Depends.declares {m n : Module} (h : a.Depends m n) : a.Declares m ∧ a.Declares n :=
  a.definition.dependencies_declared _ h

/-- The edges of the graph of what is allowed are the dependencies. -/
theorem hasEdge_specifiedGraph {m n : Module} :
    a.specifiedGraph.hasEdge m n = true ↔ a.Depends m n := by
  have hvertices : ∀ k, k ∈ (ModuleGraph.empty.addModules a.vertices).modules ↔ k ∈ a.vertices :=
    fun k => by
      rw [ModuleGraph.modules_addModules]
      exact mem_distinct
  have hmem : (∃ p ∈ a.definition.dependencies, p.source = m ∧ p.dest = n) ↔ a.Depends m n := by
    refine ⟨?_, fun h => ⟨_, h, rfl, rfl⟩⟩
    intro hsome
    obtain ⟨p, hp, rfl, rfl⟩ := hsome
    exact hp
  rw [ModuleGraph.hasEdge_iff, specifiedGraph, ModuleGraph.accesses_foldl_addDependency,
    ModuleGraph.accesses_addModules, ModuleGraph.accesses_empty, Nat.zero_add]
  by_cases h : a.Depends m n
  · have hm := (hvertices m).2 h.declares.1.mem_vertices
    have hn := (hvertices n).2 h.declares.2.mem_vertices
    rw [if_pos ⟨hm, hn⟩, List.countP_pos_iff]
    simpa [h] using hmem.2 h
  · have hzero : (a.definition.dependencies.countP fun p => p.source = m && p.dest = n) = 0 := by
      refine List.countP_eq_zero.2 fun p hp hpm => h (hmem.1 ⟨p, hp, ?_⟩)
      simpa using hpm
    simp [hzero, h]

/-- One step among what is allowed. -/
theorem stepWithin_specifiedGraph {m n : Module} :
    a.specifiedGraph.StepWithin a.vertices m n ↔ a.Depends m n := by
  refine ⟨fun h => hasEdge_specifiedGraph.1 h.2.2, fun h => ?_⟩
  exact ⟨h.declares.1.mem_vertices, h.declares.2.mem_vertices, hasEdge_specifiedGraph.2 h⟩

/-! ## Ways of any length -/

/-- Are the edges between declared modules just the dependencies, and do dependencies lead in at
most two steps wherever a detour by way of the catch-all module leads? -/
structure EdgesMatch (a : Analysis) : Prop where
  edges : ∀ m n, a.Declares m → a.Declares n → (a.Depends m n ↔ a.actual.hasEdge m n = true)
  detours : ∀ m n, a.Declares m → a.Declares n →
    a.actual.hasEdge m a.other = true → a.actual.hasEdge a.other n = true →
      a.Depends m n ∨ ∃ c, a.Declares c ∧ a.Depends m c ∧ a.Depends c n

/-- Edges have to be compared for declared modules only. -/
theorem edgesMatch_iff : a.EdgesMatch ↔
    ∀ m ∈ a.definition.modules, ∀ n ∈ a.definition.modules,
      (a.Depends m n ↔ a.actual.hasEdge m n = true)
        ∧ (a.actual.hasEdge m a.other = true → a.actual.hasEdge a.other n = true →
          a.Depends m n ∨ ∃ c ∈ a.definition.modules, a.Depends m c ∧ a.Depends c n) :=
  ⟨fun h m hm n hn => ⟨h.edges m n hm hn, h.detours m n hm hn⟩,
    fun h => ⟨fun m n hm hn => (h m hm n hn).1, fun m n hm hn => (h m hm n hn).2⟩⟩

instance : Decidable a.EdgesMatch := decidable_of_iff _ edgesMatch_iff.symm

/-- Where dependencies are edges of the code, so are the steps of all their ways. -/
theorem EdgesMatch.stepWithin_actual (h : a.EdgesMatch) {m n : Module} (hmn : a.Depends m n) :
    a.actual.StepWithin a.vertices m n :=
  ⟨hmn.declares.1.mem_vertices, hmn.declares.2.mem_vertices,
    (h.edges m n hmn.declares.1 hmn.declares.2).1 hmn⟩

/-- A detour by way of the catch-all module is no shorter than some way along dependencies. -/
theorem EdgesMatch.detour (h : a.EdgesMatch) {m n : Module} (hm : a.Declares m)
    (hn : a.Declares n) (hout : a.actual.hasEdge m a.other = true)
    (hback : a.actual.hasEdge a.other n = true) : LeadsWithin a.Depends 2 m n := by
  rw [LeadsWithin.two_iff]
  obtain hmn | ⟨c, -, hmc, hcn⟩ := h.detours m n hm hn hout hback
  · exact .inl hmn
  · exact .inr ⟨c, hmc, hcn⟩

/-- A way in the code to a declared module is no shorter than some way along dependencies. It may
begin at a declared module, or behind one that has an edge to the catch-all module. -/
theorem EdgesMatch.leadsWithin_of_actual (h : a.EdgesMatch) {n : ℕ} {c d : Module}
    (hwalk : LeadsIn (a.actual.StepWithin a.vertices) n c d) (hd : a.Declares d) :
    (a.Declares c → LeadsWithin a.Depends n c d)
      ∧ (c = a.other → ∀ m, a.Declares m → a.actual.hasEdge m a.other = true →
          LeadsWithin a.Depends (n + 1) m d) := by
  induction hwalk with
  | @last c d hstep =>
    refine ⟨fun hc => LeadsWithin.one_iff.2 ((h.edges c d hc hd).2 hstep.2.2), ?_⟩
    rintro rfl m hm hout
    exact h.detour hm hd hout hstep.2.2
  | @next n c e d hstep _ _ ih =>
    obtain ⟨hfrom, hbehind⟩ := ih hd
    rcases mem_vertices.1 hstep.2.1 with he | rfl
    · obtain ⟨k, hk, hrest⟩ := hfrom he
      have hfirst (hc : a.Declares c) : a.Depends c e := (h.edges c e hc he).2 hstep.2.2
      refine ⟨fun hc => ⟨k + 1, by omega, .next (hfirst hc) trivial hrest⟩, ?_⟩
      rintro rfl m hm hout
      obtain ⟨l, hl, hfirst⟩ := h.detour hm he hout hstep.2.2
      exact ⟨l + k, by omega, hfirst.append trivial hrest⟩
    · refine ⟨fun hc => hbehind rfl c hc hstep.2.2, ?_⟩
      -- the catch-all module may have an edge to itself
      rintro rfl m hm hout
      obtain ⟨k, hk, hrest⟩ := hbehind rfl m hm hout
      exact ⟨k, by omega, hrest⟩

/-- Between declared modules the code leads as far in a number of steps as dependencies do. -/
theorem EdgesMatch.leadsWithin_iff (h : a.EdgesMatch) {m n : Module} (hm : a.Declares m)
    (hn : a.Declares n) (bound : ℕ) :
    LeadsWithin (a.specifiedGraph.StepWithin a.vertices) bound m n
      ↔ LeadsWithin (a.actual.StepWithin a.vertices) bound m n := by
  constructor
  · exact LeadsWithin.mono fun _ _ hstep =>
      h.stepWithin_actual (stepWithin_specifiedGraph.1 hstep)
  · intro hsome
    obtain ⟨k, hk, hwalk⟩ := hsome
    obtain ⟨l, hl, hdeps⟩ := (h.leadsWithin_of_actual hwalk hn).1 hm
    refine LeadsWithin.mono (fun _ _ => stepWithin_specifiedGraph.2) ⟨l, by omega, hdeps⟩

/-! ## Comparing two ways -/

/-- Ways do not differ if they are equally long, and if there are any the one along dependencies can
be walked in the code. -/
theorem routesDiffer_eq_false_iff {actual : Closure} {path : List Module} {d e : Distance} :
    routesDiffer actual path d e = false
      ↔ d = e ∧ (d = .infinite ∨ actual.isWalk path = true) := by
  cases d <;> cases e <;> simp [routesDiffer]

/-- Ways are compared by the answers of both closures. -/
theorem compareRoute_eq {specified actual : Closure} {m n : Module} {d e : Distance}
    {p q : List Module} (hd : specified.distance? m n = some d) (he : actual.distance? m n = some e)
    (hp : specified.path? m n = some p) (hq : actual.path? m n = some q) :
    compareRoute specified actual m n
      = if routesDiffer actual p d e then some ⟨m, n, p, q⟩ else none := by
  simp only [compareRoute, hd, he, hp, hq, Option.bind_eq_bind, Option.bind_some]
  rfl

/-- What there is to compare between two declared modules: two distances, each the length of the
shortest way on its side, and the path along dependencies. -/
theorem exists_compareRoute {m n : Module} (hm : a.Declares m) (hn : a.Declares n) :
    ∃ d e path,
      (∀ bound, d.AtMost bound ↔ LeadsWithin (a.specifiedGraph.StepWithin a.vertices)
          (min bound Distance.limit) m n)
        ∧ (∀ bound, e.AtMost bound ↔ LeadsWithin (a.actual.StepWithin a.vertices)
            (min bound Distance.limit) m n)
        ∧ a.specifiedClosure.path? m n = some path
        ∧ path.IsChain (a.specifiedGraph.StepWithin a.vertices)
        ∧ (compareRoute a.specifiedClosure a.actualClosure m n = none
            ↔ routesDiffer a.actualClosure path d e = false) := by
  obtain ⟨d, hd, hspecified⟩ := Closure.distance?_ofGraph (g := a.specifiedGraph) hm.mem_vertices
    hn.mem_vertices
  obtain ⟨e, he, hactual⟩ := Closure.distance?_ofGraph (g := a.actual) hm.mem_vertices
    hn.mem_vertices
  obtain ⟨path, hpath, hchain⟩ := Closure.exists_path? (g := a.specifiedGraph) hm.mem_vertices
    hn.mem_vertices
  obtain ⟨found, hfound, -⟩ := Closure.exists_path? (g := a.actual) hm.mem_vertices hn.mem_vertices
  refine ⟨d, e, path, hspecified, hactual, hpath, hchain, ?_⟩
  have hcompare : compareRoute a.specifiedClosure a.actualClosure m n
      = if routesDiffer a.actualClosure path d e then some ⟨m, n, path, found⟩ else none :=
    compareRoute_eq hd he hpath hfound
  rw [hcompare]
  split <;> simp_all

/-- Without a difference the code leads as far in a number of steps as dependencies do. -/
theorem leadsWithin_iff_of_compareRoute {m n : Module} (hm : a.Declares m) (hn : a.Declares n)
    (h : compareRoute a.specifiedClosure a.actualClosure m n = none) {bound : ℕ}
    (hbound : bound ≤ Distance.limit) :
    LeadsWithin (a.specifiedGraph.StepWithin a.vertices) bound m n
      ↔ LeadsWithin (a.actual.StepWithin a.vertices) bound m n := by
  obtain ⟨d, e, path, hspecified, hactual, -, -, hiff⟩ := exists_compareRoute hm hn
  obtain ⟨rfl, -⟩ := routesDiffer_eq_false_iff.1 (hiff.1 h)
  have hboth := (hspecified bound).symm.trans (hactual bound)
  rwa [Nat.min_eq_left hbound] at hboth

/-- Ways do not differ when edges match. -/
theorem EdgesMatch.compareRoute_eq_none (h : a.EdgesMatch) {m n : Module} (hm : a.Declares m)
    (hn : a.Declares n) : compareRoute a.specifiedClosure a.actualClosure m n = none := by
  obtain ⟨d, e, path, hspecified, hactual, -, hchain, hiff⟩ := exists_compareRoute hm hn
  refine hiff.2 (routesDiffer_eq_false_iff.2 ⟨Distance.eq_of_atMost fun bound => ?_, .inr ?_⟩)
  · rw [hspecified, hactual, h.leadsWithin_iff hm hn]
  · refine Closure.isWalk_ofGraph.2 (hchain.imp fun _ _ hstep => ?_)
    exact h.stepWithin_actual (stepWithin_specifiedGraph.1 hstep)

/-- Edges match when no ways differ: a way of one step is an edge, and a detour is a way of two. -/
theorem edgesMatch_of_compareRoute (h : ∀ m n, a.Declares m → a.Declares n →
    compareRoute a.specifiedClosure a.actualClosure m n = none) : a.EdgesMatch where
  edges m n hm hn := by
    have hlimit : 1 ≤ Distance.limit := by decide
    have hone := leadsWithin_iff_of_compareRoute hm hn (h m n hm hn) hlimit
    rw [LeadsWithin.one_iff, LeadsWithin.one_iff, stepWithin_specifiedGraph] at hone
    have hmv := hm.mem_vertices
    have hnv := hn.mem_vertices
    exact hone.trans ⟨fun hstep => hstep.2.2, fun hedge => ⟨hmv, hnv, hedge⟩⟩
  detours m n hm hn hout hback := by
    have hlimit : 2 ≤ Distance.limit := by decide
    have htwo := leadsWithin_iff_of_compareRoute hm hn (h m n hm hn) hlimit
    rw [LeadsWithin.two_iff, LeadsWithin.two_iff] at htwo
    have hother : a.other ∈ a.vertices := mem_vertices.2 (.inr rfl)
    have hdetour := htwo.2 (.inr ⟨a.other, ⟨hm.mem_vertices, hother, hout⟩,
      ⟨hother, hn.mem_vertices, hback⟩⟩)
    simp only [stepWithin_specifiedGraph] at hdetour
    obtain hmn | ⟨c, hmc, hcn⟩ := hdetour
    · exact .inl hmn
    · exact .inr ⟨c, hmc.declares.2, hmc, hcn⟩

/-! ## The strict analysis -/

/-- The strict analysis of a definition with modules has a result, and it reports no difference in
ways exactly when edges match. -/
theorem strict_routes_eq_nil_iff (h : a.definition.modules ≠ []) :
    ∃ r, a.strict = .ok r ∧ (r.routes = [] ↔ a.EdgesMatch) := by
  have hempty : a.definition.modules.isEmpty = false := by simpa using h
  refine ⟨_, by simp only [strict, hempty]; rfl, ?_⟩
  simp only [List.flatMap_eq_nil_iff, List.filterMap_eq_nil_iff]
  constructor
  · exact fun hnone => edgesMatch_of_compareRoute fun m n hm hn => hnone m hm n hn
  · exact fun hmatch m hm n hn => hmatch.compareRoute_eq_none hm hn

/-- Three modules of which the first reaches the last by way of the second, and in the code also by
way of the catch-all module. -/
def detourSample : Analysis :=
  let a : Module := ⟨"A", []⟩
  let b : Module := ⟨"B", []⟩
  let c : Module := ⟨"C", []⟩
  let edges := [(a, b), (b, c), (a, Module.other), (Module.other, c)]
  { definition :=
      { modules := [a, b, c]
        dependencies := [⟨a, b⟩, ⟨b, c⟩]
        noDependencies := []
        names_nodup := by decide
        dependencies_declared := by decide
        noDependencies_declared := by decide
        dependencies_nodup := by decide
        noDependencies_nodup := List.nodup_nil }
    actual := edges.foldl (fun g e => g.addDependency e.1 e.2)
      (ModuleGraph.empty.addModules [a, b, c, Module.other])
    other := Module.other }

/-- A detour that dependencies make in as many steps is no difference. -/
theorem strict_routes_detourSample :
    detourSample.definition.modules ≠ []
      ∧ ∃ r, detourSample.strict = .ok r ∧ r.routes = [] := by
  have hmodules : detourSample.definition.modules ≠ [] := by decide
  have hmatch : detourSample.EdgesMatch := by decide
  obtain ⟨r, hr, hiff⟩ := strict_routes_eq_nil_iff hmodules
  exact ⟨hmodules, r, hr, hiff.2 hmatch⟩

end Conformance.Analysis
